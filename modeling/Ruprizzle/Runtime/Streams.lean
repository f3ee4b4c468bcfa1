import Ruprizzle.Data.Polling

namespace Ruprizzle.Runtime

open Polling

-- The rows of a query, fetched at once or as a stream.

-- What comes of one attempt: of acquiring a connection, of starting the query on it and
-- of reading rows up to the end of the result or up to a failure.
structure Attempt (Row Error : Type) where
  acquire : Future (Option Error)
  query : Future (Option Error)
  rows : List (Future Row)
  finish : Future (Option Error)

-- The attempts there were, and how many of them started the query.
structure Server where
  attempts : Nat
  executions : Nat

def Server.new : Server := ⟨0, 0⟩

namespace Attempt

variable {Row Error : Type} (a : Attempt Row Error)

def failure : Option Error := (a.acquire.output.or a.query.output).or a.finish.output

-- The rows that are read before the attempt is over.
def read : List Row :=
  if (a.acquire.output.or a.query.output).isSome then [] else a.rows.map Future.output

def after (w : Server) : Server :=
  ⟨w.attempts + 1, w.executions + if a.acquire.output.isNone then 1 else 0⟩

end Attempt

section

variable {Row Error : Type}

-- An open tokio_postgres::RowStream.
structure OpenRows (Row Error : Type) where
  rows : List (Future Row)
  finish : Future (Option Error)

def readAll (finish : Future (Option Error)) :
    List (Future Row) → Future (Except Error (List Row))
  | [] => finish.andThen fun
    | some e => .now (.error e)
    | none => .now (.ok [])
  | row :: rest => row.andThen fun r => (readAll finish rest).andThen fun rows =>
      .now (rows.map (r :: ·))

-- Acquiring a connection and going on with it, when the next attempt lets it.
def acquired {α : Type} (db : Nat → Attempt Row Error) (w : Server) (refused : Error → α)
    (onClient : Attempt Row Error → Future α) : Server × Future α :=
  let a := db w.attempts
  (a.after w, a.acquire.andThen fun
    | some e => .now (refused e)
    | none => a.query.andThen fun
      | some e => .now (refused e)
      | none => onClient a)

def fetchAll (db : Nat → Attempt Row Error) (w : Server) :
    Server × Future (Except Error (List Row)) :=
  acquired db w .error fun a => readAll a.finish a.rows

abbrev Item (Row Error : Type) := Except Error Row

-- What the closure of the unbuffered stream makes of the row stream's next row. After
-- an error there is no row stream any more.
def OpenRows.next (s : OpenRows Row Error) :
    Future (Option (Item Row Error × Option (OpenRows Row Error))) :=
  match s.rows with
  | row :: rest => row.andThen fun r => .now (some (.ok r, some ⟨rest, s.finish⟩))
  | [] => s.finish.andThen fun
    | some e => .now (some (.error e, none))
    | none => .now none

def nextRow (db : Nat → Attempt Row Error) (stream : Option (OpenRows Row Error)) (w : Server) :
    Server × Future (Option (Item Row Error × Option (OpenRows Row Error))) :=
  match stream with
  | none => acquired db w (fun e => some (.error e, none)) fun a => OpenRows.next ⟨a.rows, a.finish⟩
  | some s => (w, s.next)

-- A fetch that begins with the first poll.
inductive Fetch (Row Error : Type)
  | lazy
  | begun (rest : Future (Except Error (List Row)))
  | over

-- A poll of a fetch, or none where it has given its result already.
def Fetch.poll (fetch : Server → Server × Future (Except Error (List Row))) (w : Server) :
    Fetch Row Error → Option ((Fetch Row Error × Server) × Poll (Except Error (List Row)))
  | .lazy => some (begin (fetch w).2 (fetch w).1)
  | .begun rest => some (begin rest w)
  | .over => none
where
  begin (f : Future (Except Error (List Row))) (w : Server) :
      (Fetch Row Error × Server) × Poll (Except Error (List Row)) :=
    match f.poll with
    | (some rest, p) => ((.begun rest, w), p)
    | (none, p) => ((.over, w), p)

structure DeferredRowStream (Row Error : Type) where
  fut : Fetch Row Error
  done : Bool
  buffered : List Row

namespace DeferredRowStream

def new : DeferredRowStream Row Error := ⟨.lazy, false, []⟩

def nextBuffered (s : DeferredRowStream Row Error) (w : Server) :
    (DeferredRowStream Row Error × Server) × Poll (Option (Item Row Error)) :=
  match s.buffered with
  | [] => ((s, w), .ready none)
  | row :: rest => (({ s with buffered := rest }, w), .ready (some (.ok row)))

def pollNext (fetch : Server → Server × Future (Except Error (List Row))) :
    PollNext (DeferredRowStream Row Error × Server) (Item Row Error)
  | (s, w) =>
      if s.done then some (nextBuffered s w)
      else
        match s.fut.poll fetch w with
        | none => none
        | some ((fut, w), .pending) => some (({ s with fut }, w), .pending)
        | some ((fut, w), .ready (.error e)) =>
            some (({ s with fut, done := true }, w), .ready (some (.error e)))
        | some ((fut, w), .ready (.ok rows)) =>
            some (nextBuffered { fut, done := true, buffered := rows } w)

end DeferredRowStream

-- The adapters over HTTP: a fetch once, and then what its batch is turned into.
inductive EdgeRowStream (Row Error : Type)
  | once (fut : Fetch Row Error)
  | iter (items : List (Item Row Error))

namespace EdgeRowStream

def items : Except Error (List Row) → List (Item Row Error)
  | .ok rows => rows.map .ok
  | .error e => [.error e]

def nextItem (items : List (Item Row Error)) (w : Server) :
    (EdgeRowStream Row Error × Server) × Poll (Option (Item Row Error)) :=
  match items with
  | [] => ((.iter [], w), .ready none)
  | x :: rest => ((.iter rest, w), .ready (some x))

def pollNext (fetch : Server → Server × Future (Except Error (List Row))) :
    PollNext (EdgeRowStream Row Error × Server) (Item Row Error)
  | (.once fut, w) =>
      match fut.poll fetch w with
      | none => none
      | some ((fut, w), .pending) => some ((.once fut, w), .pending)
      | some ((_, w), .ready batch) => some (nextItem (items batch) w)
  | (.iter rest, w) => some (nextItem rest w)

end EdgeRowStream

-- A boxed stream of rows.
structure BoxRowStream (Row Error : Type) where
  State : Type
  start : State
  pollNext : PollNext (State × Server) (Item Row Error)

end

inductive Pool
  | any | postgres | sqlite | mysql | sqliteNative | postgresNative
  deriving DecidableEq, Repr

inductive ReadRoute
  | replica (pool : Pool)
  | primary
  | noHealthyReplica
  deriving DecidableEq, Repr

-- What a query is run on.
inductive Executor
  | pool (p : Pool)
  | tokioPostgres
  | rusqlite
  | tx
  | savepoint
  | turso
  | d1
  | routed (primary : Pool) (isReplicaSafe : String → Bool) (route : ReadRoute)
  | counting (inner : Executor)

namespace Executor

variable {Row Error : Type} (db : Nat → Attempt Row Error) (noHealthyReplica : Error) (sql : String)

def fetchAllRaw : Executor → Server → Server × Future (Except Error (List Row))
  | routed _ isReplicaSafe route => fun w =>
      if !isReplicaSafe sql then fetchAll db w
      else
        match route with
        | .noHealthyReplica => (w, .now (.error noHealthyReplica))
        | _ => fetchAll db w
  | counting inner => inner.fetchAllRaw
  | _ => fetchAll db

def deferred : BoxRowStream Row Error :=
  ⟨DeferredRowStream Row Error, .new, DeferredRowStream.pollNext (fetchAll db)⟩

def streamRaw : Executor → BoxRowStream Row Error
  | turso | d1 =>
      ⟨EdgeRowStream Row Error, .once .lazy, EdgeRowStream.pollNext (fetchAll db)⟩
  | routed _ isReplicaSafe route =>
      if !isReplicaSafe sql then deferred db
      else
        match route with
        | .noHealthyReplica =>
            ⟨EdgeRowStream Row Error, .iter [.error noHealthyReplica],
              EdgeRowStream.pollNext (fetchAll db)⟩
        | _ => deferred db
  | counting inner => inner.streamRaw
  | _ => deferred db

-- Only the native PostgreSQL pool has a stream of its own.
def streamUnbufferedRaw : Executor → BoxRowStream Row Error
  | pool .postgresNative | tokioPostgres =>
      ⟨Unfold (Option (OpenRows Row Error)) (Item Row Error), .value none,
        Unfold.pollNext (nextRow db)⟩
  | counting inner => inner.streamUnbufferedRaw
  | e => e.streamRaw db noHealthyReplica sql

end Executor

section

variable {Row Error : Type} {db : Nat → Attempt Row Error} {w : Server}
  {items : List (Item Row Error)}

theorem readAll_output (finish : Future (Option Error)) (rows : List (Future Row)) :
    (readAll finish rows).output = match finish.output with
      | some e => .error e
      | none => .ok (rows.map Future.output) := by
  induction rows with
  | nil => cases h : finish.output <;> simp [readAll, Future.andThen, Future.now, h]
  | cons row rest ih =>
      cases h : finish.output <;> simp [readAll, Future.andThen, Future.now, h, ih, Except.map]

theorem fetchAll_output : (fetchAll db w).2.output = match (db w.attempts).failure with
    | some e => .error e
    | none => .ok (db w.attempts).read := by
  cases hacquire : (db w.attempts).acquire.output with
  | some e => simp [fetchAll, acquired, Future.andThen, Future.now, Attempt.failure, hacquire]
  | none =>
      cases hquery : (db w.attempts).query.output with
      | some e =>
          simp [fetchAll, acquired, Future.andThen, Future.now, Attempt.failure, hacquire, hquery]
      | none =>
          simp [fetchAll, acquired, Future.andThen, Attempt.failure, Attempt.read, hacquire,
            hquery, readAll_output]

theorem fetchAll_server : (fetchAll db w).1 = (db w.attempts).after w := rfl

-- Polling a fetch until it is ready.

variable {fetch : Server → Server × Future (Except Error (List Row))}

namespace DeferredRowStream

theorem ends_buffered (rows : List Row) :
    Ends (pollNext fetch) (⟨.over, true, rows⟩, w) (rows.map .ok) (⟨.over, true, []⟩, w) := by
  induction rows with
  | nil => exact .stop rfl
  | cons row rest ih => exact .item rfl ih

theorem ends_nextBuffered {s : DeferredRowStream Row Error × Server} {rows : List Row}
    (h : pollNext fetch s = some (nextBuffered ⟨.over, true, rows⟩ w)) :
    Ends (pollNext fetch) s (rows.map .ok) (⟨.over, true, []⟩, w) := by
  cases rows with
  | nil => exact .stop h
  | cons row rest => exact .item h (ends_buffered rest)

theorem ends_begun {fut : Fetch Row Error} {v : Server} {f : Future (Except Error (List Row))}
    (h : fut.poll fetch v = some (Fetch.poll.begin f w)) :
    Ends (pollNext fetch) (⟨fut, false, []⟩, v) (EdgeRowStream.items f.output)
      (⟨.over, true, []⟩, w) := by
  obtain ⟨waits, output⟩ := f
  induction waits generalizing fut v with
  | zero =>
      cases output with
      | error e =>
          refine .item (t := (⟨.over, true, []⟩, w)) ?_ (.stop rfl)
          simp [pollNext, h, Fetch.poll.begin, Future.poll]
      | ok rows =>
          refine ends_nextBuffered ?_
          simp [pollNext, h, Fetch.poll.begin, Future.poll]
  | succ n ih =>
      refine .wait (t := (⟨.begun ⟨n, output⟩, false, []⟩, w)) ?_ (ih rfl)
      simp [pollNext, h, Fetch.poll.begin, Future.poll]

end DeferredRowStream

namespace EdgeRowStream

theorem ends_iter (rest : List (Item Row Error)) :
    Ends (pollNext fetch) (.iter rest, w) rest (.iter [], w) := by
  induction rest with
  | nil => exact .stop rfl
  | cons x rest ih => exact .item rfl ih

theorem ends_begun {fut : Fetch Row Error} {v : Server} {f : Future (Except Error (List Row))}
    (h : fut.poll fetch v = some (Fetch.poll.begin f w)) :
    Ends (pollNext fetch) (.once fut, v) (EdgeRowStream.items f.output) (.iter [], w) := by
  obtain ⟨waits, output⟩ := f
  induction waits generalizing fut v with
  | zero =>
      have hpoll : pollNext fetch (.once fut, v)
          = some (nextItem (EdgeRowStream.items output) w) := by
        simp [pollNext, h, Fetch.poll.begin, Future.poll]
      show Ends (pollNext fetch) (.once fut, v) (EdgeRowStream.items output) (.iter [], w)
      cases hitems : EdgeRowStream.items output with
      | nil => exact .stop (by rw [hpoll, hitems, nextItem])
      | cons x rest => exact .item (by rw [hpoll, hitems, nextItem]) (ends_iter rest)
  | succ n ih =>
      refine .wait (t := (.once (.begun ⟨n, output⟩), w)) ?_ (ih rfl)
      simp [pollNext, h, Fetch.poll.begin, Future.poll]

end EdgeRowStream

-- The unbuffered stream, by its attempts.

open Unfold

variable {u : Unfold (Option (OpenRows Row Error)) (Item Row Error) × Server}

-- An open row stream gives its rows, and an error makes the stream begin again.
theorem ends_open (rows : List (Future Row)) (finish : Future (Option Error)) :
    Ends (pollNext (nextRow db)) (.value (some ⟨rows, finish⟩), w) items u ↔
      match finish.output with
      | none => items = rows.map (fun r => .ok r.output) ∧ u = (.empty, w)
      | some e => ∃ rest, items = rows.map (fun r => .ok r.output) ++ .error e :: rest ∧
          Ends (pollNext (nextRow db)) (.value none, w) rest u := by
  rw [ends_value]
  induction rows generalizing items with
  | nil =>
      cases h : finish.output <;>
        simp [nextRow, OpenRows.next, Future.andThen, Future.now, After, h]
  | cons row rest ih =>
      have hnext : ∀ more,
          Ends (pollNext (nextRow db)) (.value (some ⟨rest, finish⟩), w) more u ↔ _ :=
        fun more => (ends_value (nextRow db)).trans ih
      have hrow : After (nextRow db) (nextRow db (some ⟨row :: rest, finish⟩) w).2.output w items u
          ↔ ∃ more, items = .ok row.output :: more ∧
            Ends (pollNext (nextRow db)) (.value (some ⟨rest, finish⟩), w) more u := Iff.rfl
      rw [show (nextRow db (some ⟨row :: rest, finish⟩) w).1 = w from rfl, hrow]
      simp only [hnext]
      cases finish.output with
      | none =>
          constructor
          · rintro ⟨more, rfl, rfl, hu⟩
            exact ⟨rfl, hu⟩
          · rintro ⟨rfl, hu⟩
            exact ⟨_, rfl, rfl, hu⟩
      | some e =>
          constructor
          · rintro ⟨more, rfl, last, rfl, hlast⟩
            exact ⟨last, rfl, hlast⟩
          · rintro ⟨last, rfl, hlast⟩
            exact ⟨_, rfl, last, rfl, hlast⟩

-- A stream that has no row stream makes an attempt, and another one after a failure.
theorem ends_attempt : Ends (pollNext (nextRow db)) (.value none, w) items u ↔
    match (db w.attempts).failure with
    | none => items = (db w.attempts).read.map .ok ∧ u = (.empty, (db w.attempts).after w)
    | some e => ∃ rest, items = (db w.attempts).read.map .ok ++ .error e :: rest ∧
        Ends (pollNext (nextRow db)) (.value none, (db w.attempts).after w) rest u := by
  have hrefused : ∀ e, (nextRow db none w).2.output = some (.error e, none) →
      (Ends (pollNext (nextRow db)) (.value none, w) items u ↔ ∃ rest, items = .error e :: rest ∧
        Ends (pollNext (nextRow db)) (.value none, (db w.attempts).after w) rest u) := by
    intro e he
    rw [ends_value, he]
    rfl
  cases hacquire : (db w.attempts).acquire.output with
  | some e =>
      rw [hrefused e (by simp [nextRow, acquired, Future.andThen, Future.now, hacquire])]
      simp [Attempt.failure, Attempt.read, hacquire]
  | none =>
      cases hquery : (db w.attempts).query.output with
      | some e =>
          rw [hrefused e (by simp [nextRow, acquired, Future.andThen, Future.now, hacquire, hquery])]
          simp [Attempt.failure, Attempt.read, hacquire, hquery]
      | none =>
          have hopen : (nextRow db none w).2.output = (nextRow db (some ⟨(db w.attempts).rows,
              (db w.attempts).finish⟩) ((db w.attempts).after w)).2.output := by
            simp [nextRow, acquired, Future.andThen, hacquire, hquery]
          rw [ends_value, hopen]
          refine (ends_value (nextRow db)).symm.trans ((ends_open _ _).trans ?_)
          simp [Attempt.failure, Attempt.read, hacquire, hquery, Function.comp_def]

end

namespace Executor

variable {Row Error : Type} (db : Nat → Attempt Row Error) (noHealthyReplica : Error) (sql : String)

def stream (unbuffered : Bool) (exec : Executor) : BoxRowStream Row Error :=
  if unbuffered then exec.streamUnbufferedRaw db noHealthyReplica sql
  else exec.streamRaw db noHealthyReplica sql

-- The pool whose rows are read one by one.
def native : Executor → Bool
  | pool .postgresNative | tokioPostgres => true
  | counting inner => inner.native
  | _ => false

-- The stream ends after it gave the rows of the fetch, or the fetch's error once after
-- what was read one by one before it. The query was started once at most.
def Agrees (unbuffered : Bool) (exec : Executor) : Prop :=
  let stream := exec.stream db noHealthyReplica sql unbuffered
  ∃ items u, Ends stream.pollNext (stream.start, .new) items u ∧ u.2.executions ≤ 1 ∧
    match (exec.fetchAllRaw db noHealthyReplica sql .new).2.output with
    | .ok rows => items = rows.map .ok
    | .error e => items =
        (if unbuffered ∧ exec.native then (db 0).read else []).map .ok ++ [.error e]

variable {db noHealthyReplica sql}

theorem executions_after (a : Attempt Row Error) {w : Server} (h : w.executions = 0) :
    (a.after w).executions ≤ 1 := by
  unfold Attempt.after
  dsimp only
  split <;> omega

-- A buffered stream gives what the fetch gives.
theorem raw_items (exec : Executor) :
    ∃ u, Ends (exec.streamRaw db noHealthyReplica sql).pollNext
        ((exec.streamRaw db noHealthyReplica sql).start, .new)
        (EdgeRowStream.items (exec.fetchAllRaw db noHealthyReplica sql .new).2.output) u ∧
      u.2.executions ≤ 1 := by
  have hdeferred : ∃ u, Ends (deferred db).pollNext ((deferred db).start, .new)
      (EdgeRowStream.items (fetchAll db .new).2.output) u ∧ u.2.executions ≤ 1 :=
    ⟨_, DeferredRowStream.ends_begun rfl, executions_after _ rfl⟩
  have hedge : ∃ u, Ends (EdgeRowStream.pollNext (fetchAll db)) (.once .lazy, .new)
      (EdgeRowStream.items (fetchAll db .new).2.output) u ∧ u.2.executions ≤ 1 :=
    ⟨_, EdgeRowStream.ends_begun rfl, executions_after _ rfl⟩
  induction exec with
  | pool p => exact hdeferred
  | tokioPostgres => exact hdeferred
  | rusqlite => exact hdeferred
  | tx => exact hdeferred
  | savepoint => exact hdeferred
  | turso => exact hedge
  | d1 => exact hedge
  | routed primary isReplicaSafe route =>
      have hpassed : ∀ exec : Executor, exec.streamRaw db noHealthyReplica sql = deferred db →
          exec.fetchAllRaw db noHealthyReplica sql = fetchAll db →
          ∃ u, Ends (exec.streamRaw db noHealthyReplica sql).pollNext
              ((exec.streamRaw db noHealthyReplica sql).start, .new)
              (EdgeRowStream.items (exec.fetchAllRaw db noHealthyReplica sql .new).2.output) u ∧
            u.2.executions ≤ 1 := by
        intro exec hstream hfetch
        rw [hstream, hfetch]
        exact hdeferred
      cases hsafe : isReplicaSafe sql with
      | false => exact hpassed _ (by simp [streamRaw, hsafe]) (by simp [fetchAllRaw, hsafe])
      | true =>
          cases route with
          | replica pool => exact hpassed _ (by simp [streamRaw, hsafe]) (by simp [fetchAllRaw, hsafe])
          | primary => exact hpassed _ (by simp [streamRaw, hsafe]) (by simp [fetchAllRaw, hsafe])
          | noHealthyReplica =>
              have hstream : (routed primary isReplicaSafe .noHealthyReplica).streamRaw db
                  noHealthyReplica sql = ⟨EdgeRowStream Row Error, .iter [.error noHealthyReplica],
                    EdgeRowStream.pollNext (fetchAll db)⟩ := by simp [streamRaw, hsafe]
              have hfetch : ((routed primary isReplicaSafe .noHealthyReplica).fetchAllRaw db
                  noHealthyReplica sql .new).2.output = .error noHealthyReplica := by
                simp [fetchAllRaw, hsafe, Future.now]
              rw [hstream, hfetch]
              exact ⟨_, EdgeRowStream.ends_iter _, Nat.zero_le _⟩
  | counting inner ih => exact ih

theorem unbuffered_raw {exec : Executor} (h : exec.native = false) :
    exec.streamUnbufferedRaw db noHealthyReplica sql = exec.streamRaw db noHealthyReplica sql := by
  induction exec with
  | pool p =>
      cases p with
      | postgresNative => cases h
      | _ => rfl
  | tokioPostgres => cases h
  | counting inner ih => exact ih h
  | _ => rfl

theorem unbuffered_native {exec : Executor} (h : exec.native = true) :
    exec.streamUnbufferedRaw db noHealthyReplica sql
        = (tokioPostgres).streamUnbufferedRaw db noHealthyReplica sql ∧
      exec.fetchAllRaw db noHealthyReplica sql = fetchAll db := by
  induction exec with
  | pool p =>
      cases p with
      | postgresNative => exact ⟨rfl, rfl⟩
      | _ => cases h
  | tokioPostgres => exact ⟨rfl, rfl⟩
  | counting inner ih => exact ih h
  | _ => cases h

theorem agrees_raw {exec : Executor} {unbuffered : Bool} (h : ¬(unbuffered ∧ exec.native)) :
    exec.Agrees db noHealthyReplica sql unbuffered := by
  have hstream : exec.stream db noHealthyReplica sql unbuffered
      = exec.streamRaw db noHealthyReplica sql := by
    cases unbuffered with
    | false => rfl
    | true => exact unbuffered_raw (by simpa using h)
  obtain ⟨u, hends, hexecutions⟩ : ∃ u, Ends (exec.streamRaw db noHealthyReplica sql).pollNext
      ((exec.streamRaw db noHealthyReplica sql).start, .new)
      (EdgeRowStream.items (exec.fetchAllRaw db noHealthyReplica sql .new).2.output) u ∧
        u.2.executions ≤ 1 := raw_items exec
  unfold Agrees
  rw [hstream]
  refine ⟨_, u, hends, hexecutions, ?_⟩
  cases (exec.fetchAllRaw db noHealthyReplica sql .new).2.output with
  | ok rows => rfl
  | error e => simp [EdgeRowStream.items, h]

theorem failure_none {a : Attempt Row Error} (h : a.failure = none) :
    a.acquire.output = none ∧ a.query.output = none := by
  unfold Attempt.failure at h
  cases hacquire : a.acquire.output with
  | some e => simp [hacquire] at h
  | none =>
      cases hquery : a.query.output with
      | some e => simp [hacquire, hquery] at h
      | none => exact ⟨rfl, rfl⟩

-- A second attempt adds nothing where the first one had no connection and the second
-- one has an empty result.
theorem agrees_native {exec : Executor} (h : exec.native = true) :
    exec.Agrees db noHealthyReplica sql true ↔
      (db 0).failure = none ∨
        ((db 0).acquire.output ≠ none ∧ (db 1).failure = none ∧ (db 1).rows = []) := by
  have hunbuffered : exec.stream db noHealthyReplica sql true
      = (tokioPostgres).streamUnbufferedRaw db noHealthyReplica sql := (unbuffered_native h).1
  have hfetch : exec.fetchAllRaw db noHealthyReplica sql = fetchAll db := (unbuffered_native h).2
  unfold Agrees
  rw [hunbuffered, hfetch, fetchAll_output]
  show (∃ items u, Ends (Unfold.pollNext (nextRow db)) (.value none, .new) items u ∧ _) ↔ _
  constructor
  · intro ⟨items, u, hends, hexecutions, hitems⟩
    cases hfailure : (db 0).failure with
    | none => exact Or.inl rfl
    | some e =>
        rw [ends_attempt, show Server.new.attempts = 0 from rfl, hfailure] at hends
        rw [show Server.new.attempts = 0 from rfl, hfailure] at hitems
        obtain ⟨rest, rfl, hrest⟩ := hends
        obtain rfl : rest = [] := by simpa [h] using hitems
        rw [ends_attempt, show ((db 0).after .new).attempts = 1 from rfl] at hrest
        cases hagain : (db 1).failure with
        | some e' => simp [hagain] at hrest
        | none =>
            rw [hagain] at hrest
            obtain ⟨hread, rfl⟩ := hrest
            obtain ⟨hacquire, hquery⟩ := failure_none hagain
            refine Or.inr ⟨fun hnone => ?_, rfl, ?_⟩
            · simp [Attempt.after, Server.new, hnone, hacquire] at hexecutions
            · simpa [Attempt.read, hacquire, hquery] using hread.symm
  · intro hwhen
    rw [show Server.new.attempts = 0 from rfl]
    cases hfailure : (db 0).failure with
    | none =>
        have hends : Ends (Unfold.pollNext (nextRow db)) (.value none, .new)
            ((db 0).read.map .ok) (.empty, (db 0).after .new) :=
          ends_attempt.mpr (by
            rw [show Server.new.attempts = 0 from rfl, hfailure]
            exact ⟨rfl, rfl⟩)
        exact ⟨_, _, hends, executions_after _ rfl, rfl⟩
    | some e =>
        obtain ⟨hacquire, hagain, hrows⟩ := hwhen.resolve_left (by simp [hfailure])
        obtain ⟨reason, hreason⟩ := Option.ne_none_iff_exists'.mp hacquire
        have hlast : Ends (Unfold.pollNext (nextRow db)) (.value none, (db 0).after .new) []
            (.empty, (db 1).after ((db 0).after .new)) := by
          refine ends_attempt.mpr ?_
          rw [show ((db 0).after .new).attempts = 1 from rfl, hagain]
          exact ⟨by simp [Attempt.read, hrows], rfl⟩
        have hends : Ends (Unfold.pollNext (nextRow db)) (.value none, .new)
            ((db 0).read.map .ok ++ [.error e]) (.empty, (db 1).after ((db 0).after .new)) := by
          refine ends_attempt.mpr ?_
          rw [show Server.new.attempts = 0 from rfl, hfailure]
          exact ⟨[], rfl, hlast⟩
        have hidle : ((db 0).after .new).executions = 0 := by
          simp [Attempt.after, Server.new, hreason]
        exact ⟨_, _, hends, executions_after _ hidle, by simp [h]⟩

theorem streams_agree_iff (exec : Executor) (unbuffered : Bool) :
    exec.Agrees db noHealthyReplica sql unbuffered ↔
      ¬(unbuffered ∧ exec.native) ∨ (db 0).failure = none ∨
        ((db 0).acquire.output ≠ none ∧ (db 1).failure = none ∧ (db 1).rows = []) := by
  by_cases h : unbuffered ∧ exec.native
  · obtain ⟨rfl, hnative⟩ := h
    exact (agrees_native hnative).trans (or_iff_right fun hbuffered => hbuffered ⟨rfl, hnative⟩).symm
  · exact iff_of_true (agrees_raw h) (Or.inl h)

-- The connection breaks after the first row.
def interrupted : Nat → Attempt String String
  | 0 => ⟨.now none, .now none, [.now "ada"], .now (some "connection reset")⟩
  | _ => ⟨.now none, .now none, [.now "ada", .now "bob"], .now none⟩

theorem row_repeated :
    (∃ u, Ends ((tokioPostgres).stream interrupted "" "SELECT name FROM users" true).pollNext
        (.value none, .new)
        [.ok "ada", .error "connection reset", .ok "ada", .ok "bob"] u ∧ u.2.executions = 2) ∧
      ¬(tokioPostgres).Agrees interrupted "" "SELECT name FROM users" true := by
  refine ⟨⟨(.empty, ⟨2, 2⟩), ?_, rfl⟩, fun h => ?_⟩
  · exact .item rfl (.item rfl (.item rfl (.item rfl (.stop rfl))))
  · rcases (agrees_native rfl).mp h with hnone | ⟨hacquire, -, -⟩
    · exact absurd hnone (by decide)
    · exact hacquire rfl

end Executor

end Ruprizzle.Runtime
