import Mathlib.Logic.Basic

namespace Ruprizzle

-- A client that issues statements one after the other, up to the first that fails, and
-- sees an answer to each.
namespace Sessions

-- What a statement of the language does to the state is fixed, but it may be refused.
structure Service (St Db Ans : Type) where
  legal : St → Prop
  effect : St → Db → Db
  accepts : St → Db → Prop
  answers : St → Db → Ans → Prop
  execute : St → Db → Option (Db × Ans)
  accepted : ∀ st db, legal st → accepts st db → ∃ n, execute st db = some (effect st db, n)
  executes : ∀ st db next n, legal st → execute st db = some (next, n) →
    accepts st db ∧ next = effect st db ∧ answers st db n

variable {St Db Ans α β : Type}

-- What was issued, and what came of it.
abbrev Session (St Db α : Type) := List St × Option (Db × α)

def done (a : α) (db : Db) : Session St Db α := ([], some (db, a))

def fail : Session St Db α := ([], none)

def andThen (first : Session St Db α) (next : Db → α → Session St Db β) : Session St Db β :=
  match first.2 with
  | none => (first.1, none)
  | some (db, a) => (first.1 ++ (next db a).1, (next db a).2)

def each (act : α → Db → Session St Db Unit) : List α → Db → Session St Db Unit
  | [], db => done () db
  | a :: rest, db => andThen (act a db) fun db _ => each act rest db

variable (server : Service St Db Ans)

def issue (st : St) (db : Db) : Session St Db Ans := ([st], server.execute st db)

-- All that was issued is of the language, nothing failed, and the state is as it should be.
structure Ensures (session : Session St Db α) (goal : Db → Prop) : Prop where
  legal : ∀ st ∈ session.1, server.legal st
  reached : ∃ db a, session.2 = some (db, a) ∧ goal db

-- What a client does to the state is fixed, too, and it succeeds just where it is ready.
def Acts (act : Db → Session St Db α) (ready : Db → Prop) (after : Db → Db) : Prop :=
  ∀ db goal, Ensures server (act db) goal ↔ ready db ∧ goal (after db)

def Ready (ready : α → Db → Prop) (after : α → Db → Db) : List α → Db → Prop
  | [], _ => True
  | a :: rest, db => ready a db ∧ Ready ready after rest (after a db)

def afterAll (after : α → Db → Db) : List α → Db → Db
  | [], db => db
  | a :: rest, db => afterAll after rest (after a db)

-- One step after the other has its effect.
def Performs (right : α → Db → Db → Prop) : List α → Db → Db → Prop
  | [], db, last => last = db
  | a :: rest, db, last => ∃ mid, right a db mid ∧ Performs right rest mid last

variable {server}

theorem ensures_done {a : α} {db : Db} {goal : Db → Prop} :
    Ensures server (done a db) goal ↔ goal db := by
  constructor
  · intro h
    obtain ⟨last, b, hlast, hgoal⟩ := h.reached
    rw [(Prod.mk.inj (Option.some.inj hlast)).1]
    exact hgoal
  · intro h
    exact ⟨fun st hst => absurd hst List.not_mem_nil, db, a, rfl, h⟩

theorem ensures_andThen {first : Session St Db α} {next : Db → α → Session St Db β} {goal : Db → Prop} :
    Ensures server (andThen first next) goal ↔
      (∀ st ∈ first.1, server.legal st) ∧
        ∃ db a, first.2 = some (db, a) ∧ Ensures server (next db a) goal := by
  obtain ⟨sent, last⟩ := first
  cases last with
  | none =>
      constructor
      · intro h
        obtain ⟨db, a, hnone, -⟩ := h.reached
        cases hnone
      · intro ⟨_, db, a, hnone, _⟩
        cases hnone
  | some state =>
      obtain ⟨db, a⟩ := state
      constructor
      · intro h
        refine ⟨fun st hst => h.legal st (List.mem_append_left _ hst), db, a, rfl, ?_⟩
        exact ⟨fun st hst => h.legal st (List.mem_append_right _ hst), h.reached⟩
      · intro ⟨hfirst, db', a', heq, hnext⟩
        obtain ⟨rfl, rfl⟩ := Prod.mk.inj (Option.some.inj heq)
        refine ⟨fun st hst => ?_, hnext.reached⟩
        rcases List.mem_append.mp hst with hst | hst
        · exact hfirst st hst
        · exact hnext.legal st hst

-- A statement, and what follows on its answer.
theorem ensures_issue {st : St} {db : Db} {next : Db → Ans → Session St Db β} {goal : Db → Prop} :
    Ensures server (andThen (issue server st db) next) goal ↔
      (server.legal st ∧ server.accepts st db) ∧
        ∃ n, server.execute st db = some (server.effect st db, n) ∧ server.answers st db n ∧
          Ensures server (next (server.effect st db) n) goal := by
  rw [ensures_andThen]
  have hone : (∀ st' ∈ (issue server st db).1, server.legal st') ↔ server.legal st :=
    List.forall_mem_singleton
  rw [hone]
  constructor
  · intro ⟨hlegal, last, n, hlast, hnext⟩
    obtain ⟨haccepts, rfl, hanswers⟩ := server.executes _ _ _ _ hlegal hlast
    exact ⟨⟨hlegal, haccepts⟩, n, hlast, hanswers, hnext⟩
  · intro ⟨⟨hlegal, _⟩, n, hlast, _, hnext⟩
    exact ⟨hlegal, _, n, hlast, hnext⟩

theorem acts_done (a : α) : Acts server (done a) (fun _ => True) id := fun db goal => by
  rw [ensures_done, true_and]
  rfl

variable (server) in
theorem acts_issue (st : St) :
    Acts server (issue server st) (fun db => server.legal st ∧ server.accepts st db) (server.effect st) := by
  intro db goal
  have hone : (∀ st' ∈ (issue server st db).1, server.legal st') ↔ server.legal st :=
    List.forall_mem_singleton
  constructor
  · intro h
    have hlegal := hone.mp h.legal
    obtain ⟨last, n, hlast, hgoal⟩ := h.reached
    obtain ⟨haccepts, rfl, -⟩ := server.executes _ _ _ _ hlegal hlast
    exact ⟨⟨hlegal, haccepts⟩, hgoal⟩
  · intro ⟨⟨hlegal, haccepts⟩, hgoal⟩
    obtain ⟨n, hn⟩ := server.accepted st db hlegal haccepts
    exact ⟨hone.mpr hlegal, _, n, hn, hgoal⟩

theorem Acts.andThen {first : Db → Session St Db α} {next : α → Db → Session St Db β}
    {ready ready' : Db → Prop} {after after' : Db → Db} (h : Acts server first ready after)
    (h' : ∀ a, Acts server (next a) ready' after') :
    Acts server (fun db => Sessions.andThen (first db) fun db a => next a db)
      (fun db => ready db ∧ ready' (after db)) (after' ∘ after) := by
  intro db goal
  have hstep := h db fun mid => ready' mid ∧ goal (after' mid)
  rw [ensures_andThen, and_assoc]
  refine Iff.trans ?_ hstep
  constructor
  · intro ⟨hlegal, mid, a, hmid, hnext⟩
    exact ⟨hlegal, mid, a, hmid, (h' a mid goal).mp hnext⟩
  · intro hall
    obtain ⟨mid, a, hmid, hready⟩ := hall.reached
    exact ⟨hall.legal, mid, a, hmid, (h' a mid goal).mpr hready⟩

theorem Acts.congr {act : Db → Session St Db α} {ready ready' : Db → Prop} {after after' : Db → Db}
    (h : Acts server act ready after) (hready : ∀ db, ready db ↔ ready' db)
    (hafter : ∀ db, ready db → after db = after' db) : Acts server act ready' after' := by
  intro db goal
  rw [h db goal, ← hready db]
  refine and_congr_right fun hdb => ?_
  rw [hafter db hdb]

theorem Acts.andDone {act : Db → Session St Db α} {ready : Db → Prop} {after : Db → Db}
    (h : Acts server act ready after) (f : α → β) :
    Acts server (fun db => Sessions.andThen (act db) fun db a => done (f a) db) ready after :=
  (h.andThen fun a => acts_done (f a)).congr (fun _ => iff_of_eq (and_true _)) fun _ _ => rfl

theorem acts_each {act : α → Db → Session St Db Unit} {ready : α → Db → Prop} {after : α → Db → Db}
    (h : ∀ a, Acts server (act a) (ready a) (after a)) (items : List α) :
    Acts server (each act items) (Ready ready after items) (afterAll after items) := by
  induction items with
  | nil => exact acts_done ()
  | cons a rest ih => exact (h a).andThen fun _ => ih

-- Steps that are right one by one are right together.
theorem performs_of_ready {ready : α → Db → Prop} {after : α → Db → Db} {right : α → Db → Db → Prop}
    (h : ∀ a db, ready a db → right a db (after a db)) {items : List α} {db : Db}
    (hready : Ready ready after items db) : Performs right items db (afterAll after items db) := by
  induction items generalizing db with
  | nil => rfl
  | cons a rest ih => exact ⟨_, h a db hready.1, ih hready.2⟩

end Sessions

end Ruprizzle
