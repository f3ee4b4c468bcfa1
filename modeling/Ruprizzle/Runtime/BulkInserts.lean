import Mathlib.Data.List.Sort
import Ruprizzle.Runtime.Nested

namespace Ruprizzle.Runtime

open Batches

-- Inserts of many rows, piece by piece: each piece for itself where an insert returns
-- its rows, and in one transaction that reads them back where it does not.

-- What a database does with a piece: what it stores for each row, LAST_INSERT_ID() after
-- it, and the numbers that come after an id. ORDER BY puts no row before a smaller one.
structure BulkServer where
  d : Dialect
  engine : Engine
  columns : String → List String
  stores : List (String × Value) → Row → Prop
  insert : Database → String → List (List (String × Value)) → Option (Database × List Row × Value)
  inserts : ∀ db table rows db' new id, insert db table rows = some (db', new, id) →
    db' = db.add table new ∧ List.Forall₂ stores rows new
  plus : Value → Nat → Value
  sortBy : String → List Row → List Row
  sorts : ∀ key rows, (sortBy key rows).Perm rows ∧
    (sortBy key rows).Pairwise fun a b => engine.compare .lt (b key) (a key) ≠ .yes
  lt_asymm : ∀ v w, engine.compare .lt v w = .yes → engine.compare .lt w v ≠ .yes
  commits : Database → Bool

structure InsertManyQuery (M : Type) where
  table : String
  columns : List String
  primaryKey : String
  decode : Cells → Option M
  rows : List (List (String × Value))

namespace InsertManyQuery

variable {M : Type} (s : BulkServer) (q : InsertManyQuery M)

def returning : List String := if q.columns.isEmpty then s.columns q.table else q.columns

def pieces : List (List (List (String × Value))) := chunks (rowsPerChunk s.d q.rows) q.rows

def decoded (row : Row) : Option M := q.decode (row.cells (q.returning s))

-- The pieces go to the pool, which commits each of them.
def insertChunks : List (List (List (String × Value))) → Database → Option (List M) × Database
  | [], db => (some [], db)
  | chunk :: rest, db =>
      match s.insert db q.table chunk with
      | none => (none, db)
      | some (next, new, _) =>
          match new.mapM (q.decoded s) with
          | none => (none, next)
          | some shown =>
              let (more, last) := insertChunks rest next
              (more.map (shown ++ ·), last)

def keys (chunk : List (List (String × Value))) : Option (List Value) :=
  chunk.mapM fun row => row.lookup q.primaryKey

-- Read back by the keys that were supplied, or else by the block of ids of the statement.
def selects (chunk : List (List (String × Value))) (id : Value) (row : Row) : Bool :=
  match q.keys chunk with
  | some keys => s.engine.isIn (row q.primaryKey) keys = .yes
  | none => s.engine.isBetween (row q.primaryKey) id (s.plus id (chunk.length - 1)) = .yes

def readBack (db : Database) (chunk : List (List (String × Value))) (id : Value) : List Row :=
  s.sortBy q.primaryKey ((db q.table).filter (q.selects s chunk id))

-- The pieces go to a transaction, each of them followed by a select.
def execWithoutReturning : List (List (List (String × Value))) → Database → Option (List M × Database)
  | [], db => some ([], db)
  | chunk :: rest, db =>
      (s.insert db q.table chunk).bind fun (next, _, id) =>
        ((q.readBack s next chunk id).mapM (q.decoded s)).bind fun shown =>
          if shown.length ≠ chunk.length then none
          else (execWithoutReturning rest next).map fun (more, last) => (shown ++ more, last)

def exec (db : Database) : Option (List M) × Database :=
  if q.rows.isEmpty then (some [], db)
  else if q.rows.any List.isEmpty || !sameShape q.rows then (none, db)
  else if (q.returning s).all fun column => column ∈ s.columns q.table then
    if s.d = .mysql then
      match q.execWithoutReturning s (q.pieces s) db with
      | some (shown, next) => if s.commits next then (some shown, next) else (none, db)
      | none => (none, db)
    else q.insertChunks s (q.pieces s) db
  else (none, db)

-- What is returned shows the rows one by one.
def Shows (shown : List M) (rows : List Row) : Prop :=
  List.Forall₂ (fun m row => q.decoded s row = some m) shown rows

-- A key is supplied for every row, and stored so.
def Supplied : Prop :=
  ∀ given ∈ q.rows, ∃ v, given.lookup q.primaryKey = some v ∧
    ∀ row, s.stores given row → s.engine.compare .eq (row q.primaryKey) v = .yes

-- No key is supplied, and an AUTO_INCREMENT column numbers the rows of a statement.
structure Numbered : Prop where
  none : ∀ given ∈ q.rows, given.lookup q.primaryKey = none
  ids : ∀ db chunk db' new id, s.insert db q.table chunk = some (db', new, id) →
    ∀ i row, new[i]? = some row → row q.primaryKey = s.plus id i
  between : ∀ id i n, i ≤ n → s.engine.isBetween (s.plus id i) id (s.plus id n) = .yes
  ascending : ∀ id i j, i < j → s.engine.compare .lt (s.plus id i) (s.plus id j) = .yes

-- The rows stand in the order of their keys, no two of which are equal.
def Ascending (rows : List Row) : Prop :=
  rows.Pairwise fun a b => s.engine.compare .lt (a q.primaryKey) (b q.primaryKey) = .yes

-- The law: every row is stored once and returned in its place, or nothing is stored.
def AllOrNothing (db : Database) : Prop :=
  match q.exec s db with
  | (some shown, next) => ∃ new, List.Forall₂ s.stores q.rows new ∧ next = db.add q.table new ∧
      q.Shows s shown new
  | (none, next) => next = db

-- What is stored by the pieces, and shown piece by piece in the order of the keys where
-- it is read back: in place, if the keys of each piece ascend.
structure Inserted (db next : Database) (shown : List M) (parts : List (List Row)) : Prop where
  once : List.Forall₂ s.stores q.rows parts.flatten
  pieces : List.Forall₂ (List.Forall₂ s.stores) (q.pieces s) parts
  added : next = db.add q.table parts.flatten
  returned : s.d ≠ .mysql ∨ q.Numbered s ∨ (∀ part ∈ parts, q.Ascending s part) →
    q.Shows s shown parts.flatten
  sorted : s.d = .mysql → q.Shows s shown (parts.flatMap (s.sortBy q.primaryKey))

-- The rows go into one piece, and what the database makes of them can be decoded.
structure Single (db : Database) : Prop where
  fits : q.rows.length ≤ rowsPerChunk s.d q.rows
  decodes : ∀ next new id, s.insert db q.table q.rows = some (next, new, id) →
    ∀ row ∈ new, (q.decoded s row).isSome = true

variable {s q} {db last : Database} {list : List (List (List (String × Value)))} {shown : List M}

theorem shows_iff {rows : List Row} : rows.mapM (q.decoded s) = some shown ↔ q.Shows s shown rows := by
  induction rows generalizing shown with
  | nil =>
      rw [List.mapM_nil, Shows, List.forall₂_nil_right_iff]
      exact ⟨fun h => (Option.some.inj h).symm, fun h => h ▸ rfl⟩
  | cons row rest ih =>
      rw [List.mapM_cons, Shows, List.forall₂_cons_right_iff]
      constructor
      · intro h
        obtain ⟨m, hm, hrest⟩ := Option.bind_eq_some_iff.mp h
        obtain ⟨more, hmore, heq⟩ := Option.bind_eq_some_iff.mp hrest
        exact ⟨m, more, hm, ih.mp hmore, (Option.some.inj heq).symm⟩
      · intro ⟨m, more, hm, hmore, heq⟩
        rw [hm, ih.mpr hmore, heq]
        rfl

-- Every piece that is taken is stored once, and shown as it is returned.
theorem insertChunks_some (h : (q.insertChunks s list db).1 = some shown) :
    ∃ parts, List.Forall₂ (List.Forall₂ s.stores) list parts ∧
      (q.insertChunks s list db).2 = db.add q.table parts.flatten ∧ q.Shows s shown parts.flatten := by
  induction list generalizing db shown with
  | nil =>
      obtain rfl := Option.some.inj h
      exact ⟨[], .nil, (Database.add_nil _ _).symm, .nil⟩
  | cons chunk rest ih =>
      rw [insertChunks] at h ⊢
      cases hinsert : s.insert db q.table chunk with
      | none =>
          rw [hinsert] at h
          cases h
      | some taken =>
          obtain ⟨next, new, id⟩ := taken
          rw [hinsert] at h
          dsimp only at h ⊢
          cases hshown : new.mapM (q.decoded s) with
          | none =>
              rw [hshown] at h
              cases h
          | some first =>
              rw [hshown] at h
              obtain ⟨more, hmore, rfl⟩ := Option.map_eq_some_iff.mp h
              obtain ⟨parts, hparts, hlast, hshows⟩ := ih hmore
              obtain ⟨rfl, hstores⟩ := s.inserts _ _ _ _ _ _ hinsert
              refine ⟨new :: parts, .cons hstores hparts, ?_, ?_⟩
              · exact hlast.trans (Database.add_append _ _ _ _)
              · exact List.rel_append (shows_iff.mp hshown) hshows

theorem keys_none {chunk : List (List (String × Value))} (hne : chunk ≠ [])
    (h : ∀ given ∈ chunk, given.lookup q.primaryKey = none) : q.keys chunk = none := by
  obtain ⟨given, rest, rfl⟩ := List.exists_cons_of_ne_nil hne
  rw [keys, List.mapM_cons, h given List.mem_cons_self]
  rfl

theorem keys_some {chunk : List (List (String × Value))}
    (h : ∀ given ∈ chunk, ∃ v, given.lookup q.primaryKey = some v) :
    ∃ keys, q.keys chunk = some keys ∧ ∀ given ∈ chunk, ∀ v, given.lookup q.primaryKey = some v → v ∈ keys := by
  induction chunk with
  | nil => exact ⟨[], rfl, fun given hgiven => absurd hgiven List.not_mem_nil⟩
  | cons given rest ih =>
      obtain ⟨v, hv⟩ := h given List.mem_cons_self
      obtain ⟨keys, hkeys, hall⟩ := ih fun other hother => h other (List.mem_cons_of_mem _ hother)
      refine ⟨v :: keys, ?_, fun other hother w hw => ?_⟩
      · rw [InsertManyQuery.keys, List.mapM_cons, hv]
        rw [InsertManyQuery.keys] at hkeys
        rw [hkeys]
        rfl
      · rcases List.mem_cons.mp hother with rfl | hother
        · rw [Option.some.inj (hw.symm.trans hv)]
          exact List.mem_cons_self
        · exact List.mem_cons_of_mem _ (hall other hother w hw)

-- The rows of a piece are among those that are read back.
theorem selects_new (h : q.Supplied s ∨ q.Numbered s) {chunk : List (List (String × Value))} {next : Database}
    {new : List Row} {id : Value} (hsub : chunk ⊆ q.rows) (hne : chunk ≠ [])
    (hinsert : s.insert db q.table chunk = some (next, new, id)) :
    ∀ row ∈ new, q.selects s chunk id row = true := by
  obtain ⟨-, hstores⟩ := s.inserts _ _ _ _ _ _ hinsert
  intro row hrow
  obtain ⟨i, hi, rfl⟩ := List.mem_iff_getElem.mp hrow
  have hlength := hstores.length_eq
  rcases h with hsupplied | hnumbered
  · have hlookup : ∀ given ∈ chunk, ∃ v, given.lookup q.primaryKey = some v := by
      intro given hgiven
      obtain ⟨v, hv, _⟩ := hsupplied given (hsub hgiven)
      exact ⟨v, hv⟩
    obtain ⟨keys, hkeys, hall⟩ := keys_some hlookup
    have hin : i < chunk.length := by omega
    have hgiven := hsub (List.getElem_mem hin)
    obtain ⟨v, hv, heq⟩ := hsupplied _ hgiven
    have hsame := heq new[i] (hstores.get hin hi)
    rw [selects, hkeys]
    refine decide_eq_true ?_
    rw [Engine.isIn, Truth.any_eq_yes]
    exact ⟨_, List.mem_map_of_mem (hall _ (List.getElem_mem hin) v hv), hsame⟩
  · have hnone := keys_none (q := q) hne fun given hgiven => hnumbered.none given (hsub hgiven)
    rw [selects, hnone]
    refine decide_eq_true ?_
    rw [hnumbered.ids _ _ _ _ _ hinsert i new[i] (List.getElem?_eq_getElem hi)]
    exact hnumbered.between id i (chunk.length - 1) (by omega)

-- As many rows as were inserted, so just these, in the order of their keys.
theorem readBack_eq (h : q.Supplied s ∨ q.Numbered s) {chunk : List (List (String × Value))} {next : Database}
    {new : List Row} {id : Value} (hsub : chunk ⊆ q.rows) (hne : chunk ≠ [])
    (hinsert : s.insert db q.table chunk = some (next, new, id))
    (hlength : (q.readBack s next chunk id).length = chunk.length) :
    q.readBack s next chunk id = s.sortBy q.primaryKey new := by
  obtain ⟨rfl, hstores⟩ := s.inserts _ _ _ _ _ _ hinsert
  have hnew : new.filter (q.selects s chunk id) = new :=
    List.filter_eq_self.mpr (selects_new h hsub hne hinsert)
  have hsplit : ((db.add q.table new) q.table).filter (q.selects s chunk id) =
      (db q.table).filter (q.selects s chunk id) ++ new := by
    rw [Database.add, if_pos rfl, List.filter_append, hnew]
  rw [readBack, hsplit] at hlength ⊢
  rw [(s.sorts _ _).1.length_eq, List.length_append, hstores.length_eq] at hlength
  have hnone : (db q.table).filter (q.selects s chunk id) = [] :=
    List.length_eq_zero_iff.mp (by omega)
  rw [hnone, List.nil_append]

-- Keys that ascend are returned as they were given.
theorem sortBy_eq {rows : List Row} (h : q.Ascending s rows) : s.sortBy q.primaryKey rows = rows := by
  obtain ⟨hperm, hsorted⟩ := s.sorts q.primaryKey rows
  refine hperm.eq_of_pairwise (fun a b ha hb hab hba => ?_) hsorted (h.imp fun hlt => s.lt_asymm _ _ hlt)
  have hpairs := List.pairwise_iff_getElem.mp h
  obtain ⟨i, hi, rfl⟩ := List.mem_iff_getElem.mp (hperm.mem_iff.mp ha)
  obtain ⟨j, hj, rfl⟩ := List.mem_iff_getElem.mp hb
  rcases Nat.lt_trichotomy i j with hlt | rfl | hlt
  · exact absurd (hpairs i j hi hj hlt) hba
  · rfl
  · exact absurd (hpairs j i hj hi hlt) hab

theorem ascending_numbered (h : q.Numbered s) {chunk : List (List (String × Value))} {next : Database}
    {new : List Row} {id : Value} (hinsert : s.insert db q.table chunk = some (next, new, id)) :
    q.Ascending s new := by
  refine List.pairwise_iff_getElem.mpr fun i j hi hj hlt => ?_
  rw [h.ids _ _ _ _ _ hinsert i _ (List.getElem?_eq_getElem hi),
    h.ids _ _ _ _ _ hinsert j _ (List.getElem?_eq_getElem hj)]
  exact h.ascending id i j hlt

theorem execWithoutReturning_some (h : q.Supplied s ∨ q.Numbered s)
    (hlist : ∀ chunk ∈ list, chunk ⊆ q.rows ∧ chunk ≠ [])
    (hrun : q.execWithoutReturning s list db = some (shown, last)) :
    ∃ parts, List.Forall₂ (List.Forall₂ s.stores) list parts ∧ last = db.add q.table parts.flatten ∧
      q.Shows s shown (parts.flatMap (s.sortBy q.primaryKey)) ∧
      (q.Numbered s → ∀ part ∈ parts, q.Ascending s part) := by
  induction list generalizing db shown with
  | nil =>
      obtain ⟨rfl, rfl⟩ := Prod.mk.inj (Option.some.inj hrun)
      exact ⟨[], .nil, (Database.add_nil _ _).symm, .nil, fun _ part hpart => absurd hpart List.not_mem_nil⟩
  | cons chunk rest ih =>
      obtain ⟨⟨next, new, id⟩, hinsert, hread⟩ := Option.bind_eq_some_iff.mp hrun
      obtain ⟨first, hfirst, hmore⟩ := Option.bind_eq_some_iff.mp hread
      obtain ⟨hcount, hrest⟩ := Option.ite_none_left_eq_some.mp hmore
      obtain ⟨⟨more, final⟩, htail, heq⟩ := Option.map_eq_some_iff.mp hrest
      obtain ⟨rfl, rfl⟩ := Prod.mk.inj heq
      obtain ⟨hsub, hne⟩ := hlist chunk List.mem_cons_self
      have hshown := shows_iff.mp hfirst
      have hlength := hshown.length_eq.symm.trans (not_ne_iff.mp hcount)
      rw [readBack_eq h hsub hne hinsert hlength] at hshown
      obtain ⟨parts, hparts, hlast, hshows, hascend⟩ := ih
        (fun other hother => hlist other (List.mem_cons_of_mem _ hother)) htail
      have hfirst' : q.Numbered s → q.Ascending s new := fun hn => ascending_numbered hn hinsert
      obtain ⟨rfl, hstores⟩ := s.inserts _ _ _ _ _ _ hinsert
      refine ⟨new :: parts, .cons hstores hparts, ?_, ?_, fun hn => ?_⟩
      · rw [hlast, Database.add_append, List.flatten_cons]
      · rw [List.flatMap_cons]
        exact List.rel_append hshown hshows
      · exact List.forall_mem_cons.mpr ⟨hfirst' hn, hascend hn⟩

theorem mem_pieces {chunk : List (List (String × Value))} (h : chunk ∈ q.pieces s) :
    chunk ⊆ q.rows ∧ chunk ≠ [] := by
  have hpos : 0 < rowsPerChunk s.d q.rows := Nat.lt_of_lt_of_le Nat.one_pos (Nat.le_max_right _ _)
  refine ⟨fun given hgiven => ?_, chunk_ne_nil hpos h⟩
  rw [← flatten_insertChunks s.d q.rows]
  exact List.mem_flatten.mpr ⟨chunk, h, hgiven⟩

-- What the rows become, in pieces that are read back by their keys.
theorem inserted_mysql (h : q.Supplied s ∨ q.Numbered s) (hd : s.d = .mysql) {next : Database}
    (hrun : q.execWithoutReturning s (q.pieces s) db = some (shown, next)) :
    ∃ parts, q.Inserted s db next shown parts := by
  obtain ⟨parts, hparts, hnext, hshows, hascend⟩ :=
    execWithoutReturning_some h (fun chunk hchunk => mem_pieces hchunk) hrun
  have honce := List.rel_flatten hparts
  rw [pieces, flatten_insertChunks] at honce
  refine ⟨parts, honce, hparts, hnext, fun hor => ?_, fun _ => hshows⟩
  have hall : ∀ part ∈ parts, q.Ascending s part := by
    rcases hor with hne | hn | hall
    · exact absurd hd hne
    · exact hascend hn
    · exact hall
  have hplace : parts.flatMap (s.sortBy q.primaryKey) = parts.flatten := by
    rw [← List.flatMap_id]
    exact List.flatMap_congr fun part hpart => sortBy_eq (hall part hpart)
  rw [← hplace]
  exact hshows

theorem inserted_returning (hd : s.d ≠ .mysql) (hrun : (q.insertChunks s (q.pieces s) db).1 = some shown) :
    ∃ parts, q.Inserted s db (q.insertChunks s (q.pieces s) db).2 shown parts := by
  obtain ⟨parts, hparts, hnext, hshows⟩ := insertChunks_some hrun
  have honce := List.rel_flatten hparts
  rw [pieces, flatten_insertChunks] at honce
  exact ⟨parts, honce, hparts, hnext, fun _ => hshows, fun hmysql => absurd hmysql hd⟩

theorem exists_shows {rows : List Row} (h : ∀ row ∈ rows, (q.decoded s row).isSome = true) :
    ∃ shown, q.Shows s shown rows := by
  induction rows with
  | nil => exact ⟨[], .nil⟩
  | cons row rest ih =>
      obtain ⟨hrow, hrest⟩ := List.forall_mem_cons.mp h
      obtain ⟨m, hm⟩ := Option.isSome_iff_exists.mp hrow
      obtain ⟨more, hmore⟩ := ih hrest
      exact ⟨m :: more, .cons hm hmore⟩

theorem insertChunks_single (hne : q.rows ≠ []) (h : q.Single s db)
    (hnone : (q.insertChunks s (q.pieces s) db).1 = none) : (q.insertChunks s (q.pieces s) db).2 = db := by
  rw [pieces, chunks_single hne h.fits, insertChunks] at hnone ⊢
  cases hinsert : s.insert db q.table q.rows with
  | none => rfl
  | some taken =>
      obtain ⟨next, new, id⟩ := taken
      obtain ⟨shown, hshown⟩ := exists_shows (h.decodes _ _ _ hinsert)
      rw [hinsert] at hnone
      dsimp only at hnone
      rw [shows_iff.mpr hshown] at hnone
      simp [insertChunks] at hnone

-- What a run is: nothing, a refusal before any statement, or one of the two ways.
theorem exec_cases (s : BulkServer) (q : InsertManyQuery M) (db : Database) :
    (q.rows = [] ∧ q.exec s db = (some [], db)) ∨ q.exec s db = (none, db) ∨
    (q.rows ≠ [] ∧ s.d ≠ .mysql ∧ q.exec s db = q.insertChunks s (q.pieces s) db) ∨
    ∃ shown next, s.d = .mysql ∧ q.execWithoutReturning s (q.pieces s) db = some (shown, next) ∧
      q.exec s db = (some shown, next) := by
  unfold exec
  split
  · rename_i hempty
    exact Or.inl ⟨List.isEmpty_iff.mp hempty, rfl⟩
  · rename_i hne
    split
    · exact Or.inr (Or.inl rfl)
    · split
      · split
        · rename_i hd
          cases hrun : q.execWithoutReturning s (q.pieces s) db with
          | none => exact Or.inr (Or.inl rfl)
          | some result =>
              by_cases hcommits : s.commits result.2 = true
              · refine Or.inr (Or.inr (Or.inr ⟨result.1, result.2, hd, rfl, ?_⟩))
                simp [hcommits]
              · refine Or.inr (Or.inl ?_)
                simp [hcommits]
        · rename_i hd
          exact Or.inr (Or.inr (Or.inl ⟨fun h => hne (List.isEmpty_iff.mpr h), hd, rfl⟩))
      · exact Or.inr (Or.inl rfl)

end InsertManyQuery

-- A table of numbers under a check, over a database that takes every row as it is given.

def numberOf : Value → Int
  | .i64 i => i
  | _ => 0

instance (key : String) : DecidableRel fun a b : Row => numberOf (a key) ≤ numberOf (b key) :=
  fun _ _ => inferInstance

instance (key : String) : Std.Total fun a b : Row => numberOf (a key) ≤ numberOf (b key) :=
  ⟨fun a b => Int.le_total _ _⟩

instance (key : String) : IsTrans Row fun a b => numberOf (a key) ≤ numberOf (b key) :=
  ⟨fun _ _ _ hab hbc => Int.le_trans hab hbc⟩

theorem lt_wholeNumbers {v w : Value} (h : wholeNumbers.compare .lt v w = .yes) :
    numberOf v < numberOf w := by
  cases v with
  | i64 a =>
      cases w with
      | i64 b =>
          by_contra hnot
          have hno : wholeNumbers.compare .lt (.i64 a) (.i64 b) = .no :=
            congrArg Truth.ofBool (decide_eq_false hnot)
          rw [hno] at h
          cases h
      | _ => cases h
  | _ => cases h

def checked (d : Dialect) (check : Int → Bool) : BulkServer where
  d := d
  engine := wholeNumbers
  columns _ := ["id"]
  stores given row := row = rowOf given
  insert db table rows :=
    if rows.all fun given => check (numberOf (rowOf given "id")) then
      some (db.add table (rows.map rowOf), rows.map rowOf, .null)
    else none
  inserts db table rows db' new id h := by
    obtain ⟨-, heq⟩ := Option.ite_none_right_eq_some.mp h
    obtain ⟨rfl, hrest⟩ := Prod.mk.inj (Option.some.inj heq)
    obtain ⟨rfl, -⟩ := Prod.mk.inj hrest
    refine ⟨rfl, ?_⟩
    rw [List.forall₂_map_right_iff, List.forall₂_same]
    exact fun given _ => rfl
  plus v n := .i64 (numberOf v + n)
  sortBy key rows := rows.insertionSort fun a b => numberOf (a key) ≤ numberOf (b key)
  sorts key rows := by
    refine ⟨List.perm_insertionSort _ _, (List.pairwise_insertionSort _ _).imp fun hle hlt => ?_⟩
    exact absurd (lt_wholeNumbers hlt) (Int.not_lt.mpr hle)
  lt_asymm v w h h' := by
    have hlt := lt_wholeNumbers h
    have hgt := lt_wholeNumbers h'
    omega
  commits _ := true

def idsOf (ids : List Int) : InsertManyQuery Int where
  table := "numbers"
  columns := ["id"]
  primaryKey := "id"
  decode cells := (cells "id").map numberOf
  rows := ids.map fun i => [("id", .i64 i)]

def anyNumber : BulkServer := checked .mysql fun _ => true

theorem supplied_idsOf (ids : List Int) : (idsOf ids).Supplied anyNumber := by
  intro given hgiven
  obtain ⟨i, _, rfl⟩ := List.mem_map.mp hgiven
  refine ⟨.i64 i, rfl, fun row hrow => ?_⟩
  rw [show row = rowOf [("id", Value.i64 i)] from hrow]
  simp [anyNumber, checked, wholeNumbers, rowOf, idsOf, Truth.ofBool]

theorem insertChunks_refused {s : BulkServer} {q : InsertManyQuery Int} {db next : Database}
    {first second : List (List (String × Value))} {new : List Row} {id : Value} {shown : List Int}
    (hfirst : s.insert db q.table first = some (next, new, id)) (hshown : q.Shows s shown new)
    (hsecond : s.insert next q.table second = none) : q.insertChunks s [first, second] db = (none, next) := by
  rw [InsertManyQuery.insertChunks, hfirst]
  dsimp only
  rw [InsertManyQuery.shows_iff.mpr hshown, InsertManyQuery.insertChunks, hsecond]
  rfl

theorem shows_idsOf (d : Dialect) (check : Int → Bool) (all ids : List Int) :
    (idsOf all).Shows (checked d check) ids ((idsOf ids).rows.map rowOf) := by
  unfold idsOf
  rw [List.map_map, InsertManyQuery.Shows, List.forall₂_map_right_iff, List.forall₂_same]
  exact fun i _ => rfl

-- What comes before the piece that is refused stays.
theorem exec_refused {check : Int → Bool} {ids : List Int} {last : Int} (hlength : ids.length = 32766)
    (hgood : ∀ i ∈ ids, check i = true) (hbad : check last = false) (db : Database) :
    (idsOf (ids ++ [last])).exec (checked .sqlite check) db =
      (none, db.add "numbers" ((idsOf ids).rows.map rowOf)) := by
  have hrows : (idsOf (ids ++ [last])).rows = (idsOf ids).rows ++ (idsOf [last]).rows := List.map_append
  obtain ⟨i, rest, hids⟩ := List.exists_cons_of_length_pos (show 0 < ids.length by omega)
  have hhead : (idsOf (ids ++ [last])).rows.headD [] = [("id", .i64 i)] := by
    rw [hids]
    rfl
  have hsize : rowsPerChunk .sqlite (idsOf (ids ++ [last])).rows = 32766 := by
    rw [rowsPerChunk, hhead]
    simp [maxQueryParams]
  have hshape : ((idsOf (ids ++ [last])).rows.any List.isEmpty ||
      !sameShape (idsOf (ids ++ [last])).rows) = false := by
    rw [sameShape, hhead, Bool.or_eq_false_iff, Bool.not_eq_false', List.any_eq_false, List.all_eq_true]
    unfold idsOf
    constructor
    · intro given hgiven
      obtain ⟨j, _, rfl⟩ := List.mem_map.mp hgiven
      exact Bool.false_ne_true
    · intro given hgiven
      obtain ⟨j, _, rfl⟩ := List.mem_map.mp hgiven
      rfl
  have hpieces : (idsOf (ids ++ [last])).pieces (checked .sqlite check) =
      [(idsOf ids).rows, (idsOf [last]).rows] := by
    rw [InsertManyQuery.pieces, show (checked .sqlite check).d = .sqlite from rfl, hsize, hrows]
    refine chunks_pair (by omega) ?_ (by simp [idsOf]) (by simp [idsOf])
    rw [show (idsOf ids).rows = ids.map fun i => [("id", Value.i64 i)] from rfl, List.length_map, hlength]
  have hall : ((idsOf ids).rows.all fun given => check (numberOf (rowOf given "id"))) = true := by
    rw [List.all_eq_true]
    intro given hgiven
    obtain ⟨j, hj, rfl⟩ := List.mem_map.mp hgiven
    exact hgood j hj
  have hfirst : (checked .sqlite check).insert db "numbers" (idsOf ids).rows =
      some (db.add "numbers" ((idsOf ids).rows.map rowOf), (idsOf ids).rows.map rowOf, .null) :=
    if_pos hall
  have hsecond : ∀ next, (checked .sqlite check).insert next "numbers" (idsOf [last]).rows = none := by
    intro next
    refine if_neg ?_
    show ¬ (check last && true) = true
    rw [hbad]
    exact Bool.false_ne_true
  have hempty : (idsOf (ids ++ [last])).rows.isEmpty = false := by
    rw [hrows, List.isEmpty_eq_false_iff]
    simp [idsOf]
  unfold InsertManyQuery.exec
  rw [hempty, hshape, hpieces]
  exact insertChunks_refused hfirst (shows_idsOf _ _ _ _) (hsecond _)

theorem not_allOrNothing {check : Int → Bool} {ids : List Int} {last : Int} (hlength : ids.length = 32766)
    (hgood : ∀ i ∈ ids, check i = true) (hbad : check last = false) (db : Database) :
    ¬ (idsOf (ids ++ [last])).AllOrNothing (checked .sqlite check) db := by
  intro h
  rw [InsertManyQuery.AllOrNothing, exec_refused hlength hgood hbad db] at h
  have hrows := congrArg List.length (congrFun h "numbers")
  rw [Database.add, if_pos rfl, List.length_append, List.length_map, idsOf, List.length_map] at hrows
  omega

end Ruprizzle.Runtime
