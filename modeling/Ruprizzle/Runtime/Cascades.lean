import Ruprizzle.Runtime.NestedUpdates

namespace Ruprizzle.Runtime

open Tables

-- Deletes that take care of child rows first, in one transaction.

variable {S : Type}

def Database.set (db : Database) (table : String) (rows : List Row) : Database := fun t =>
  if t = table then rows else db t

def Row.nulled (column : String) (row : Row) : Row := fun c => if c = column then .null else row c

-- What a database does with the statements: it may refuse one, or else it takes out the
-- rows of the condition, or puts NULL into a column of them, and leaves all else alone.
structure DeleteServer (S : Type) where
  d : Dialect
  engine : Engine
  reading : S → List Word
  delete : Database → String → (Row → Bool) → Option (Database × Nat)
  deletes : ∀ db table chosen next n, delete db table chosen = some (next, n) →
    next = db.set table ((db table).filter fun row => !chosen row)
  setNull : Database → String → (Row → Bool) → String → Option (Database × Nat)
  setsNull : ∀ db table chosen column next n, setNull db table chosen column = some (next, n) →
    next = db.set table (updateWhere chosen (Row.nulled column) (db table))
  commits : Database → Bool

structure DeleteCascade where
  childTable : String
  childFkCol : String
  action : ReferentialAction

structure DeleteQuery (S : Type) where
  model : Model
  filter : FilterNode S
  allRows : Bool
  cascade : List DeleteCascade

-- The child refers to one of the keys.
def DeleteCascade.refers (engine : Engine) (c : DeleteCascade) (keys : List Value) (row : Row) : Bool :=
  engine.isIn (row c.childFkCol) keys = .yes

namespace DeleteQuery

variable (s : DeleteServer S) (q : DeleteQuery S)

-- The keys of the parents, by a select that has its own scope.
def parentSelect : SelectQuery S where
  model := q.model
  filter := Filter.and (.and []) q.filter
  projection := [q.model.primaryKey]
  order := []
  limit := none
  offset := none
  distinct := false
  ctes := []
  join := none
  withDeleted := false
  onlyDeleted := false

def parentKeys (db : Database) : List Value :=
  (q.parentSelect.rows s.engine db s.d s.reading).filterMap fun c => c.1.map fun row => row q.model.primaryKey

def hit (db : Database) (c : DeleteCascade) (row : Row) : Bool := c.refers s.engine (q.parentKeys s db) row

def executeDelete (db : Database) (c : DeleteCascade) : Option (Database × Nat) :=
  match c.action with
  | .noAction => some (db, 0)
  | .cascade => s.delete db c.childTable (q.hit s db c)
  | .setNull => s.setNull db c.childTable (q.hit s db c) c.childFkCol
  | .restrict => if (db c.childTable).any (q.hit s db c) then none else some (db, 0)
  | .setDefault => none

def runCascades : List DeleteCascade → Database → Option (Database × Nat)
  | [], db => some (db, 0)
  | c :: rest, db =>
      (q.executeDelete s db c).bind fun (next, n) =>
        (runCascades rest next).map fun (last, more) => (last, n + more)

def matches_ (db : Database) (row : Row) : Bool :=
  s.engine.keeps db s.d s.reading (q.model.env row) q.filter

def runDelete (db : Database) : Option (Database × Nat) := s.delete db q.model.table (q.matches_ s db)

def inTx (db : Database) : Option (Database × Nat) :=
  (q.runCascades s q.cascade db).bind fun (last, total) =>
    (q.runDelete s last).map fun (next, n) => (next, total + n)

def exec (db : Database) : Option Nat × Database :=
  if !q.allRows && q.filter.isTrivial then (none, db)
  else if q.cascade.isEmpty then
    match q.runDelete s db with
    | some (next, n) => (some n, next)
    | none => (none, db)
  else match q.inTx s db with
    | some (next, total) => if s.commits next then (some total, next) else (none, db)
    | none => (none, db)

-- The keys of the rows that the DELETE takes out of these tables.
def doomedKeys (db : Database) : List Value :=
  (tableRows s.engine db s.d s.reading q.model q.filter).map fun row => row q.model.primaryKey

-- What a cascade does to the children of just these keys.
def Affects (keys : List Value) (c : DeleteCascade) (db next : Database) : Prop :=
  match c.action with
  | .noAction => next = db
  | .cascade => next = db.set c.childTable ((db c.childTable).filter fun row => !c.refers s.engine keys row)
  | .setNull => next = db.set c.childTable
      (updateWhere (c.refers s.engine keys) (Row.nulled c.childFkCol) (db c.childTable))
  | .restrict => next = db ∧ ∀ row ∈ db c.childTable, c.refers s.engine keys row = false
  | .setDefault => False

def Affect (keys : List Value) : List DeleteCascade → Database → Prop
  | [], _ => True
  | c :: rest, db => ∀ next n, q.executeDelete s db c = some (next, n) →
      Affects s keys c db next ∧ Affect keys rest next

-- The law: the children that are touched are those of the rows that the DELETE then takes
-- out, a restrict fails for a child of such a row only, and an error leaves all as it was.
structure Covers (db : Database) : Prop where
  affected : ∀ last n, q.runCascades s q.cascade db = some (last, n) →
    q.Affect s (q.doomedKeys s last) q.cascade db
  restricted : ∀ before c after, q.cascade = before ++ c :: after → c.action = .restrict →
    ∀ mid n, q.runCascades s before db = some (mid, n) → q.executeDelete s mid c = none →
      ∃ row ∈ mid c.childTable, c.refers s.engine (q.doomedKeys s mid) row = true
  unchanged : (q.exec s db).1 = none → (q.exec s db).2 = db

-- A row that the select of the keys finds.
def live (db : Database) (row : Row) : Bool :=
  s.engine.keeps db s.d s.reading (q.model.env row) q.parentSelect.effectiveFilter

def IsChild (c : DeleteCascade) (child parent : Row) : Prop :=
  s.engine.compare .eq (child c.childFkCol) (parent q.model.primaryKey) = .yes

-- The rows that the select finds before a cascade have the children that the rows have
-- that the filter finds after all of them.
def SameChildren (last mid : Database) (c : DeleteCascade) : Prop :=
  ∀ child ∈ mid c.childTable,
    (∃ parent ∈ mid q.model.table, q.live s mid parent = true ∧ q.IsChild s c child parent) ↔
      ∃ parent ∈ last q.model.table, q.matches_ s last parent = true ∧ q.IsChild s c child parent

def Agree (last : Database) : List DeleteCascade → Database → Prop
  | [], _ => True
  | c :: rest, db =>
      (c.action ≠ .noAction → q.SameChildren s last db c) ∧
        ∀ next n, q.executeDelete s db c = some (next, n) → Agree last rest next

structure Settled (db : Database) : Prop where
  agreed : ∀ last n, q.runCascades s q.cascade db = some (last, n) → q.Agree s last q.cascade db
  restricted : ∀ before c after, q.cascade = before ++ c :: after → c.action = .restrict →
    ∀ mid n, q.runCascades s before db = some (mid, n) →
      (∃ child ∈ mid c.childTable, ∃ parent ∈ mid q.model.table,
        q.live s mid parent = true ∧ q.IsChild s c child parent) →
      ∃ child ∈ mid c.childTable, ∃ parent ∈ mid q.model.table,
        q.matches_ s mid parent = true ∧ q.IsChild s c child parent

variable {s q} {db next last mid : Database} {c : DeleteCascade} {n : Nat}

theorem exec_unchanged (h : (q.exec s db).1 = none) : (q.exec s db).2 = db := by
  unfold exec at h ⊢
  by_cases hfiltered : (!q.allRows && q.filter.isTrivial) = true
  · rw [if_pos hfiltered]
  · rw [if_neg hfiltered] at h ⊢
    by_cases hcascade : q.cascade.isEmpty = true
    · rw [if_pos hcascade] at h ⊢
      cases hrun : q.runDelete s db with
      | none => rfl
      | some state =>
          rw [hrun] at h
          cases h
    · rw [if_neg hcascade] at h ⊢
      cases hrun : q.inTx s db with
      | none => rfl
      | some state =>
          rw [hrun] at h
          dsimp only at h ⊢
          by_cases hcommits : s.commits state.1 = true
          · rw [if_pos hcommits] at h
            cases h
          · rw [if_neg hcommits]

theorem parentKeys_eq (db : Database) :
    q.parentKeys s db = ((db q.model.table).filter (q.live s db)).map fun row => row q.model.primaryKey := by
  unfold parentKeys SelectQuery.rows SelectQuery.joined
  show (((db q.model.table).map fun row => ((some row, none) : Combination)).filter _).filterMap _ = _
  rw [List.filter_map, List.filterMap_map, ← List.filterMap_eq_map]
  rfl

theorem refers_keys {p : Row → Bool} {rows : List Row} {child : Row} :
    c.refers s.engine ((rows.filter p).map fun row => row q.model.primaryKey) child = true ↔
      ∃ parent ∈ rows, p parent = true ∧ q.IsChild s c child parent := by
  rw [DeleteCascade.refers, decide_eq_true_iff, Engine.isIn, Truth.any_eq_yes, List.map_map]
  constructor
  · rintro ⟨t, ht, hyes⟩
    obtain ⟨parent, hparent, rfl⟩ := List.mem_map.mp ht
    exact ⟨parent, (List.mem_filter.mp hparent).1, (List.mem_filter.mp hparent).2, hyes⟩
  · rintro ⟨parent, hparent, hp, hchild⟩
    exact ⟨_, List.mem_map.mpr ⟨parent, List.mem_filter.mpr ⟨hparent, hp⟩, rfl⟩, hchild⟩

theorem hit_iff {child : Row} : q.hit s db c child = true ↔
    ∃ parent ∈ db q.model.table, q.live s db parent = true ∧ q.IsChild s c child parent := by
  rw [hit, parentKeys_eq]
  exact refers_keys

theorem refers_doomed {child : Row} : c.refers s.engine (q.doomedKeys s db) child = true ↔
    ∃ parent ∈ db q.model.table, q.matches_ s db parent = true ∧ q.IsChild s c child parent :=
  refers_keys

theorem sameChildren_iff : q.SameChildren s last mid c ↔
    ∀ child ∈ mid c.childTable, q.hit s mid c child = c.refers s.engine (q.doomedKeys s last) child := by
  refine forall₂_congr fun child _ => ?_
  rw [Bool.eq_iff_iff, hit_iff, refers_doomed]

-- A child that refers to any key loses its reference when that becomes NULL.
theorem nulled_ne {keys : List Value} {row : Row} (h : c.refers s.engine keys row = true) :
    Row.nulled c.childFkCol row ≠ row := by
  intro heq
  have hnull : row c.childFkCol = .null := by
    rw [← congrFun heq c.childFkCol]
    exact if_pos rfl
  rw [DeleteCascade.refers, decide_eq_true_iff, Engine.isIn, Truth.any_eq_yes] at h
  obtain ⟨t, ht, rfl⟩ := h
  obtain ⟨key, _, hkey⟩ := List.mem_map.mp ht
  rw [hnull, s.engine.null_compare] at hkey
  cases hkey

theorem set_inj {table : String} {rows rows' : List Row} :
    db.set table rows = db.set table rows' ↔ rows = rows' := by
  refine ⟨fun h => ?_, fun h => by rw [h]⟩
  have htable := congrFun h table
  rwa [Database.set, Database.set, if_pos rfl, if_pos rfl] at htable

-- One cascade does what it should for some keys just where it finds the children of those.
theorem affects_iff {keys : List Value} (h : q.executeDelete s db c = some (next, n)) :
    Affects s keys c db next ↔
      (c.action ≠ .noAction →
        ∀ child ∈ db c.childTable, q.hit s db c child = c.refers s.engine keys child) := by
  unfold executeDelete at h
  unfold Affects
  cases haction : c.action with
  | noAction =>
      rw [haction] at h
      simp only [Option.some.injEq, Prod.mk.injEq] at h
      simp [h.1]
  | cascade =>
      rw [haction] at h
      dsimp only
      rw [s.deletes _ _ _ _ _ h, forall_prop_of_true (by decide), set_inj, filter_inj]
  | setNull =>
      rw [haction] at h
      dsimp only
      rw [s.setsNull _ _ _ _ _ _ h, forall_prop_of_true (by decide), set_inj]
      refine updateWhere_inj fun row hrow => ?_
      rcases hrow with hrow | hrow
      · exact nulled_ne hrow
      · exact nulled_ne hrow
  | restrict =>
      rw [haction] at h
      obtain ⟨hnone, heq⟩ := Option.ite_none_left_eq_some.mp h
      have hmiss : ∀ child ∈ db c.childTable, q.hit s db c child = false := by simpa using hnone
      rw [forall_prop_of_true (by decide), and_iff_right (Prod.mk.inj (Option.some.inj heq)).1.symm]
      refine forall₂_congr fun child hchild => ?_
      rw [hmiss child hchild, eq_comm]
  | setDefault =>
      rw [haction] at h
      cases h

theorem affect_iff {cs : List DeleteCascade} (h : q.runCascades s cs db = some (mid, n)) :
    q.Affect s (q.doomedKeys s last) cs db ↔ q.Agree s last cs db := by
  induction cs generalizing db n with
  | nil => exact Iff.rfl
  | cons c rest ih =>
      obtain ⟨⟨next, m⟩, hstep, hrest⟩ := Option.bind_eq_some_iff.mp h
      obtain ⟨⟨end_, k⟩, hrun, heq⟩ := Option.map_eq_some_iff.mp hrest
      rw [(Prod.mk.inj heq).1] at hrun
      have hone : ∀ next' m', q.executeDelete s db c = some (next', m') → next' = next := by
        intro next' m' hstep'
        exact (Prod.mk.inj (Option.some.inj (hstep'.symm.trans hstep))).1
      constructor
      · intro hall
        obtain ⟨haffects, hlater⟩ := hall next m hstep
        refine ⟨fun haction => ?_, fun next' m' hstep' => ?_⟩
        · exact sameChildren_iff.mpr ((affects_iff hstep).mp haffects haction)
        · rw [hone next' m' hstep']
          exact (ih hrun).mp hlater
      · intro ⟨hsame, hlater⟩ next' m' hstep'
        refine ⟨(affects_iff hstep').mpr fun haction => sameChildren_iff.mp (hsame haction), ?_⟩
        rw [hone next' m' hstep']
        exact (ih hrun).mpr (hlater next m hstep)

-- A restrict refuses where there is a child of a row that the select finds.
theorem restrict_refuses (haction : c.action = .restrict) : q.executeDelete s db c = none ↔
    ∃ child ∈ db c.childTable, ∃ parent ∈ db q.model.table,
      q.live s db parent = true ∧ q.IsChild s c child parent := by
  unfold executeDelete
  rw [haction]
  have hany : ((db c.childTable).any (q.hit s db c) = true) ↔
      ∃ child ∈ db c.childTable, ∃ parent ∈ db q.model.table,
        q.live s db parent = true ∧ q.IsChild s c child parent := by
    rw [List.any_eq_true]
    exact exists_congr fun child => and_congr_right fun _ => hit_iff
  rw [← hany]
  by_cases hhit : (db c.childTable).any (q.hit s db c) = true
  · simp [hhit]
  · simp [hhit]

-- A cascade leaves every table but that of the children alone.
theorem executeDelete_frame (h : q.executeDelete s db c = some (next, n)) {table : String}
    (htable : table ≠ c.childTable) : next table = db table := by
  unfold executeDelete at h
  cases haction : c.action with
  | noAction =>
      rw [haction] at h
      rw [(Prod.mk.inj (Option.some.inj h)).1]
  | cascade =>
      rw [haction] at h
      rw [s.deletes _ _ _ _ _ h]
      exact if_neg htable
  | setNull =>
      rw [haction] at h
      rw [s.setsNull _ _ _ _ _ _ h]
      exact if_neg htable
  | restrict =>
      rw [haction] at h
      obtain ⟨_, heq⟩ := Option.ite_none_left_eq_some.mp h
      rw [(Prod.mk.inj (Option.some.inj heq)).1]
  | setDefault =>
      rw [haction] at h
      cases h

theorem runCascades_frame {cs : List DeleteCascade} (h : q.runCascades s cs db = some (next, n))
    {table : String} (htable : ∀ c ∈ cs, table ≠ c.childTable) : next table = db table := by
  induction cs generalizing db n with
  | nil => rw [(Prod.mk.inj (Option.some.inj h)).1]
  | cons c rest ih =>
      obtain ⟨⟨mid, m⟩, hstep, hrest⟩ := Option.bind_eq_some_iff.mp h
      obtain ⟨⟨last, k⟩, hrun, heq⟩ := Option.map_eq_some_iff.mp hrest
      rw [(Prod.mk.inj heq).1] at hrun
      rw [ih hrun fun c' hc' => htable c' (List.mem_cons_of_mem _ hc'),
        executeDelete_frame hstep (htable c List.mem_cons_self)]

-- Only tables of children have changed.
def Apart (db db' : Database) : Prop :=
  ∀ table, (∀ c ∈ q.cascade, table ≠ c.childTable) → db' table = db table

-- Where no row that the filter finds is soft-deleted, and the tables of the children are
-- neither that of the parents nor any that the filter looks at, the deletes are right.
theorem settled_of_apart (hlive : ∀ row ∈ db q.model.table, q.live s db row = q.matches_ s db row)
    (hchild : ∀ c ∈ q.cascade, q.model.table ≠ c.childTable)
    (hblind : ∀ db', q.Apart db db' → ∀ row,
      q.live s db' row = q.live s db row ∧ q.matches_ s db' row = q.matches_ s db row) : q.Settled s db := by
  -- At any two moments the select and the filter find the same rows.
  have hsame : ∀ mid last, q.Apart db mid → q.Apart db last → ∀ (c : DeleteCascade) (child : Row),
      (∃ parent ∈ mid q.model.table, q.live s mid parent = true ∧ q.IsChild s c child parent) ↔
        ∃ parent ∈ last q.model.table, q.matches_ s last parent = true ∧ q.IsChild s c child parent := by
    intro mid last hmid hlast c child
    rw [hmid _ hchild, hlast _ hchild]
    refine exists_congr fun parent => and_congr_right fun hparent => ?_
    rw [(hblind mid hmid parent).1, (hblind last hlast parent).2, hlive parent hparent]
  have hapart : ∀ cs mid n, cs ⊆ q.cascade → q.runCascades s cs db = some (mid, n) → q.Apart db mid :=
    fun cs mid n hcs hrun table htable => runCascades_frame hrun fun c hc => htable c (hcs hc)
  constructor
  · intro last n hrun
    have hlast := hapart _ last n (List.Subset.refl _) hrun
    have hagree : ∀ cs mid, cs ⊆ q.cascade → q.Apart db mid → q.Agree s last cs mid := by
      intro cs
      induction cs with
      | nil => exact fun _ _ _ => trivial
      | cons c rest ih =>
          intro mid hcs hmid
          have hc : c ∈ q.cascade := hcs List.mem_cons_self
          refine ⟨fun _ child _ => hsame mid last hmid hlast c child, fun next m hstep => ?_⟩
          refine ih next (fun c' hc' => hcs (List.mem_cons_of_mem _ hc')) fun table htable => ?_
          rw [executeDelete_frame hstep (htable c hc), hmid table htable]
    exact hagree _ _ (List.Subset.refl _) fun _ _ => rfl
  · intro before c after hcascade _ mid n hmid hfound
    have hbefore : before ⊆ q.cascade := by
      rw [hcascade]
      exact List.subset_append_left _ _
    have hone := hapart before mid n hbefore hmid
    obtain ⟨child, hmem, hparent⟩ := hfound
    exact ⟨child, hmem, (hsame mid mid hone hone c child).mp hparent⟩

end DeleteQuery

-- Accounts with their posts, over a database that takes any delete.

def willingServer : DeleteServer Empty where
  d := .postgres
  engine := wholeNumbers
  reading := nofun
  delete db table chosen :=
    some (db.set table ((db table).filter fun row => !chosen row), ((db table).filter chosen).length)
  deletes _ _ _ _ _ h := (Prod.mk.inj (Option.some.inj h)).1.symm
  setNull db table chosen column :=
    some (db.set table (updateWhere chosen (Row.nulled column) (db table)), ((db table).filter chosen).length)
  setsNull _ _ _ _ _ _ h := (Prod.mk.inj (Option.some.inj h)).1.symm
  commits _ := true

def accountsWithPosts : DeleteQuery Empty where
  model := accounts
  filter := .and []
  allRows := true
  cascade := [⟨"posts", "account_id", .cascade⟩]

end Ruprizzle.Runtime
