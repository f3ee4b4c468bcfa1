import Ruprizzle.Runtime.JoinSets

namespace Ruprizzle.Runtime

open Sessions Tables

-- What lists of operations on children do to the set of the children of a parent.

variable {S C : Type}

namespace NestedRelWrite

section

variable (s : WriteServer S) (w : NestedRelWrite S) (pk : ParentKey s.engine)

-- The children that a filter finds.
def matching (f : FilterNode S) (db : Database) : Set Row :=
  {row | s.kept db w.childTable f row = true}

-- One more child, with the given values.
def Adds (c : NestedCreate) (db next : Database) : Prop :=
  ∃ child : Row, Carries c.values child ∧ child ∈ w.linkedRows s.toDbms pk ∧
    next = db.add w.childTable [child]

-- What a filter finds becomes a child, or else a new row does.
def Obtains (item : NestedConnectOrCreate S) (db next : Database) : Prop :=
  if s.found db w.childTable item.filter = [] then w.Adds s pk item.create db next
  else w.Becomes s.toDbms pk (w.linkedRows s.toDbms pk ∪ w.matching s item.filter db)
    (w.matching s item.filter db) db next

def Removes (gone : Set Row) (db next : Database) : Prop :=
  ∃ p : Row → Bool, (∀ row, p row = true ↔ row ∈ gone) ∧
    next = db.set w.childTable ((db w.childTable).filter fun row => !p row)

-- What an operation is for, on the set of the children.
def Right : RelNestedOp S → Database → Database → Prop
  | .create creates => Performs (w.Adds s pk) creates
  | .connect pks => w.Becomes s.toDbms pk (w.linkedRows s.toDbms pk ∪ w.namedRows s.toDbms pks)
      (w.namedRows s.toDbms pks)
  | .connectOrCreate items => Performs (w.Obtains s pk) items
  | .disconnect pks => w.Becomes s.toDbms pk (w.linkedRows s.toDbms pk \ w.namedRows s.toDbms pks)
      (w.linkedRows s.toDbms pk ∩ w.namedRows s.toDbms pks)
  | .set pks => w.Becomes s.toDbms pk (w.namedRows s.toDbms pks)
      (w.linkedRows s.toDbms pk ∪ w.namedRows s.toDbms pks)
  | .delete pks => w.Removes (w.linkedRows s.toDbms pk ∩ w.namedRows s.toDbms pks)

def obtaining (item : NestedConnectOrCreate S) (db : Database) : WriteStatement S :=
  if s.found db w.childTable item.filter = [] then w.create pk.value item.create.values
  else .update w.childTable w.childFkCol pk.value item.filter

-- The values name no column twice, nor the foreign key, and are allowed.
def AddReady (c : NestedCreate) (db : Database) : Prop :=
  (c.values.map Prod.fst ++ [w.childFkCol]).Nodup ∧ s.Fits (c.values.length + 1) ∧
    s.allowed (s.effect (w.create pk.value c.values) db)

-- The filter is a condition of the dialect.
def ObtainReady (item : NestedConnectOrCreate S) (db : Database) : Prop :=
  s.Conditional item.filter ∧ s.Fits (filterBinds s.size s.d item.filter) ∧
    if s.found db w.childTable item.filter = [] then w.AddReady s pk item.create db
    else s.Fits (1 + filterBinds s.size s.d item.filter) ∧
      s.allowed (s.effect (.update w.childTable w.childFkCol pk.value item.filter) db)

-- A statement for some keys, that have room in it.
def SomeReady (st : WriteStatement S) (pks : List Value) (n : Nat) (db : Database) : Prop :=
  pks ≠ [] → s.Fits (n + pks.length) ∧ s.allowed (s.effect st db)

def someAfter (st : WriteStatement S) (pks : List Value) (db : Database) : Database :=
  if pks = [] then db else s.effect st db

def OpReady : RelNestedOp S → Database → Prop
  | .create creates => Sessions.Ready (w.AddReady s pk) (fun c => s.effect (w.create pk.value c.values)) creates
  | .connect pks => SomeReady s (w.connect pk.value pks) pks 1
  | .connectOrCreate items =>
      Sessions.Ready (w.ObtainReady s pk) (fun item db => s.effect (w.obtaining s pk item db) db) items
  | .disconnect pks => SomeReady s (w.disconnect pk.value pks) pks 2
  | .set pks => fun db => s.allowed (s.effect (w.disconnectAll pk.value) db) ∧
      SomeReady s (w.connect pk.value pks) pks 1 (s.effect (w.disconnectAll pk.value) db)
  | .delete pks => SomeReady s (w.delete pk.value pks) pks 1

def opAfter : RelNestedOp S → Database → Database
  | .create creates => afterAll (fun c => s.effect (w.create pk.value c.values)) creates
  | .connect pks => someAfter s (w.connect pk.value pks) pks
  | .connectOrCreate items => afterAll (fun item db => s.effect (w.obtaining s pk item db) db) items
  | .disconnect pks => someAfter s (w.disconnect pk.value pks) pks
  | .set pks => fun db => someAfter s (w.connect pk.value pks) pks (s.effect (w.disconnectAll pk.value) db)
  | .delete pks => someAfter s (w.delete pk.value pks) pks

end

variable {s : WriteServer S} {w : NestedRelWrite S} {pk : ParentKey s.engine} {db : Database}

theorem acts_run (st : WriteStatement S) :
    Acts s.server (run s st) (fun db => s.server.legal st ∧ s.server.accepts st db) (s.server.effect st) :=
  (acts_issue s.server st).andDone fun _ => ()

theorem takes_create {values : List (String × Value)} :
    s.server.legal (w.create pk.value values) ∧ s.server.accepts (w.create pk.value values) db ↔
      (values.map Prod.fst ++ [w.childFkCol]).Nodup ∧ s.Fits (values.length + 1) ∧
        s.allowed (s.effect (w.create pk.value values) db) := by
  show (_ ≠ [] ∧ (∀ row ∈ [values ++ [(w.childFkCol, pk.value)]], (row.map Prod.fst).Nodup) ∧
    s.Fits [values ++ [(w.childFkCol, pk.value)]].flatten.length) ∧ _ ↔ _
  rw [List.forall_mem_singleton, List.map_append, List.flatten_cons, List.flatten_nil, List.append_nil,
    List.length_append, and_iff_right (List.cons_ne_nil _ _), and_assoc]
  rfl

theorem acts_createOne (c : NestedCreate) :
    Acts s.server (w.createOne s pk.value c) (w.AddReady s pk c) (s.effect (w.create pk.value c.values)) :=
  (acts_run _).congr (fun _ => takes_create) fun _ _ => rfl

theorem adds_of_ready {c : NestedCreate} (h : w.AddReady s pk c db) :
    w.Adds s pk c db (s.effect (w.create pk.value c.values) db) := by
  have hcarries := s.stores db w.childTable [c.values ++ [(w.childFkCol, pk.value)]] (by
    rw [List.forall_mem_singleton, List.map_append]
    exact h.1)
  obtain ⟨child, rest, hchild, hrest, hnew⟩ := List.forall₂_cons_left_iff.mp hcarries
  obtain rfl := List.forall₂_nil_left_iff.mp hrest
  refine ⟨child, fun column v hmem => hchild column v (List.mem_append_left _ hmem), ?_, ?_⟩
  · show s.engine.compare .eq (child w.childFkCol) pk.value = .yes
    rw [hchild w.childFkCol pk.value (List.mem_append_right _ List.mem_cons_self)]
    exact pk.same
  · rw [← hnew]
    rfl

theorem acts_connectOrCreateOne (item : NestedConnectOrCreate S) :
    Acts s.server (w.connectOrCreateOne s pk.value item) (w.ObtainReady s pk item)
      (fun db => s.effect (w.obtaining s pk item db) db) := by
  intro db goal
  have hselect : s.server.legal (.select w.childTable [w.childPkCol] item.filter (some 1)) ∧
      s.server.accepts (.select w.childTable [w.childPkCol] item.filter (some 1)) db ↔
        s.Conditional item.filter ∧ s.Fits (filterBinds s.size s.d item.filter) :=
    and_iff_left trivial
  have hbranch : ∀ answer : Answer,
      s.Answers (.select w.childTable [w.childPkCol] item.filter (some 1)) db answer →
      (answer.2.isEmpty = true ↔ s.found db w.childTable item.filter = []) := by
    intro answer hanswer
    obtain ⟨rows, hperm, heq⟩ := hanswer
    rw [List.isEmpty_iff, heq, List.take_eq_nil_iff, or_iff_right (Nat.one_ne_zero), ← List.perm_nil,
      ← List.perm_nil]
    exact ⟨fun h => hperm.symm.trans h, fun h => hperm.trans h⟩
  have hfound : ∀ answer : Answer,
      s.Answers (.select w.childTable [w.childPkCol] item.filter (some 1)) db answer →
      (Ensures s.server (if !answer.2.isEmpty then
          run s (.update w.childTable w.childFkCol pk.value item.filter) db
        else w.createOne s pk.value item.create db) goal ↔
        (if s.found db w.childTable item.filter = [] then w.AddReady s pk item.create db
          else (s.Conditional item.filter ∧ s.Fits (1 + filterBinds s.size s.d item.filter)) ∧
            s.allowed (s.effect (.update w.childTable w.childFkCol pk.value item.filter) db)) ∧
        goal (s.effect (w.obtaining s pk item db) db)) := by
    intro answer hanswer
    by_cases hnone : s.found db w.childTable item.filter = []
    · rw [(hbranch answer hanswer).mpr hnone, if_pos hnone, obtaining, if_pos hnone]
      exact acts_createOne item.create db goal
    · have hsome : answer.2.isEmpty = false := by
        rw [Bool.eq_false_iff]
        exact fun hempty => hnone ((hbranch answer hanswer).mp hempty)
      rw [hsome, if_neg hnone, obtaining, if_neg hnone]
      exact acts_run _ db goal
  rw [connectOrCreateOne, ensures_issue, hselect]
  unfold ObtainReady
  constructor
  · intro ⟨⟨hcondition, hfits⟩, answer, _, hanswer, hensures⟩
    obtain ⟨hready, hgoal⟩ := (hfound answer hanswer).mp hensures
    refine ⟨⟨hcondition, hfits, ?_⟩, hgoal⟩
    by_cases hnone : s.found db w.childTable item.filter = []
    · rw [if_pos hnone] at hready ⊢
      exact hready
    · rw [if_neg hnone] at hready ⊢
      exact ⟨hready.1.2, hready.2⟩
  · intro ⟨⟨hcondition, hfits, hready⟩, hgoal⟩
    have hlegal : s.Legal (.select w.childTable [w.childPkCol] item.filter (some 1)) := ⟨hcondition, hfits⟩
    obtain ⟨answer, hexecute⟩ := s.accepted _ db hlegal trivial
    obtain ⟨-, -, hanswer⟩ := s.executes _ _ _ _ hlegal hexecute
    refine ⟨⟨hcondition, hfits⟩, answer, hexecute, hanswer, (hfound answer hanswer).mpr ⟨?_, hgoal⟩⟩
    by_cases hnone : s.found db w.childTable item.filter = []
    · rw [if_pos hnone] at hready ⊢
      exact hready
    · rw [if_neg hnone] at hready ⊢
      exact ⟨⟨hcondition, hready.1⟩, hready.2⟩

theorem obtains_of_ready {item : NestedConnectOrCreate S} (h : w.ObtainReady s pk item db) :
    w.Obtains s pk item db (s.effect (w.obtaining s pk item db) db) := by
  unfold Obtains obtaining
  by_cases hnone : s.found db w.childTable item.filter = []
  · rw [if_pos hnone, if_pos hnone]
    have hready := h.2.2
    rw [if_pos hnone] at hready
    exact adds_of_ready hready
  · rw [if_neg hnone, if_neg hnone]
    refine relinks_update (fun row _ => Iff.rfl) (fun row _ hin => ?_) fun row _ hout => ?_
    · exact iff_of_true (ChildColumns.put_linked row) (Or.inr hin)
    · exact (or_iff_left hout).symm

theorem acts_runSome {st : WriteStatement S} {pks : List Value} {n : Nat}
    (hlegal : s.Legal st ↔ (pks = [] → s.d = .sqlite) ∧ s.Fits (n + pks.length))
    (haccepts : ∀ db, s.Accepts st db ↔ s.allowed (s.effect st db)) :
    Acts s.server (runSome s st pks) (SomeReady s st pks n) (someAfter s st pks) := by
  unfold runSome SomeReady someAfter
  by_cases hsome : pks = []
  · rw [hsome]
    exact (acts_done _).congr (fun db => ⟨fun _ hne => absurd rfl hne, fun _ => trivial⟩) fun _ _ => rfl
  · have hempty : pks.isEmpty = false := by simpa using hsome
    simp only [hempty, hsome, if_false, Bool.not_false, if_true]
    refine (acts_run st).congr (fun db => ?_) fun _ _ => rfl
    show s.Legal st ∧ s.Accepts st db ↔ _
    rw [hlegal, haccepts]
    constructor
    · intro ⟨⟨_, hfits⟩, hallowed⟩ _
      exact ⟨hfits, hallowed⟩
    · intro h
      exact ⟨⟨fun hnone => absurd hnone hsome, (h hsome).1⟩, (h hsome).2⟩

theorem acts_connect (pks : List Value) : Acts s.server (runSome s (w.connect pk.value pks) pks)
    (SomeReady s (w.connect pk.value pks) pks 1) (someAfter s (w.connect pk.value pks) pks) :=
  acts_runSome ChildColumns.legal_connect fun _ => Iff.rfl

theorem acts_executeOp (op : RelNestedOp S) :
    Acts s.server (w.executeOp s pk.value op) (w.OpReady s pk op) (w.opAfter s pk op) := by
  cases op with
  | create creates => exact acts_each acts_createOne creates
  | connect pks => exact acts_connect pks
  | connectOrCreate items => exact acts_each acts_connectOrCreateOne items
  | disconnect pks => exact acts_runSome ChildColumns.legal_disconnect fun _ => Iff.rfl
  | set pks =>
      refine ((acts_run (w.disconnectAll pk.value)).andThen fun _ => acts_connect pks).congr (fun db => ?_)
        fun _ _ => rfl
      rw [ChildColumns.takes_disconnectAll]
      rfl
  | delete pks => exact acts_runSome ChildColumns.legal_delete fun _ => Iff.rfl

-- One operation has its effect where it is ready.
theorem right_of_ready (hkey : ∀ db, s.allowed db → ∀ row ∈ db w.childTable, (row w.childPkCol).isNull = false)
    (op : RelNestedOp S) (db : Database) (h : w.OpReady s pk op db) :
    w.Right s pk op db (w.opAfter s pk op db) := by
  cases op with
  | create creates => exact performs_of_ready (fun _ _ hready => adds_of_ready hready) h
  | connect pks =>
      show w.Becomes s.toDbms pk _ _ db (someAfter s (w.connect pk.value pks) pks db)
      by_cases hnone : pks = []
      · rw [someAfter, if_pos hnone, hnone, ChildColumns.namedRows_nil, Set.union_empty]
        exact Relinks.refl fun _ _ => Iff.rfl
      · rw [someAfter, if_neg hnone]
        exact ChildColumns.becomes_connect fun heq => absurd heq hnone
  | connectOrCreate items => exact performs_of_ready (fun _ _ hready => obtains_of_ready hready) h
  | disconnect pks =>
      show w.Becomes s.toDbms pk _ _ db (someAfter s (w.disconnect pk.value pks) pks db)
      by_cases hnone : pks = []
      · rw [someAfter, if_pos hnone, hnone, ChildColumns.namedRows_nil, Set.sdiff_empty]
        exact Relinks.refl fun _ _ => Iff.rfl
      · rw [someAfter, if_neg hnone]
        exact ChildColumns.becomes_disconnect fun heq => absurd heq hnone
  | set pks =>
      show w.Becomes s.toDbms pk _ _ db (someAfter s (w.connect pk.value pks) pks
        (s.effect (w.disconnectAll pk.value) db))
      by_cases hnone : pks = []
      · rw [someAfter, if_pos hnone, hnone, ChildColumns.namedRows_nil, Set.union_empty]
        exact ChildColumns.becomes_disconnectAll
      · rw [someAfter, if_neg hnone]
        exact ChildColumns.becomes_set (fun heq => absurd heq hnone) (hkey _ h.1)
  | delete pks =>
      show w.Removes _ db (someAfter s (w.delete pk.value pks) pks db)
      by_cases hnone : pks = []
      · rw [someAfter, if_pos hnone, hnone, ChildColumns.namedRows_nil, Set.inter_empty]
        refine ⟨fun _ => false, fun row => iff_of_false Bool.false_ne_true (Set.notMem_empty row), ?_⟩
        funext t
        by_cases ht : t = w.childTable
        · rw [Database.set, if_pos ht, ht]
          simp
        · rw [Database.set, if_neg ht]
      · rw [someAfter, if_neg hnone]
        exact ⟨_, fun row => s.kept_both (fun heq => absurd heq hnone) pk.isNull, rfl⟩

theorem performs_iff (hkey : ∀ db, s.allowed db → ∀ row ∈ db w.childTable, (row w.childPkCol).isNull = false)
    (db : Database) :
    Ensures s.server (w.execute s pk.value db) (Performs (w.Right s pk) w.ops db) ↔
      Sessions.Ready (w.OpReady s pk) (w.opAfter s pk) w.ops db := by
  have hacts : Acts s.server (w.execute s pk.value) _ _ := acts_each (acts_executeOp (w := w)) w.ops
  rw [hacts db]
  exact and_iff_left_of_imp fun h => performs_of_ready (right_of_ready hkey) h

end NestedRelWrite

def Dbms.answer (b : Dbms S) : WriteStatement S → Database → Answer
  | .insert _ rows, _ => (rows.length, [])
  | .select table _ f limit, db => (0, match limit with
      | some n => (b.found db table f).take n
      | none => b.found db table f)
  | _, _ => (0, [])

open Classical in
noncomputable def Dbms.willing (b : Dbms S) : WriteServer S where
  toDbms := b
  execute st db := if b.Legal st ∧ b.Accepts st db then some (b.effect st db, b.answer st db) else none
  accepted st db hlegal haccepts := ⟨_, if_pos ⟨hlegal, haccepts⟩⟩
  executes st db next answer _ h := by
    obtain ⟨⟨_, haccepts⟩, heq⟩ := Option.ite_none_right_eq_some.mp h
    obtain ⟨rfl, rfl⟩ := Prod.mk.inj (Option.some.inj heq)
    refine ⟨haccepts, rfl, ?_⟩
    cases st with
    | insert table rows => rfl
    | update => trivial
    | delete => trivial
    | select table columns f limit =>
        refine ⟨b.found db table f, .refl _, ?_⟩
        cases limit with
        | none => rfl
        | some n => rfl

-- Posts of an author, each with an id.

def postsDbms : Dbms Empty where
  d := .postgres
  engine := wholeNumbers
  reading := nofun
  lexes := nofun
  size := nofun
  stored _ _ rows := rows.map rowOf
  stores _ _ rows h := by
    rw [List.forall₂_map_right_iff, List.forall₂_same]
    exact fun row hrow => carries_rowOf (h row hrow)
  allowed db := ∀ row ∈ db "posts", (row "id").isNull = false

def firstAuthor : ParentKey wholeNumbers := ⟨.i64 1, rfl⟩

def postColumns : ChildColumns := ⟨"posts", "author_id", "id"⟩

def connectPosts (pks : List Value) : RelWrite := ⟨postColumns, .connect, pks⟩

def connectNested (pks : List Value) : NestedRelWrite Empty := ⟨postColumns, [.connect pks]⟩

theorem allowed_connect {db : Database} (h : postsDbms.allowed db) (v : Value) (pks : List Value) :
    postsDbms.allowed (postsDbms.effect (postColumns.connect v pks) db) := by
  intro row hrow
  have hrows : postsDbms.effect (postColumns.connect v pks) db "posts" = updateWhere
      (postsDbms.kept db "posts" (postColumns.named pks)) (Row.put "author_id" v) (db "posts") := by
    show db.set "posts" _ "posts" = _
    exact if_pos rfl
  rw [hrows, mem_updateWhere] at hrow
  rcases hrow with ⟨hold, -⟩ | ⟨old, hold, -, rfl⟩
  · exact h row hold
  · exact h old hold

end Ruprizzle.Runtime
