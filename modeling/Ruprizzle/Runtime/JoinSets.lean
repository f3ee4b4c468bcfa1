import Ruprizzle.Runtime.RelationSets

namespace Ruprizzle.Runtime

open Conditions Sessions Tables

-- What writes to the rows of a join table do to the targets of a parent.

variable {S C : Type}

namespace Dbms

variable {b : Dbms S} {db : Database} {table : String} {f g : FilterNode S}

theorem conditional_iff (hplain : f.Plain b.d fun _ => False) (hne : f.isTrivial = false) :
    b.Conditional f ↔ f.Spoken b.d fun _ => False := by
  rw [Conditional, FilterNode.forms_iff hplain, hne]
  exact or_iff_right Bool.false_ne_true

theorem kept_single {row : Row} (hne : f.isTrivial = false) :
    b.kept db table (.and [f]) row = b.kept db table f row := by
  rw [kept, kept, Engine.keeps, Engine.keeps, holds_and, hne]
  · simp [FilterNode.isTrivial]
  · exact fun hlength => absurd hlength (Nat.lt_irrefl 1)

end Dbms

namespace M2mWrite

section

variable (s : WriteServer S) (w : M2mWrite C) (pk : ParentKey s.engine)

def ownedRows : Set Row := s.linkedBy w.joinOwnerCol pk.value

-- The keys that the join rows of the parent name.
def related (db : Database) : Set Value :=
  {v | ∃ j ∈ db w.joinTable, j ∈ w.ownedRows s pk ∧ j w.joinTargetCol = v}

-- Union, replacement and difference.
def reference (old : Set Value) : Set Value :=
  match w.action with
  | .attach => old ∪ {v | v ∈ w.targetIds}
  | .set => {v | v ∈ w.targetIds}
  | .detach => old \ {v | s.engine.isIn v w.targetIds = .yes}

-- The parent names what it should, by the rows it had already unless they are replaced.
-- Nothing else has changed.
structure Reaches (db next : Database) : Prop where
  related : w.related s pk next = w.reference s (w.related s pk db)
  stay : w.action ≠ .set → ∀ j ∈ db w.joinTable,
    j w.joinTargetCol ∈ w.reference s (w.related s pk db) → j ∈ next w.joinTable
  others : (next w.joinTable).filter (fun j => s.engine.compare .eq (j w.joinOwnerCol) pk.value ≠ .yes) =
    (db w.joinTable).filter fun j => s.engine.compare .eq (j w.joinOwnerCol) pk.value ≠ .yes
  tables : ∀ t, t ≠ w.joinTable → next t = db t

-- The new rows name two columns, have room in one statement, and are allowed.
def Inserts (db : Database) : Prop :=
  w.targetIds ≠ [] → w.joinOwnerCol ≠ w.joinTargetCol ∧ s.Fits (2 * w.targetIds.length) ∧
    s.allowed (s.effect (w.inserting pk.value) db)

def Ready (db : Database) : Prop :=
  match w.action with
  | .attach => w.Inserts s pk db
  | .set => s.allowed (s.effect (w.clearing pk.value) db) ∧
      w.Inserts s pk (s.effect (w.clearing pk.value) db)
  | .detach => (w.targetIds = [] → s.d = .sqlite) ∧ s.Fits (1 + w.targetIds.length) ∧
      s.allowed (s.effect (w.deleting pk.value) db)

def inserted (db : Database) : Database :=
  if w.targetIds = [] then db else s.effect (w.inserting pk.value) db

def after (db : Database) : Database :=
  match w.action with
  | .attach => w.inserted s pk db
  | .set => w.inserted s pk (s.effect (w.clearing pk.value) db)
  | .detach => s.effect (w.deleting pk.value) db

-- The targets that are read back after an insert are rows of their model.
def Loads (db : Database) : Prop :=
  w.action ≠ .detach → w.targetIds ≠ [] →
    ∀ row ∈ s.found (w.after s pk db) w.target.table w.targets, (w.shown row).isSome = true

end

variable {s : WriteServer S} {w : M2mWrite C} {pk : ParentKey s.engine} {db : Database}

theorem kept_owned (db : Database) (row : Row) :
    s.kept db w.joinTable (w.owned pk.value) row = true ↔ row ∈ w.ownedRows s pk := by
  have hsingle : s.kept db w.joinTable (w.owned pk.value) row =
      s.kept db w.joinTable (.cmp w.joinTable w.joinOwnerCol .eq pk.value) row := s.kept_single rfl
  rw [hsingle]
  exact s.kept_eq pk.isNull

theorem kept_deleting (hvalues : w.targetIds = [] → s.d = .sqlite) (db : Database) (row : Row) :
    s.kept db w.joinTable (Filter.and (w.owned pk.value) (.in_ w.joinTable w.joinTargetCol w.targetIds false))
      row = true ↔ row ∈ w.ownedRows s pk ∧ s.engine.isIn (row w.joinTargetCol) w.targetIds = .yes := by
  have hpair : s.kept db w.joinTable (.and [.cmp w.joinTable w.joinOwnerCol .eq pk.value,
      .in_ w.joinTable w.joinTargetCol w.targetIds false]) row = true ↔ _ :=
    s.kept_pair (FilterNode.contained_cmp _ _ _ _ _) (contained_in _ _ _ _) rfl rfl
  rw [s.kept_eq pk.isNull, s.kept_in hvalues] at hpair
  exact hpair

theorem plain_owned : (w.owned pk.value : FilterNode S).Plain s.d fun _ => False :=
  FilterNode.every_and.mpr ⟨.and nofun, FilterNode.plain_cmp _ _ _ _⟩

theorem spoken_owned : (w.owned pk.value : FilterNode S).Spoken s.d fun _ => False :=
  FilterNode.every_and.mpr ⟨.and nofun, FilterNode.spoken_eq pk.isNull⟩

theorem filterBinds_owned : filterBinds s.size s.d (w.owned pk.value) = 1 := by
  rw [owned, filterBinds_and, filterBinds_nil, FilterNode.filterBinds_eq pk.isNull]

theorem takes_clearing :
    s.server.legal (w.clearing pk.value) ∧ s.server.accepts (w.clearing pk.value) db ↔
      s.allowed (s.effect (w.clearing pk.value) db) := by
  refine and_iff_right ⟨(s.conditional_iff plain_owned rfl).mpr spoken_owned, ?_⟩
  rw [filterBinds_owned]
  exact s.fits_few (by omega)

theorem takes_deleting :
    s.server.legal (w.deleting pk.value) ∧ s.server.accepts (w.deleting pk.value) db ↔
      ((w.targetIds = [] → s.d = .sqlite) ∧ s.Fits (1 + w.targetIds.length)) ∧
        s.allowed (s.effect (w.deleting pk.value) db) := by
  refine and_congr (and_congr ?_ ?_) Iff.rfl
  · rw [s.conditional_iff (FilterNode.every_and.mpr ⟨plain_owned, FilterNode.plain_in _ _ _ _⟩) rfl,
      FilterNode.Spoken, FilterNode.every_and]
    exact (and_iff_right spoken_owned).trans (FilterNode.spoken_in _ _ _ _)
  · rw [filterBinds_and, filterBinds_owned, filterBinds_in]

theorem takes_inserting (hne : w.targetIds ≠ []) :
    s.server.legal (w.inserting pk.value) ∧ s.server.accepts (w.inserting pk.value) db ↔
      w.joinOwnerCol ≠ w.joinTargetCol ∧ s.Fits (2 * w.targetIds.length) ∧
        s.allowed (s.effect (w.inserting pk.value) db) := by
  have hlength : (w.targetIds.map fun tid => [(w.joinOwnerCol, pk.value), (w.joinTargetCol, tid)]).flatten.length =
      2 * w.targetIds.length := by
    induction w.targetIds with
    | nil => rfl
    | cons tid rest ih =>
        rw [List.map_cons, List.flatten_cons, List.length_append, ih, List.length_cons, List.length_cons,
          List.length_cons, List.length_nil]
        omega
  have hnodup : (∀ row ∈ w.targetIds.map fun tid => [(w.joinOwnerCol, pk.value), (w.joinTargetCol, tid)],
      (row.map Prod.fst).Nodup) ↔ w.joinOwnerCol ≠ w.joinTargetCol := by
    rw [List.forall_mem_map]
    obtain ⟨tid, htid⟩ := List.exists_mem_of_ne_nil _ hne
    constructor
    · intro h heq
      have hone := h tid htid
      simp [heq] at hone
    · intro h tid _
      simp [h]
  show (_ ≠ [] ∧ _ ∧ s.Fits _) ∧ _ ↔ _
  rw [hlength, hnodup, and_iff_right (mt List.map_eq_nil_iff.mp hne), and_assoc]
  rfl

-- Rows that are taken out belong to the parent.
theorem others_filter {table : List Row} {p : Row → Bool} (hp : ∀ j ∈ table, p j = true → j ∈ w.ownedRows s pk) :
    (table.filter fun j => !p j).filter (fun j => s.engine.compare .eq (j w.joinOwnerCol) pk.value ≠ .yes) =
      table.filter fun j => s.engine.compare .eq (j w.joinOwnerCol) pk.value ≠ .yes := by
  rw [List.filter_filter]
  refine List.filter_congr fun j hj => ?_
  by_cases hgone : p j = true
  · have howned : s.engine.compare .eq (j w.joinOwnerCol) pk.value = .yes := hp j hj hgone
    simp [howned]
  · simp [hgone]

theorem related_cleared : w.related s pk (s.effect (w.clearing pk.value) db) = ∅ := by
  refine Set.eq_empty_of_forall_notMem fun v hv => ?_
  obtain ⟨j, hj, howned, -⟩ := hv
  have hrows : s.effect (w.clearing pk.value) db w.joinTable =
      (db w.joinTable).filter fun j => !s.kept db w.joinTable (w.owned pk.value) j := if_pos rfl
  rw [hrows, List.mem_filter, Bool.not_eq_true', Bool.eq_false_iff] at hj
  exact hj.2 ((kept_owned db j).mpr howned)

theorem others_cleared :
    (s.effect (w.clearing pk.value) db w.joinTable).filter
        (fun j => s.engine.compare .eq (j w.joinOwnerCol) pk.value ≠ .yes) =
      (db w.joinTable).filter fun j => s.engine.compare .eq (j w.joinOwnerCol) pk.value ≠ .yes := by
  have hrows : s.effect (w.clearing pk.value) db w.joinTable =
      (db w.joinTable).filter fun j => !s.kept db w.joinTable (w.owned pk.value) j := if_pos rfl
  rw [hrows]
  exact others_filter fun j _ hkept => (kept_owned db j).mp hkept

-- The rows that are added belong to the parent and name the given keys.
theorem inserted_rows (s : WriteServer S) (pk : ParentKey s.engine) (db : Database)
    (hne : w.joinOwnerCol ≠ w.joinTargetCol) (hsome : w.targetIds ≠ []) :
    ∃ new : List Row, w.inserted s pk db = db.add w.joinTable new ∧
      (∀ j ∈ new, j ∈ w.ownedRows s pk) ∧ new.map (fun j => j w.joinTargetCol) = w.targetIds := by
  have hcarries := s.stores db w.joinTable
    (w.targetIds.map fun tid => [(w.joinOwnerCol, pk.value), (w.joinTargetCol, tid)]) (by
      rw [List.forall_mem_map]
      exact fun tid _ => by simp [hne])
  refine ⟨_, if_neg hsome, ?_, ?_⟩
  · intro j hj
    have howner := NestedInsert.carries_given hcarries (v := pk.value) (by
      rw [List.forall_mem_map]
      exact fun tid _ => List.mem_cons_self) j hj
    show s.engine.compare .eq (j w.joinOwnerCol) pk.value = .yes
    rw [howner]
    exact pk.same
  · rw [List.forall₂_map_left_iff] at hcarries
    have hsame : List.Forall₂ (fun tid j => tid = j w.joinTargetCol) w.targetIds
        (s.stored db w.joinTable _) :=
      hcarries.imp fun tid j hj => (hj _ _ (List.mem_cons_of_mem _ List.mem_cons_self)).symm
    rw [← List.forall₂_map_right_iff, List.forall₂_eq_eq_eq] at hsame
    exact hsame.symm

-- What an insert adds to the targets of the parent, and what it leaves.
structure Gains (s : WriteServer S) (w : M2mWrite C) (pk : ParentKey s.engine) (db next : Database) : Prop where
  related : w.related s pk next = w.related s pk db ∪ {v | v ∈ w.targetIds}
  stay : ∀ j ∈ db w.joinTable, j ∈ next w.joinTable
  others : (next w.joinTable).filter (fun j => s.engine.compare .eq (j w.joinOwnerCol) pk.value ≠ .yes) =
    (db w.joinTable).filter fun j => s.engine.compare .eq (j w.joinOwnerCol) pk.value ≠ .yes
  tables : ∀ t, t ≠ w.joinTable → next t = db t

theorem gains_inserted (h : w.targetIds ≠ [] → w.joinOwnerCol ≠ w.joinTargetCol) :
    w.Gains s pk db (w.inserted s pk db) := by
  by_cases hsome : w.targetIds = []
  · have hsame : w.inserted s pk db = db := if_pos hsome
    rw [hsame]
    refine ⟨?_, fun _ hj => hj, rfl, fun _ _ => rfl⟩
    rw [hsome]
    exact (Set.union_eq_left.mpr fun v hv => absurd hv List.not_mem_nil).symm
  · obtain ⟨new, hnext, howned, hids⟩ := inserted_rows s pk db (h hsome) hsome
    have hrows : w.inserted s pk db w.joinTable = db w.joinTable ++ new := by
      rw [hnext]
      exact if_pos rfl
    constructor
    · ext v
      show (∃ j ∈ w.inserted s pk db w.joinTable, _) ↔ _ ∨ v ∈ w.targetIds
      rw [hrows, ← hids, List.mem_map]
      constructor
      · intro ⟨j, hj, hlinked, hv⟩
        rcases List.mem_append.mp hj with hold | hnew
        · exact Or.inl ⟨j, hold, hlinked, hv⟩
        · exact Or.inr ⟨j, hnew, hv⟩
      · intro h
        rcases h with ⟨j, hold, hlinked, hv⟩ | ⟨j, hnew, hv⟩
        · exact ⟨j, List.mem_append_left _ hold, hlinked, hv⟩
        · exact ⟨j, List.mem_append_right _ hnew, howned j hnew, hv⟩
    · intro j hj
      rw [hrows]
      exact List.mem_append_left _ hj
    · have hnone : new.filter (fun j => s.engine.compare .eq (j w.joinOwnerCol) pk.value ≠ .yes) = [] := by
        rw [List.filter_eq_nil_iff]
        intro j hj hother
        exact of_decide_eq_true hother (howned j hj)
      rw [hrows, List.filter_append, hnone, List.append_nil]
    · intro t ht
      rw [hnext]
      exact if_neg ht

theorem reaches_deleting (hvalues : w.targetIds = [] → s.d = .sqlite) (haction : w.action = .detach) :
    w.Reaches s pk db (s.effect (w.deleting pk.value) db) := by
  let gone : Row → Bool := s.kept db w.joinTable
    (Filter.and (w.owned pk.value) (.in_ w.joinTable w.joinTargetCol w.targetIds false))
  have hrows : s.effect (w.deleting pk.value) db w.joinTable = (db w.joinTable).filter fun j => !gone j :=
    if_pos rfl
  have hgone : ∀ j, gone j = true ↔
      j ∈ w.ownedRows s pk ∧ s.engine.isIn (j w.joinTargetCol) w.targetIds = .yes := kept_deleting hvalues db
  have hreference : w.reference s (w.related s pk db) =
      w.related s pk db \ {v | s.engine.isIn v w.targetIds = .yes} := by
    rw [reference, haction]
  refine ⟨?_, fun _ j hj hnamed => ?_, ?_, fun t ht => if_neg ht⟩
  · rw [hreference]
    ext v
    show (∃ j ∈ s.effect (w.deleting pk.value) db w.joinTable, _) ↔ _
    rw [hrows]
    constructor
    · intro ⟨j, hj, hlinked, hv⟩
      obtain ⟨hold, hkept⟩ := List.mem_filter.mp hj
      rw [Bool.not_eq_true', Bool.eq_false_iff] at hkept
      exact ⟨⟨j, hold, hlinked, hv⟩, fun hnamed => hkept ((hgone j).mpr ⟨hlinked, hv ▸ hnamed⟩)⟩
    · intro ⟨⟨j, hold, hlinked, hv⟩, hother⟩
      refine ⟨j, List.mem_filter.mpr ⟨hold, ?_⟩, hlinked, hv⟩
      rw [Bool.not_eq_true', Bool.eq_false_iff]
      exact fun hkept => hother (hv ▸ ((hgone j).mp hkept).2)
  · rw [hreference] at hnamed
    rw [hrows, List.mem_filter, Bool.not_eq_true', Bool.eq_false_iff]
    exact ⟨hj, fun hkept => hnamed.2 ((hgone j).mp hkept).2⟩
  · rw [hrows]
    exact others_filter fun j _ hkept => ((hgone j).mp hkept).1

theorem reaches_after (h : w.Ready s pk db) : w.Reaches s pk db (w.after s pk db) := by
  unfold Ready at h
  unfold after
  cases haction : w.action with
  | attach =>
      rw [haction] at h
      have hgains : w.Gains s pk db (w.inserted s pk db) := gains_inserted fun hsome => (h hsome).1
      refine ⟨?_, fun _ j hj _ => hgains.stay j hj, hgains.others, hgains.tables⟩
      rw [hgains.related, reference, haction]
  | set =>
      rw [haction] at h
      have hgains : w.Gains s pk (s.effect (w.clearing pk.value) db)
          (w.inserted s pk (s.effect (w.clearing pk.value) db)) := gains_inserted fun hsome => (h.2 hsome).1
      refine ⟨?_, fun hset => absurd haction hset, hgains.others.trans others_cleared, fun t ht => ?_⟩
      · rw [hgains.related, related_cleared, Set.empty_union, reference, haction]
      · exact (hgains.tables t ht).trans (if_neg ht)
  | detach =>
      rw [haction] at h
      exact reaches_deleting h.1 haction

theorem acts_insertJoins : Acts s.server (w.insertJoins s pk.value) (w.Inserts s pk) (w.inserted s pk) := by
  unfold insertJoins Inserts inserted
  by_cases hsome : w.targetIds = []
  · rw [hsome]
    exact (acts_done _).congr (fun db => ⟨fun _ hne => absurd rfl hne, fun _ => trivial⟩) fun _ _ => rfl
  · have hempty : w.targetIds.isEmpty = false := by simpa using hsome
    simp only [hempty, hsome, if_false, Bool.false_eq_true]
    refine (acts_issue s.server (w.inserting pk.value)).congr (fun db => ?_) fun _ _ => rfl
    rw [takes_inserting hsome]
    exact ⟨fun h _ => h, fun h => h hsome⟩

-- Both steps of a write, whatever is made of their answers.
theorem acts_steps {α : Type} {tail : Answer → Answer → Database → Write S α}
    (htail : ∀ cleared more, Acts s.server (tail cleared more) (fun _ => True) id) :
    Acts s.server (fun db => andThen (if w.action = .set then w.clearJoins s pk.value db else done (0, []) db)
      fun db cleared => andThen (if w.action ≠ .detach then w.insertJoins s pk.value db
        else w.deleteSpecificJoins s pk.value db) fun db more => tail cleared more db)
      (w.Ready s pk) (w.after s pk) := by
  have hinsert : ∀ cleared, Acts s.server (fun db => andThen (w.insertJoins s pk.value db)
      fun db more => tail cleared more db) (w.Inserts s pk) (w.inserted s pk) := fun cleared =>
    (acts_insertJoins.andThen fun more => htail cleared more).congr (fun _ => iff_of_eq (and_true _))
      fun _ _ => rfl
  unfold Ready after
  cases haction : w.action with
  | attach =>
      refine ((acts_done (0, [])).andThen hinsert).congr (fun _ => iff_of_eq (true_and _)) fun _ _ => rfl
  | set =>
      refine ((acts_issue s.server (w.clearing pk.value)).andThen hinsert).congr (fun db => ?_)
        fun _ _ => rfl
      rw [takes_clearing]
      rfl
  | detach =>
      refine ((acts_done (0, [])).andThen fun cleared =>
        (acts_issue s.server (w.deleting pk.value)).andThen fun more =>
          htail cleared more).congr (fun db => ?_) fun _ _ => rfl
      dsimp only [id]
      rw [takes_deleting, true_and, and_true, and_assoc]

theorem update_reaches_iff (db : Database) :
    Ensures s.server (w.executeUpdate s pk.value db) (w.Reaches s pk db) ↔ w.Ready s pk db := by
  have hacts : Acts s.server (w.executeUpdate s pk.value) (w.Ready s pk) (w.after s pk) :=
    acts_steps fun cleared more => acts_done (cleared.1 + more.1)
  rw [hacts db]
  exact and_iff_left_of_imp reaches_after

theorem legal_loading (hsome : w.targetIds ≠ []) (hfits : s.Fits (2 * w.targetIds.length)) :
    s.Legal (w.loading : WriteStatement S) := by
  have hlive : (liveRows w.target : FilterNode S).Plain s.d (fun _ => False) ∧
      (liveRows w.target : FilterNode S).Spoken s.d fun _ => False := by
    unfold liveRows
    cases w.target.deletedAtColumn with
    | none => exact ⟨.and nofun, .and nofun⟩
    | some column => exact ⟨.leaf rfl trivial, .leaf rfl trivial⟩
  have hplain : (w.targets : FilterNode S).Plain s.d fun _ => False :=
    FilterNode.every_and.mpr ⟨hlive.1, FilterNode.plain_in _ _ _ _⟩
  have hspoken : (w.targets : FilterNode S).Spoken s.d fun _ => False :=
    FilterNode.every_and.mpr ⟨hlive.2, (FilterNode.spoken_in _ _ _ _).mpr fun hnone => absurd hnone hsome⟩
  refine ⟨Or.inr ((FilterNode.forms_iff hplain).mpr hspoken), ?_⟩
  rw [targets, filterBinds_and, filterBinds_liveRows, filterBinds_in, Nat.zero_add]
  exact Nat.le_trans (Nat.le_mul_of_pos_left _ Nat.two_pos) hfits

theorem mapM_isSome {rows : List Row} :
    (∃ children, rows.mapM w.shown = some children) ↔ ∀ row ∈ rows, (w.shown row).isSome = true := by
  induction rows with
  | nil => exact ⟨fun _ row hrow => absurd hrow List.not_mem_nil, fun _ => ⟨[], rfl⟩⟩
  | cons row rest ih =>
      rw [List.forall_mem_cons, ← ih, List.mapM_cons]
      cases hrow : w.shown row with
      | none => simp
      | some child => cases hrest : rest.mapM w.shown <;> simp

theorem acts_loadTargets (hlegal : s.Legal (w.loading : WriteStatement S)) :
    Acts s.server (w.loadTargets s)
      (fun db => ∀ row ∈ s.found db w.target.table w.targets, (w.shown row).isSome = true) id := by
  intro db goal
  rw [loadTargets, ensures_issue]
  have hrows : ∀ answer : Answer, s.Answers w.loading db answer →
      ((∀ row ∈ s.found db w.target.table w.targets, (w.shown row).isSome = true) ↔
        ∃ children, answer.2.mapM w.shown = some children) := by
    intro answer hanswer
    obtain ⟨rows, hperm, heq⟩ := hanswer
    rw [mapM_isSome, heq]
    exact forall_congr' fun row => imp_congr_left hperm.mem_iff.symm
  constructor
  · intro ⟨_, answer, _, hanswer, hensures⟩
    cases hchildren : answer.2.mapM w.shown with
    | none =>
        rw [hchildren] at hensures
        obtain ⟨_, _, hfail, _⟩ := hensures.reached
        cases hfail
    | some children =>
        rw [hchildren] at hensures
        exact ⟨(hrows answer hanswer).mpr ⟨children, hchildren⟩, ensures_done.mp hensures⟩
  · intro ⟨hshown, hgoal⟩
    obtain ⟨answer, hexecute⟩ := s.accepted w.loading db hlegal trivial
    obtain ⟨-, -, hanswer⟩ := s.executes _ _ _ _ hlegal hexecute
    obtain ⟨children, hchildren⟩ := (hrows answer hanswer).mp hshown
    refine ⟨⟨hlegal, trivial⟩, answer, hexecute, hanswer, ?_⟩
    rw [hchildren]
    exact ensures_done.mpr hgoal

-- The answer to an insert is more than no row, so that the targets are read.
theorem acts_load (haction : w.action ≠ .detach) (hsome : w.targetIds ≠ []) (cleared : Answer) :
    Acts s.server (fun db => andThen (w.insertJoins s pk.value db) fun db more =>
        if w.action = .detach then done [] db
        else if 0 < cleared.1 + more.1 && !w.targetIds.isEmpty then w.loadTargets s db
        else done [] db)
      (fun db => w.Inserts s pk db ∧ ∀ row ∈ s.found (w.inserted s pk db) w.target.table w.targets,
        (w.shown row).isSome = true) (w.inserted s pk) := by
  intro db goal
  have hempty : w.targetIds.isEmpty = false := by simpa using hsome
  have hinserted : w.inserted s pk db = s.effect (w.inserting pk.value) db := if_neg hsome
  have htail : ∀ more : Answer, s.Answers (w.inserting pk.value) db more →
      (if w.action = .detach then done [] (w.inserted s pk db)
        else if 0 < cleared.1 + more.1 && !w.targetIds.isEmpty then w.loadTargets s (w.inserted s pk db)
        else done [] (w.inserted s pk db)) = w.loadTargets s (w.inserted s pk db) := by
    intro more hmore
    have hlength : more.1 = w.targetIds.length := hmore.trans (List.length_map _)
    have hpos := List.length_pos_of_ne_nil hsome
    rw [if_neg haction, hempty, Bool.not_false, Bool.and_true]
    exact if_pos (decide_eq_true (by omega))
  have hinsert : w.insertJoins s pk.value db = issue s.server (w.inserting pk.value) db := by
    rw [insertJoins, hempty]
    rfl
  dsimp only
  rw [hinsert, ensures_issue, takes_inserting hsome]
  have hready : w.Inserts s pk db ↔ w.joinOwnerCol ≠ w.joinTargetCol ∧
      s.Fits (2 * w.targetIds.length) ∧ s.allowed (s.effect (w.inserting pk.value) db) :=
    forall_prop_of_true hsome
  rw [hready]
  refine Iff.trans (and_congr_right fun hinserts => ?_) and_assoc.symm
  have hload := acts_loadTargets (legal_loading hsome hinserts.2.1) (w.inserted s pk db) goal
  constructor
  · intro ⟨more, _, hmore, hensures⟩
    have hensures : Ensures s.server _ goal := hensures
    rw [show s.server.effect (w.inserting pk.value) db = w.inserted s pk db from hinserted.symm,
      htail more hmore] at hensures
    exact hload.mp hensures
  · intro hall
    have hlegal : s.Legal (w.inserting pk.value) := ((takes_inserting hsome).mpr hinserts).1
    obtain ⟨more, hexecute⟩ := s.accepted _ db hlegal ((takes_inserting hsome).mpr hinserts).2
    obtain ⟨-, -, hmore⟩ := s.executes _ _ _ _ hlegal hexecute
    refine ⟨more, hexecute, hmore, ?_⟩
    rw [show s.server.effect (w.inserting pk.value) db = w.inserted s pk db from hinserted.symm,
      htail more hmore]
    exact hload.mpr hall

theorem acts_executeInsert (haction : w.action ≠ .detach) (hsome : w.targetIds ≠ []) :
    Acts s.server (w.executeInsert s pk.value)
      (fun db => w.Ready s pk db ∧ ∀ row ∈ s.found (w.after s pk db) w.target.table w.targets,
        (w.shown row).isSome = true) (w.after s pk) := by
  have hclear : w.executeInsert s pk.value = fun db =>
      andThen (if w.action = .set then w.clearJoins s pk.value db else done (0, []) db) fun db cleared =>
        andThen (w.insertJoins s pk.value db) fun db more =>
          if w.action = .detach then done [] db
          else if 0 < cleared.1 + more.1 && !w.targetIds.isEmpty then w.loadTargets s db
          else done [] db := by
    funext db
    unfold executeInsert
    simp only [ne_eq, haction, not_false_eq_true, if_true]
  rw [hclear]
  by_cases hset : w.action = .set
  · simp only [if_pos hset]
    refine ((acts_issue s.server (w.clearing pk.value)).andThen (acts_load haction hsome)).congr (fun db => ?_) fun db _ => ?_
    · rw [takes_clearing, Ready, after, hset, and_assoc]
      rfl
    · rw [after, hset]
      rfl
  · have hattach : w.action = .attach := by
      cases hcase : w.action with
      | attach => rfl
      | set => exact absurd hcase hset
      | detach => exact absurd hcase haction
    simp only [if_neg hset]
    refine ((acts_done (0, [])).andThen (acts_load haction hsome)).congr (fun db => ?_) fun db _ => ?_
    · rw [true_and, Ready, after, hattach]
      rfl
    · rw [after, hattach]
      rfl

theorem insert_reaches_iff (db : Database) :
    Ensures s.server (w.executeInsert s pk.value db) (w.Reaches s pk db) ↔
      w.Ready s pk db ∧ w.Loads s pk db := by
  by_cases hloads : w.action ≠ .detach ∧ w.targetIds ≠ []
  · have hfound : w.Loads s pk db ↔ ∀ row ∈ s.found (w.after s pk db) w.target.table w.targets,
        (w.shown row).isSome = true :=
      ⟨fun h => h hloads.1 hloads.2, fun h _ _ => h⟩
    rw [acts_executeInsert hloads.1 hloads.2 db, hfound]
    exact and_iff_left_of_imp fun h => reaches_after h.1
  · have hnone : w.Loads s pk db := fun haction hsome => absurd ⟨haction, hsome⟩ hloads
    rw [and_iff_left hnone]
    have hacts : Acts s.server (w.executeInsert s pk.value) (w.Ready s pk) (w.after s pk) := by
      refine acts_steps fun cleared more => ?_
      by_cases haction : w.action = .detach
      · simp only [haction, if_true]
        exact acts_done []
      · have hempty : w.targetIds.isEmpty = true := by
          by_contra hne
          exact hloads ⟨haction, fun heq => hne (List.isEmpty_iff.mpr heq)⟩
        simp only [haction, hempty, if_false, Bool.not_true, Bool.and_false, Bool.false_eq_true]
        exact acts_done []
    rw [hacts db]
    exact and_iff_left_of_imp reaches_after

end M2mWrite

end Ruprizzle.Runtime
