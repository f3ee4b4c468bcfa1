import Mathlib.Data.Set.Basic
import Ruprizzle.Runtime.RelationWrites

namespace Ruprizzle.Runtime

open Conditions Sessions Tables

-- What writes to a relation do to the set of the rows that belong to a parent.

variable {S : Type}

-- The key of a parent is equal to itself, so it is not NULL.
structure ParentKey (engine : Engine) where
  value : Value
  same : engine.compare .eq value value = .yes

theorem ParentKey.isNull {engine : Engine} (pk : ParentKey engine) : pk.value.isNull = false := by
  by_contra hnull
  have hsame := pk.same
  rw [compare_isNull (by simpa using hnull)] at hsame
  cases hsame

theorem alive_of_cond {d : Dialect} {ws : List Lexeme} (h : Makes d [part .cond] ws) : Alive d ws := by
  have hlabel : Makes d [part .label] [] := Makes.nil.rule (by decide)
  have htable : Makes d [part .table] [.name] := (hlabel.cons .name).rule (by decide)
  have halive := alive_of_spells (makes_select htable h)
  exact (Alive.right (a := [Lexeme.word .where_]) halive.right)

namespace FilterNode

variable {d : Dialect} {sub : S → Prop} {lexes : S → List Lexeme} {f : FilterNode S}

-- A filter without subqueries and raw SQL is a condition just where it is spoken.
theorem forms_iff (hplain : f.Plain d fun _ => False) :
    Forms d lexes .cond (pushFilter d f) ↔ f.Spoken d fun _ => False :=
  ⟨fun h => spoken_of_alive hplain (fun _ hs => hs.elim) (alive_of_cond h),
    fun h => forms_filter hplain h fun _ hs => hs.elim⟩

theorem spoken_in (table column : String) (values : List Value) (negated : Bool) :
    (in_ table column values negated : FilterNode S).Spoken d sub ↔ (values = [] → d = .sqlite) := by
  constructor
  · intro h
    cases h with
    | leaf _ hleaf => exact hleaf
  · exact fun h => .leaf rfl h

theorem spoken_eq {table column : String} {value : Value} (hvalue : value.isNull = false) :
    (cmp table column .eq value : FilterNode S).Spoken d sub :=
  .leaf rfl ⟨nofun, fun hnull => absurd hnull (by simp [hvalue])⟩

theorem spoken_and {nodes : List (FilterNode S)} :
    (and nodes).Spoken d sub ↔ ∀ node ∈ nodes, node.Spoken d sub := by
  constructor
  · intro h
    cases h with
    | leaf hleaf _ => exact absurd hleaf Bool.false_ne_true
    | and hnodes => exact hnodes
  · exact .and

theorem plain_in (table column : String) (values : List Value) (negated : Bool) :
    (in_ table column values negated : FilterNode S).Plain d sub := .leaf rfl trivial

theorem plain_cmp (table column : String) (op : CmpOp) (value : Value) :
    (cmp table column op value : FilterNode S).Plain d sub := .leaf rfl trivial

theorem filterBinds_eq {size : S → Nat} {table column : String} {value : Value} (hvalue : value.isNull = false) :
    filterBinds size d (cmp table column .eq value : FilterNode S) = 1 := by
  rw [filterBinds, pushFilter]
  simp [binds, Push.bindCount, pushColumn, hvalue]

theorem filterBinds_pair {size : S → Nat} (f g : FilterNode S) :
    filterBinds size d (.and [f, g]) = filterBinds size d f + filterBinds size d g := by
  rw [filterBinds, pushFilter_and, binds_joined]
  simp [binds_append, filterBinds]

theorem contained_cmp (reading : S → List Word) (table column : String) (op : CmpOp) (value : Value) :
    Contained (language d) ((cmp table column op value : FilterNode S).words d reading) := by
  rw [words_cmp]
  exact (tight_column (tight_compared op value)).contained

end FilterNode

namespace Dbms

variable (b : Dbms S)

def linkedBy (column : String) (v : Value) : Set Row :=
  {row | b.engine.compare .eq (row column) v = .yes}

def namedBy (column : String) (values : List Value) : Set Row :=
  {row | b.engine.isIn (row column) values = .yes}

variable {b} {db : Database} {table column column' : String} {values : List Value} {v : Value} {row : Row}

theorem kept_in (hvalues : values = [] → b.d = .sqlite) :
    b.kept db table (.in_ table column values false) row = true ↔ row ∈ b.namedBy column values := by
  have htruth : b.engine.truth db b.d (Env.bind (fun _ _ => .null) table row)
      ((FilterNode.in_ table column values false : FilterNode S).words b.d b.reading) = _ := truth_in hvalues
  rw [kept, Engine.keeps, Engine.holds, htruth]
  simp [FilterNode.isTrivial, Truth.negate, Env.bind, namedBy]

theorem kept_eq (hv : v.isNull = false) :
    b.kept db table (.cmp table column .eq v) row = true ↔ row ∈ b.linkedBy column v := by
  have hkeeps : b.kept db table (.cmp table column .eq v) row =
      decide (b.engine.compare .eq (row column) v = .yes) :=
    keeps_cmp (m := ⟨table, [], column, none⟩) hv (by decide) row
  rw [hkeeps, decide_eq_true_iff]
  rfl

-- Two conditions of one row.
theorem kept_pair {f g : FilterNode S} (hf : Contained (language b.d) (f.words b.d b.reading))
    (hg : Contained (language b.d) (g.words b.d b.reading)) (hf' : f.isTrivial = false)
    (hg' : g.isTrivial = false) : b.kept db table (.and [f, g]) row = true ↔
      b.kept db table f row = true ∧ b.kept db table g row = true := by
  rw [kept, kept, kept, Engine.keeps, Engine.keeps, Engine.keeps, holds_and, hf', hg']
  · simp [FilterNode.isTrivial]
  · intro _ node hnode
    rcases List.mem_pair.mp hnode with rfl | rfl
    · exact hf
    · exact hg

theorem kept_both (hvalues : values = [] → b.d = .sqlite) (hv : v.isNull = false) :
    b.kept db table (.and [.in_ table column' values false, .cmp table column .eq v]) row = true ↔
      row ∈ b.linkedBy column v ∩ b.namedBy column' values := by
  rw [kept_pair (contained_in _ _ _ _) (FilterNode.contained_cmp _ _ _ _ _) rfl rfl, kept_in hvalues,
    kept_eq hv, and_comm]
  rfl

theorem conditional_in : b.Conditional (.in_ table column values false) ↔ (values = [] → b.d = .sqlite) := by
  rw [Conditional, FilterNode.forms_iff (FilterNode.plain_in _ _ _ _), FilterNode.spoken_in]
  exact or_iff_right Bool.false_ne_true

theorem conditional_eq (hv : v.isNull = false) : b.Conditional (.cmp table column .eq v) :=
  Or.inr ((FilterNode.forms_iff (FilterNode.plain_cmp _ _ _ _)).mpr (FilterNode.spoken_eq hv))

theorem conditional_both (hv : v.isNull = false) :
    b.Conditional (.and [.in_ table column' values false, .cmp table column .eq v]) ↔
      (values = [] → b.d = .sqlite) := by
  have hplain : (FilterNode.and [.in_ table column' values false, .cmp table column .eq v] :
      FilterNode S).Plain b.d fun _ => False := by
    refine .and fun node hnode => ?_
    rcases List.mem_pair.mp hnode with rfl | rfl
    · exact FilterNode.plain_in _ _ _ _
    · exact FilterNode.plain_cmp _ _ _ _
  rw [Conditional, FilterNode.forms_iff hplain, FilterNode.spoken_and]
  refine (or_iff_right Bool.false_ne_true).trans ?_
  constructor
  · intro h
    exact (FilterNode.spoken_in _ _ _ _).mp (h _ (List.mem_pair.mpr (Or.inl rfl)))
  · intro h node hnode
    rcases List.mem_pair.mp hnode with rfl | rfl
    · exact (FilterNode.spoken_in _ _ _ _).mpr h
    · exact FilterNode.spoken_eq hv

theorem fits_few {n : Nat} (h : n ≤ 2) : b.Fits n := by
  have hroom : 2 ≤ maxQueryParams b.d := by cases b.d <;> decide
  exact Nat.le_trans h hroom

end Dbms

-- The rows of one table, each with its foreign key set so that just the members belong to
-- the parent. A row that is not touched stays as it is.
structure Relinks (table column : String) (linked member touched : Set Row) (db next : Database) : Prop where
  rows : List.Forall₂ (fun old new => (new ∈ linked ↔ old ∈ member) ∧
    (∀ c, c ≠ column → new c = old c) ∧ (old ∉ touched → new = old)) (db table) (next table)
  others : ∀ t, t ≠ table → next t = db t

section

variable {table column : String} {linked member touched chosen : Set Row} {db : Database}
  {value : Value} {p : Row → Bool}

theorem Relinks.of_map {f : Row → Row} (h : ∀ old ∈ db table, (f old ∈ linked ↔ old ∈ member) ∧
    (∀ c, c ≠ column → f old c = old c) ∧ (old ∉ touched → f old = old)) :
    Relinks table column linked member touched db (db.set table ((db table).map f)) := by
  refine ⟨?_, fun t ht => if_neg ht⟩
  rw [Database.set, if_pos rfl, List.forall₂_map_right_iff, List.forall₂_same]
  exact h

theorem Relinks.refl (h : ∀ old ∈ db table, old ∈ linked ↔ old ∈ member) :
    Relinks table column linked member touched db db := by
  refine ⟨?_, fun t _ => rfl⟩
  rw [List.forall₂_same]
  exact fun old hold => ⟨h old hold, fun _ _ => rfl, fun _ => rfl⟩

theorem Row.put_other {c : String} (hc : c ≠ column) (row : Row) : Row.put column value row c = row c :=
  if_neg hc

-- The chosen rows are put into the set, or out of it.
theorem relinks_update (hchosen : ∀ row ∈ db table, p row = true ↔ row ∈ chosen)
    (hmember : ∀ row ∈ db table, row ∈ chosen → (Row.put column value row ∈ linked ↔ row ∈ member))
    (hother : ∀ row ∈ db table, row ∉ chosen → (row ∈ linked ↔ row ∈ member)) :
    Relinks table column linked member chosen db
      (db.set table (updateWhere p (Row.put column value) (db table))) := by
  refine Relinks.of_map fun old hold => ?_
  by_cases hp : p old = true
  · rw [if_pos hp]
    have hin := (hchosen old hold).mp hp
    exact ⟨hmember old hold hin, fun c hc => Row.put_other hc old, fun hout => absurd hin hout⟩
  · rw [if_neg hp]
    have hout := fun hin => hp ((hchosen old hold).mpr hin)
    exact ⟨hother old hold hout, fun _ _ => rfl, fun _ => rfl⟩

end

namespace ChildColumns

variable (c : ChildColumns) {b : Dbms S} (pk : ParentKey b.engine) (pks : List Value) (db : Database)

def linkedRows (b : Dbms S) (pk : ParentKey b.engine) : Set Row := b.linkedBy c.childFkCol pk.value

def namedRows (b : Dbms S) (pks : List Value) : Set Row := b.namedBy c.childPkCol pks

-- The parent has just the members afterwards.
def Becomes (b : Dbms S) (pk : ParentKey b.engine) (member touched : Set Row) : Database → Database → Prop :=
  Relinks c.childTable c.childFkCol (c.linkedRows b pk) member touched

variable {c pk pks db}

theorem put_linked (row : Row) : Row.put c.childFkCol pk.value row ∈ c.linkedRows b pk := by
  show b.engine.compare .eq (Row.put c.childFkCol pk.value row c.childFkCol) pk.value = .yes
  rw [Row.put, if_pos rfl]
  exact pk.same

theorem put_null (row : Row) : Row.put c.childFkCol .null row ∉ c.linkedRows b pk := by
  show ¬ b.engine.compare .eq (Row.put c.childFkCol .null row c.childFkCol) pk.value = .yes
  rw [Row.put, if_pos rfl, b.engine.null_compare]
  exact nofun

theorem legal_connect : b.Legal (c.connect pk.value pks) ↔
    (pks = [] → b.d = .sqlite) ∧ b.Fits (1 + pks.length) := by
  show b.Conditional (.in_ _ _ pks false) ∧ b.Fits (1 + filterBinds b.size b.d (.in_ _ _ pks false)) ↔ _
  rw [b.conditional_in, filterBinds_in]

theorem legal_disconnect : b.Legal (c.disconnect pk.value pks) ↔
    (pks = [] → b.d = .sqlite) ∧ b.Fits (2 + pks.length) := by
  show b.Conditional (.and [.in_ _ _ pks false, .cmp _ _ .eq pk.value]) ∧
    b.Fits (1 + filterBinds b.size b.d (.and [.in_ _ _ pks false, .cmp _ _ .eq pk.value])) ↔ _
  rw [b.conditional_both pk.isNull, FilterNode.filterBinds_pair, filterBinds_in,
    FilterNode.filterBinds_eq pk.isNull, Nat.add_comm pks.length, ← Nat.add_assoc]

theorem legal_disconnectAll : b.Legal (c.disconnectAll pk.value) := by
  refine ⟨b.conditional_eq pk.isNull, ?_⟩
  rw [linked, FilterNode.filterBinds_eq pk.isNull]
  exact b.fits_few (Nat.le_refl 2)

theorem legal_delete : b.Legal (c.delete pk.value pks) ↔
    (pks = [] → b.d = .sqlite) ∧ b.Fits (1 + pks.length) := by
  show b.Conditional (.and [.in_ _ _ pks false, .cmp _ _ .eq pk.value]) ∧
    b.Fits (filterBinds b.size b.d (.and [.in_ _ _ pks false, .cmp _ _ .eq pk.value])) ↔ _
  rw [b.conditional_both pk.isNull, FilterNode.filterBinds_pair, filterBinds_in,
    FilterNode.filterBinds_eq pk.isNull, Nat.add_comm pks.length]

theorem becomes_connect (h : pks = [] → b.d = .sqlite) :
    c.Becomes b pk (c.linkedRows b pk ∪ c.namedRows b pks) (c.namedRows b pks) db
      (b.effect (c.connect pk.value pks) db) := by
  refine relinks_update (fun row _ => b.kept_in h) (fun row _ hin => ?_) fun row _ hout => ?_
  · exact iff_of_true (put_linked row) (Or.inr hin)
  · exact (or_iff_left hout).symm

theorem becomes_disconnect (h : pks = [] → b.d = .sqlite) :
    c.Becomes b pk (c.linkedRows b pk \ c.namedRows b pks) (c.linkedRows b pk ∩ c.namedRows b pks) db
      (b.effect (c.disconnect pk.value pks) db) := by
  refine relinks_update (fun row _ => b.kept_both h pk.isNull) (fun row _ hin => ?_) fun row _ hout => ?_
  · exact iff_of_false (put_null row) fun hdiff => hdiff.2 hin.2
  · exact ⟨fun hlinked => ⟨hlinked, fun hnamed => hout ⟨hlinked, hnamed⟩⟩, And.left⟩

theorem becomes_disconnectAll : c.Becomes b pk ∅ (c.linkedRows b pk) db
    (b.effect (c.disconnectAll pk.value) db) := by
  refine relinks_update (fun row _ => b.kept_eq pk.isNull) (fun row _ _ => ?_) fun row _ hout => ?_
  · exact iff_of_false (put_null row) (Set.notMem_empty row)
  · exact iff_of_false hout (Set.notMem_empty row)

theorem namedRows_nil : c.namedRows b [] = ∅ :=
  Set.eq_empty_of_forall_notMem fun _ hnamed => Truth.noConfusion hnamed

theorem named_congr {row row' : Row} (h : row' c.childPkCol = row c.childPkCol) :
    row' ∈ c.namedRows b pks ↔ row ∈ c.namedRows b pks := by
  show b.engine.isIn (row' c.childPkCol) pks = .yes ↔ b.engine.isIn (row c.childPkCol) pks = .yes
  rw [h]

-- All children are put out of the set, and then the named ones into it. A key that is not
-- NULL afterwards was not touched before.
theorem becomes_set (h : pks = [] → b.d = .sqlite)
    (hkey : ∀ row ∈ b.effect (c.disconnectAll pk.value) db c.childTable, (row c.childPkCol).isNull = false) :
    c.Becomes b pk (c.namedRows b pks) (c.linkedRows b pk ∪ c.namedRows b pks) db
      (b.effect (c.connect pk.value pks) (b.effect (c.disconnectAll pk.value) db)) := by
  generalize hmid : b.effect (c.disconnectAll pk.value) db = mid at hkey
  let clear : Row → Row := fun row =>
    if b.kept db c.childTable (c.linked pk.value) row then Row.put c.childFkCol .null row else row
  let link : Row → Row := fun row =>
    if b.kept mid c.childTable (c.named pks) row then Row.put c.childFkCol pk.value row else row
  have hrows : mid c.childTable = (db c.childTable).map clear := by
    rw [← hmid]
    exact if_pos rfl
  have hnext : b.effect (c.connect pk.value pks) mid = db.set c.childTable ((db c.childTable).map (link ∘ clear)) := by
    funext t
    show (if t = c.childTable then (mid c.childTable).map link else mid t) = _
    rw [hrows, List.map_map, ← hmid]
    by_cases ht : t = c.childTable
    · rw [if_pos ht, Database.set, if_pos ht]
    · rw [if_neg ht, Database.set, if_neg ht]
      exact if_neg ht
  rw [hnext]
  refine Relinks.of_map fun old hold => ?_
  have hmem : clear old ∈ mid c.childTable := hrows ▸ List.mem_map_of_mem hold
  have hcleared : clear old ∉ c.linkedRows b pk ∧ (∀ col, col ≠ c.childFkCol → clear old col = old col) ∧
      (old ∉ c.linkedRows b pk → clear old = old) ∧ clear old c.childPkCol = old c.childPkCol := by
    by_cases hlinked : b.kept db c.childTable (c.linked pk.value) old = true
    · have hclear : clear old = Row.put c.childFkCol .null old := if_pos hlinked
      have hin : old ∈ c.linkedRows b pk := (b.kept_eq pk.isNull).mp hlinked
      rw [hclear] at hmem ⊢
      refine ⟨put_null old, fun col hcol => Row.put_other hcol old, fun hout => absurd hin hout, ?_⟩
      refine Row.put_other (fun heq => ?_) old
      have hnull := hkey _ hmem
      rw [Row.put, if_pos heq] at hnull
      cases hnull
    · have hclear : clear old = old := if_neg hlinked
      have hout : old ∉ c.linkedRows b pk := fun hin => hlinked ((b.kept_eq pk.isNull).mpr hin)
      rw [hclear]
      exact ⟨hout, fun _ _ => rfl, fun _ => rfl, rfl⟩
  obtain ⟨hout, hcolumns, hsame, hpk⟩ := hcleared
  have hnamed : b.kept mid c.childTable (c.named pks) (clear old) = true ↔ old ∈ c.namedRows b pks :=
    (b.kept_in h).trans (named_congr hpk)
  by_cases hin : b.kept mid c.childTable (c.named pks) (clear old) = true
  · have hlink : (link ∘ clear) old = Row.put c.childFkCol pk.value (clear old) := if_pos hin
    rw [hlink]
    refine ⟨iff_of_true (put_linked _) (hnamed.mp hin), fun col hcol => ?_, fun huntouched => ?_⟩
    · rw [Row.put_other hcol, hcolumns col hcol]
    · exact absurd (Or.inr (hnamed.mp hin)) huntouched
  · have hlink : (link ∘ clear) old = clear old := if_neg hin
    rw [hlink]
    refine ⟨iff_of_false hout fun hold => hin (hnamed.mpr hold), hcolumns, fun huntouched => ?_⟩
    exact hsame fun hlinked => huntouched (Or.inl hlinked)

section Takes

variable {s : WriteServer S} {pk : ParentKey s.engine}

theorem takes_connect : s.server.legal (c.connect pk.value pks) ∧ s.server.accepts (c.connect pk.value pks) db ↔
    ((pks = [] → s.d = .sqlite) ∧ s.Fits (1 + pks.length)) ∧ s.allowed (s.effect (c.connect pk.value pks) db) := by
  refine and_congr ?_ Iff.rfl
  show s.Legal (c.connect pk.value pks) ↔ _
  rw [legal_connect]

theorem takes_disconnect :
    s.server.legal (c.disconnect pk.value pks) ∧ s.server.accepts (c.disconnect pk.value pks) db ↔
      ((pks = [] → s.d = .sqlite) ∧ s.Fits (2 + pks.length)) ∧
        s.allowed (s.effect (c.disconnect pk.value pks) db) := by
  refine and_congr ?_ Iff.rfl
  show s.Legal (c.disconnect pk.value pks) ↔ _
  rw [legal_disconnect]

theorem takes_disconnectAll :
    s.server.legal (c.disconnectAll pk.value) ∧ s.server.accepts (c.disconnectAll pk.value) db ↔
      s.allowed (s.effect (c.disconnectAll pk.value) db) :=
  and_iff_right legal_disconnectAll

theorem takes_delete : s.server.legal (c.delete pk.value pks) ∧ s.server.accepts (c.delete pk.value pks) db ↔
    ((pks = [] → s.d = .sqlite) ∧ s.Fits (1 + pks.length)) ∧ s.allowed (s.effect (c.delete pk.value pks) db) := by
  refine and_congr ?_ Iff.rfl
  show s.Legal (c.delete pk.value pks) ↔ _
  rw [legal_delete]

end Takes

end ChildColumns

namespace RelWrite

variable (s : WriteServer S) (w : RelWrite) (pk : ParentKey s.engine)

-- Union, difference and replacement.
def Reaches : Database → Database → Prop :=
  match w.action with
  | .connect => w.Becomes s.toDbms pk (w.linkedRows s.toDbms pk ∪ w.namedRows s.toDbms w.pks)
      (w.namedRows s.toDbms w.pks)
  | .disconnect => w.Becomes s.toDbms pk (w.linkedRows s.toDbms pk \ w.namedRows s.toDbms w.pks)
      (w.linkedRows s.toDbms pk ∩ w.namedRows s.toDbms w.pks)
  | .set => w.Becomes s.toDbms pk (w.namedRows s.toDbms w.pks)
      (w.linkedRows s.toDbms pk ∪ w.namedRows s.toDbms w.pks)

-- A list without keys is only known to SQLite, the keys have room in one statement, and
-- no constraint forbids what a statement makes.
def Ready (db : Database) : Prop :=
  (w.pks = [] → s.d = .sqlite) ∧
    match w.action with
    | .connect => s.Fits (1 + w.pks.length) ∧ s.allowed (s.effect (w.connect pk.value w.pks) db)
    | .disconnect => s.Fits (2 + w.pks.length) ∧ s.allowed (s.effect (w.disconnect pk.value w.pks) db)
    | .set => s.Fits (1 + w.pks.length) ∧ s.allowed (s.effect (w.disconnectAll pk.value) db) ∧
        s.allowed (s.effect (w.connect pk.value w.pks) (s.effect (w.disconnectAll pk.value) db))

variable {s w pk}

-- No child is without a key where the constraints are met.
theorem reaches_iff (hkey : ∀ db, s.allowed db → ∀ row ∈ db w.childTable, (row w.childPkCol).isNull = false)
    (db : Database) :
    Ensures s.server (w.executeUpdate s pk.value db) (w.Reaches s pk db) ↔ w.Ready s pk db := by
  have hconnect : Acts s.server (w.runConnect s pk.value) _ _ :=
    (acts_issue s.server (w.connect pk.value w.pks)).andDone Prod.fst
  have hdisconnect : Acts s.server (w.runDisconnect s pk.value) _ _ :=
    (acts_issue s.server (w.disconnect pk.value w.pks)).andDone Prod.fst
  have hclear : Acts s.server (w.runDisconnectAll s pk.value) _ _ :=
    (acts_issue s.server (w.disconnectAll pk.value)).andDone Prod.fst
  unfold executeUpdate Reaches Ready
  cases w.action with
  | connect =>
      refine (hconnect db _).trans ?_
      rw [ChildColumns.takes_connect]
      constructor
      · intro ⟨⟨⟨hvalues, hfits⟩, hallowed⟩, _⟩
        exact ⟨hvalues, hfits, hallowed⟩
      · intro ⟨hvalues, hfits, hallowed⟩
        exact ⟨⟨⟨hvalues, hfits⟩, hallowed⟩, ChildColumns.becomes_connect hvalues⟩
  | disconnect =>
      refine (hdisconnect db _).trans ?_
      rw [ChildColumns.takes_disconnect]
      constructor
      · intro ⟨⟨⟨hvalues, hfits⟩, hallowed⟩, _⟩
        exact ⟨hvalues, hfits, hallowed⟩
      · intro ⟨hvalues, hfits, hallowed⟩
        exact ⟨⟨⟨hvalues, hfits⟩, hallowed⟩, ChildColumns.becomes_disconnect hvalues⟩
  | set =>
      refine ((hclear.andThen fun total => hconnect.andDone fun more => total + more) db _).trans ?_
      dsimp only
      rw [ChildColumns.takes_disconnectAll, ChildColumns.takes_connect]
      constructor
      · intro ⟨⟨hmid, ⟨hvalues, hfits⟩, hallowed⟩, _⟩
        exact ⟨hvalues, hfits, hmid, hallowed⟩
      · intro ⟨hvalues, hfits, hmid, hallowed⟩
        refine ⟨⟨hmid, ⟨hvalues, hfits⟩, hallowed⟩, ?_⟩
        exact ChildColumns.becomes_set hvalues (hkey _ hmid)

end RelWrite

end Ruprizzle.Runtime
