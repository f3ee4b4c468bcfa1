import Mathlib.Data.List.Forall2
import Ruprizzle.Data.Fallible
import Ruprizzle.Runtime.Batching

namespace Ruprizzle.Runtime

open Batches

-- Relations with a key of the child, to many children or to one.

variable {S M Key : Type}

-- Some of the rows, put in order, or the first ones of them.
def Answers.Serves (answers : Answers S) (order : List OrderBy) (limit : Option Nat)
    (rows served : List Row) : Prop :=
  ∃ sorted : List Row, sorted.Perm rows ∧ sorted.Pairwise (answers.before order) ∧
    served = Answers.taken limit sorted

namespace Include

section

variable (answers : Answers S) (inc : Include S M Key)

def Sound : Prop :=
  answers.Matches inc.child inc.childColumn inc.childKey inc.toValue ∧
    inc.filter.Steady answers.d answers.reading

-- The rows that a parent is related to, which satisfy the filter and are live.
def related (p : M) : List Row :=
  answers.related inc.child inc.childColumn inc.toValue inc.filter (inc.getKey p)

def Serves (p : M) (served : List Row) : Prop :=
  answers.Serves inc.order inc.limit (inc.related answers p) served

end

variable {answers : Answers S} {inc : Include S M Key} {fullTable : Bool} {fullTableLimit : Int}
  {parents : List M}

theorem fast_eq (h : inc.fast answers fullTable fullTableLimit = true) :
    inc.filter = .and [] ∧ inc.order = [] ∧ inc.limit = none := by
  simp only [fast, Bool.and_eq_true, List.isEmpty_iff, Option.isNone_iff_eq_none] at h
  exact ⟨FilterNode.eq_and_nil h.1.1.1.2, h.1.1.2, h.1.2⟩

theorem related_eq_nil {p : M} (hnull : (inc.toValue (inc.getKey p)).isNull = true) :
    inc.related answers p = [] := by
  rw [related, Answers.related, List.filter_eq_nil_iff]
  intro row _ hrow
  simp [Answers.linked, compare_isNull hnull] at hrow

theorem serves_null {p : M} (hnull : (inc.toValue (inc.getKey p)).isNull = true) {served : List Row}
    (hserves : inc.Serves answers p served) : served = [] := by
  obtain ⟨sorted, hperm, -, rfl⟩ := hserves
  rw [related_eq_nil hnull] at hperm
  rw [hperm.eq_nil]
  cases inc.limit with
  | none => rfl
  | some n => exact List.take_nil

variable [DecidableEq Key]

section

variable (answers : Answers S) (inc : Include S M Key)

-- Where the whole table is read, no child is handed out for not having a key, and
-- otherwise no statement binds too many values.
def Ready (fullTable : Bool) (fullTableLimit : Int) (parents : List M) : Prop :=
  if inc.fast answers fullTable fullTableLimit then
    ∀ p ∈ parents, (inc.toValue (inc.getKey p)).isNull = true →
      ∀ row ∈ answers.db inc.child.table, row.live inc.child.deletedAtColumn = true →
        inc.childKey row ≠ inc.getKey p
  else
    ∀ piece ∈ chunks (chunkSize answers.d) (dedup (parents.map inc.getKey)),
      answers.fits inc.filter inc.order piece.length

end

theorem chunkSize_pos (d : Dialect) : 0 < chunkSize d := by
  unfold chunkSize
  omega

theorem before_windowOrder {m : Model} {order : List OrderBy} {rows : List Row}
    (h : rows.Pairwise (answers.before (windowOrder m order))) :
    rows.Pairwise (answers.before order) := by
  rw [windowOrder] at h
  split at h
  · next hempty =>
      rw [List.isEmpty_iff.mp hempty]
      exact List.pairwise_of_forall fun a b => answers.unordered a b
  · exact h

-- One piece of the keys.

theorem fits_of_fetches (h : inc.Sound answers) {piece : List Key} (hne : piece ≠ [])
    {batch : List Row} (hfetch : inc.Fetches answers piece batch) :
    answers.fits inc.filter inc.order piece.length := by
  rw [Fetches] at hfetch
  split at hfetch
  · exact ((Answers.partitions_chunk h.1 h.2 hne).mp hfetch).1
  · exact ((Answers.returns_chunk h.1 h.2 hne).mp hfetch).1

theorem serves_of_fetches (h : inc.Sound answers) {piece : List Key} (hne : piece ≠ [])
    {batch : List Row} (hfetch : inc.Fetches answers piece batch) :
    (∀ row ∈ batch, inc.childKey row ∈ piece) ∧ ∀ p, inc.getKey p ∈ piece →
      inc.Serves answers p (batch.filter fun row => inc.childKey row = inc.getKey p) := by
  rw [Fetches] at hfetch
  split at hfetch
  · next n hlimit =>
      obtain ⟨-, hparts⟩ := (Answers.partitions_chunk h.1 h.2 hne).mp hfetch
      refine ⟨fun row hrow => ?_, fun p hp => ?_⟩
      · obtain ⟨sorted, hperm, -, htake⟩ := hparts (inc.childKey row)
        have hmem : row ∈ sorted.take n := by
          rw [← htake, List.mem_filter]
          exact ⟨hrow, decide_eq_true rfl⟩
        have hkeyed := hperm.mem_iff.mp (List.mem_of_mem_take hmem)
        exact Answers.key_mem_keyed (List.mem_filter.mp hkeyed).1
      · obtain ⟨sorted, hperm, hsorted, htake⟩ := hparts (inc.getKey p)
        rw [Answers.filter_keyed h.1 hp] at hperm
        exact ⟨sorted, hperm, before_windowOrder hsorted, by rw [htake, hlimit]; rfl⟩
  · next hlimit =>
      obtain ⟨-, hperm, hsorted⟩ := (Answers.returns_chunk h.1 h.2 hne).mp hfetch
      refine ⟨fun row hrow => Answers.key_mem_keyed (hperm.mem_iff.mp hrow), fun p hp => ?_⟩
      have hkeyed := hperm.filter fun row => inc.childKey row = inc.getKey p
      rw [Answers.filter_keyed h.1 hp] at hkeyed
      exact ⟨_, hkeyed, hsorted.filter _, by rw [hlimit]; rfl⟩

theorem fetches_of_fits (h : inc.Sound answers) {piece : List Key} (hne : piece ≠ [])
    (hfits : answers.fits inc.filter inc.order piece.length) :
    ∃ batch, inc.Fetches answers piece batch := by
  cases hlimit : inc.limit with
  | none =>
      obtain ⟨sorted, hperm, hsorted⟩ := answers.sortable inc.order
        (answers.keyed inc.child inc.childKey inc.toValue inc.filter piece)
      refine ⟨sorted, ?_⟩
      rw [Fetches, hlimit]
      exact (Answers.returns_chunk h.1 h.2 hne).mpr ⟨hfits, hperm, hsorted⟩
  | some n =>
      let rows := answers.keyed inc.child inc.childKey inc.toValue inc.filter piece
      have hsortable : ∀ k, ∃ sorted : List Row,
          sorted.Perm (rows.filter fun row => inc.childKey row = k) ∧
          sorted.Pairwise (answers.before (windowOrder inc.child inc.order)) :=
        fun k => answers.sortable _ _
      choose sorted hperm hsorted using hsortable
      refine ⟨(dedup piece).flatMap fun k => (sorted k).take n, ?_⟩
      rw [Fetches, hlimit]
      refine (Answers.partitions_chunk h.1 h.2 hne).mpr
        ⟨hfits, fun k => ⟨sorted k, hperm k, hsorted k, ?_⟩⟩
      have hkeys : ∀ k ∈ dedup piece, ∀ row ∈ (sorted k).take n, inc.childKey row = k := by
        intro k _ row hrow
        have hmem := (hperm k).mem_iff.mp (List.mem_of_mem_take hrow)
        exact decide_eq_true_iff.mp (List.mem_filter.mp hmem).2
      rw [filter_flatMap (nodup_dedup piece) hkeys]
      split
      · rfl
      · next hnot =>
          have hk : k ∉ piece := fun hk => hnot (mem_dedup.mpr hk)
          have hnone : rows.filter (fun row => inc.childKey row = k) = [] := by
            rw [List.filter_eq_nil_iff]
            intro row hrow hkey
            exact hk (decide_eq_true_iff.mp hkey ▸ Answers.key_mem_keyed hrow)
          have hempty : sorted k = [] := List.Perm.eq_nil (hnone ▸ hperm k)
          rw [hempty, List.take_nil]

-- The whole table, less what is deleted.
theorem returns_new {m : Model} {rows : List Row} :
    answers.Returns (SelectQuery.new m) rows ↔
      rows.Perm ((answers.db m.table).filter fun row => row.live m.deletedAtColumn) := by
  have hshown : (SelectQuery.new m : SelectQuery S).Shown answers.d answers.reading :=
    SelectQuery.shown_new
  have hbinds : binds answers.size ((SelectQuery.new m : SelectQuery S).pushes answers.d) = 0 :=
    hshown.binds.trans (congrArg (· + 0) filterBinds_nil)
  have hrows : tableRows answers.engine answers.db answers.d answers.reading
      (SelectQuery.new m : SelectQuery S).model (SelectQuery.new m : SelectQuery S).effectiveFilter
      = (answers.db m.table).filter fun row => row.live m.deletedAtColumn := by
    rw [hshown.tableRows]
    refine List.filter_congr fun row _ => ?_
    have hall : answers.engine.holds answers.db answers.d answers.reading (m.env row)
        (.and [] : FilterNode S) = true := holds_and fun _ => FilterNode.steady_nil
    exact (congrArg (· && row.live m.deletedAtColumn) hall).trans (Bool.true_and _)
  rw [returns_alone hshown.join, hbinds, hrows]
  refine ⟨fun h => h.2.1, fun h => ⟨Nat.zero_le _, h, ?_⟩⟩
  exact List.pairwise_of_forall fun a b => answers.unordered a b

theorem serves_of_fast (h : inc.Sound answers) (hfast : inc.fast answers fullTable fullTableLimit = true)
    {children : List Row} (hreturns : answers.Returns (SelectQuery.new inc.child) children) {p : M}
    (hnull : (inc.toValue (inc.getKey p)).isNull = true →
      ∀ row ∈ answers.db inc.child.table, row.live inc.child.deletedAtColumn = true →
        inc.childKey row ≠ inc.getKey p) :
    inc.Serves answers p (children.filter fun row => inc.childKey row = inc.getKey p) := by
  obtain ⟨hfilter, horder, hlimit⟩ := fast_eq hfast
  have hperm := (returns_new.mp hreturns).filter fun row => inc.childKey row = inc.getKey p
  refine ⟨_, hperm.trans (.of_eq ?_), ?_, by rw [hlimit]; rfl⟩
  · rw [related, Answers.related, List.filter_filter]
    refine List.filter_congr fun row hrow => ?_
    have hall : answers.engine.holds answers.db answers.d answers.reading (inc.child.env row)
        (.and [] : FilterNode S) = true := holds_and fun _ => FilterNode.steady_nil
    have hlinked := h.1.linked_iff hrow (inc.getKey p)
    rw [Answers.chosen, hfilter, hall, Bool.true_and, Bool.eq_iff_iff, Bool.and_eq_true,
      Bool.and_eq_true, hlinked, decide_eq_true_iff]
    constructor
    · rintro ⟨hkey, hlive⟩
      refine ⟨⟨?_, hkey⟩, hlive⟩
      by_contra hnot
      exact hnull (Bool.not_eq_false _ ▸ hnot) row hrow hlive hkey
    · rintro ⟨⟨-, hkey⟩, hlive⟩
      exact ⟨hkey, hlive⟩
  · rw [horder]
    exact List.pairwise_of_forall fun a b => answers.unordered a b

-- The pieces of the keys cover those of the parents, once each.
theorem mem_pieces {p : M} (hp : p ∈ parents) :
    inc.getKey p ∈ (chunks (chunkSize answers.d) (dedup (parents.map inc.getKey))).flatten := by
  rw [flatten_chunks (chunkSize_pos _), mem_dedup]
  exact List.mem_map_of_mem hp

theorem nodup_pieces :
    (chunks (chunkSize answers.d) (dedup (parents.map inc.getKey))).flatten.Nodup := by
  rw [flatten_chunks (chunkSize_pos _)]
  exact nodup_dedup _

theorem serves_of_ready (h : inc.Sound answers) (hready : inc.Ready answers fullTable fullTableLimit parents)
    {children : List Row}
    (hfetch : inc.FetchChildren answers fullTable fullTableLimit (parents.map inc.getKey) children) :
    ∀ p ∈ parents, inc.Serves answers p (children.filter fun row => inc.childKey row = inc.getKey p) := by
  intro p hp
  rw [FetchChildren] at hfetch
  rw [Ready] at hready
  split at hfetch
  · next hfast =>
      rw [if_pos hfast] at hready
      exact serves_of_fast h hfast hfetch (hready p hp)
  · obtain ⟨batches, hbatches, rfl⟩ := hfetch
    have hpieces := (List.forall₂_and_left _ _).mpr
      ⟨fun piece hpiece => chunk_ne_nil (chunkSize_pos answers.d) hpiece, hbatches⟩
    obtain ⟨piece, batch, ⟨hne, hone⟩, hk, hfilter⟩ := filter_batches hpieces nodup_pieces
      (fun piece batch hone => (serves_of_fetches h hone.1 hone.2).1) (mem_pieces hp)
    rw [hfilter]
    exact (serves_of_fetches h hne hone).2 p hk

theorem fetch_of_ready (h : inc.Sound answers) (hready : inc.Ready answers fullTable fullTableLimit parents) :
    ∃ children, inc.FetchChildren answers fullTable fullTableLimit (parents.map inc.getKey) children := by
  rw [Ready] at hready
  split at hready
  · next hfast =>
      have hreturns : answers.Returns (SelectQuery.new inc.child)
          ((answers.db inc.child.table).filter fun row => row.live inc.child.deletedAtColumn) :=
        returns_new.mpr (List.Perm.refl _)
      exact ⟨_, by rw [FetchChildren, if_pos hfast]; exact hreturns⟩
  · next hslow =>
      have hall : ∀ piece ∈ chunks (chunkSize answers.d) (dedup (parents.map inc.getKey)),
          ∃ batch, inc.Fetches answers piece batch := fun piece hpiece =>
        fetches_of_fits h (chunk_ne_nil (chunkSize_pos answers.d) hpiece) (hready piece hpiece)
      obtain ⟨batches, hbatches⟩ := exists_batches hall
      refine ⟨batches.flatten, ?_⟩
      rw [FetchChildren, if_neg hslow]
      exact ⟨batches, hbatches, rfl⟩

-- What goes wrong elsewhere: a statement that is too large, or a child without a
-- key for a parent without one.
theorem ready_of_fetch (h : inc.Sound answers) {children : List Row}
    (hfetch : inc.FetchChildren answers fullTable fullTableLimit (parents.map inc.getKey) children)
    (hnull : ∀ p ∈ parents, (inc.toValue (inc.getKey p)).isNull = true →
      children.filter (fun row => inc.childKey row = inc.getKey p) = []) :
    inc.Ready answers fullTable fullTableLimit parents := by
  rw [FetchChildren] at hfetch
  rw [Ready]
  split at hfetch
  · next hfast =>
      rw [if_pos hfast]
      intro p hp hkey row hrow hlive heq
      have hmem : row ∈ children := by
        rw [(returns_new.mp hfetch).mem_iff, List.mem_filter]
        exact ⟨hrow, hlive⟩
      have hkept : row ∈ children.filter fun row => inc.childKey row = inc.getKey p :=
        List.mem_filter.mpr ⟨hmem, decide_eq_true heq⟩
      rw [hnull p hp hkey] at hkept
      exact List.not_mem_nil hkept
  · next hslow =>
      rw [if_neg hslow]
      obtain ⟨batches, hbatches, -⟩ := hfetch
      intro piece hpiece
      obtain ⟨batch, -, hone⟩ := Fallible.exists_given hbatches hpiece
      exact fits_of_fetches h (chunk_ne_nil (chunkSize_pos answers.d) hpiece) hone

theorem loadsList_eq {buckets : List (List Row)} :
    inc.LoadsList answers fullTable fullTableLimit parents buckets ↔ ∃ children,
      inc.FetchChildren answers fullTable fullTableLimit (parents.map inc.getKey) children ∧
      buckets = parents.map fun p => children.filter fun row => inc.childKey row = inc.getKey p := by
  simp only [LoadsList, distribute_positions, eq_comm]

theorem loadsOne_eq {found : List (Option Row)} :
    inc.LoadsOne answers fullTable fullTableLimit parents found ↔ ∃ children,
      inc.FetchChildren answers fullTable fullTableLimit (parents.map inc.getKey) children ∧
      found = parents.map fun p =>
        (children.filter fun row => inc.childKey row = inc.getKey p).head? := by
  simp only [LoadsOne, List.head?_filter]

-- Every parent is given its children.
theorem loadsList_iff (h : inc.Sound answers) :
    ((∃ buckets, inc.LoadsList answers fullTable fullTableLimit parents buckets) ∧
      ∀ buckets, inc.LoadsList answers fullTable fullTableLimit parents buckets →
        List.Forall₂ (inc.Serves answers) parents buckets) ↔
      inc.Ready answers fullTable fullTableLimit parents := by
  simp only [loadsList_eq]
  constructor
  · rintro ⟨⟨buckets, children, hfetch, -⟩, hserves⟩
    have hall := hserves _ ⟨children, hfetch, rfl⟩
    rw [List.forall₂_map_right_iff, List.forall₂_same] at hall
    exact ready_of_fetch h hfetch fun p hp hnull => serves_null hnull (hall p hp)
  · intro hready
    obtain ⟨children, hfetch⟩ := fetch_of_ready h hready
    refine ⟨⟨_, children, hfetch, rfl⟩, ?_⟩
    rintro buckets ⟨children, hfetch, rfl⟩
    rw [List.forall₂_map_right_iff, List.forall₂_same]
    exact serves_of_ready h hready hfetch

-- The one child, or none.
theorem loadsOne_iff (h : inc.Sound answers) :
    ((∃ found, inc.LoadsOne answers fullTable fullTableLimit parents found) ∧
      ∀ found, inc.LoadsOne answers fullTable fullTableLimit parents found →
        List.Forall₂ (fun p child => ∃ served, inc.Serves answers p served ∧ child = served.head?)
          parents found) ↔
      inc.Ready answers fullTable fullTableLimit parents := by
  simp only [loadsOne_eq]
  constructor
  · rintro ⟨⟨found, children, hfetch, -⟩, hserves⟩
    have hall := hserves _ ⟨children, hfetch, rfl⟩
    rw [List.forall₂_map_right_iff, List.forall₂_same] at hall
    refine ready_of_fetch h hfetch fun p hp hnull => ?_
    obtain ⟨served, hserved, hhead⟩ := hall p hp
    rw [serves_null hnull hserved, List.head?_nil, List.head?_eq_none_iff] at hhead
    exact hhead
  · intro hready
    obtain ⟨children, hfetch⟩ := fetch_of_ready h hready
    refine ⟨⟨_, children, hfetch, rfl⟩, ?_⟩
    rintro found ⟨children, hfetch, rfl⟩
    rw [List.forall₂_map_right_iff, List.forall₂_same]
    intro p hp
    exact ⟨_, serves_of_ready h hready hfetch p hp, rfl⟩

end Include

end Ruprizzle.Runtime
