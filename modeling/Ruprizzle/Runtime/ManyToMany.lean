import Ruprizzle.Runtime.Includes

namespace Ruprizzle.Runtime

open Batches

-- Relations through the rows of a join model.

variable {S M Key CKey : Type}

namespace IncludeMany

section

variable (answers : Answers S) (inc : IncludeMany S M Key CKey) [DecidableEq Key] [DecidableEq CKey]

structure Sound : Prop where
  owners : answers.Matches inc.join inc.joinOwnerCol inc.joinOwner inc.toValue
  targets : answers.Matches inc.child inc.targetPk inc.childKey inc.targetValue
  filter : inc.filter.Steady answers.d answers.reading

-- The join rows that belong to a parent.
def links (p : M) : List Row :=
  (answers.db inc.join.table).filter fun j =>
    answers.linked inc.joinOwnerCol inc.toValue (inc.getKey p) j && j.live inc.join.deletedAtColumn

-- The targets that satisfy the filter and are live, once for each link.
def related (p : M) : List Row :=
  ((answers.db inc.child.table).filter (answers.chosen inc.child inc.filter)).flatMap fun row =>
    List.replicate ((inc.links answers p).countP fun j =>
      answers.linked inc.targetPk inc.targetValue (inc.joinTarget j) row) row

def Serves (p : M) (served : List Row) : Prop :=
  answers.Serves inc.order inc.limit (inc.related answers p) served

-- The join rows of all parents, and how many targets they name.
def joinRows (parents : List M) : List Row :=
  answers.keyed inc.join inc.joinOwner inc.toValue (.and []) (dedup (parents.map inc.getKey))

def targetCount (parents : List M) : Nat :=
  (dedup ((inc.joinRows answers parents).map inc.joinTarget)).length

-- One statement for all targets, or no order among them.
def Ordered (parents : List M) : Prop :=
  inc.order = [] ∨ inc.targetCount answers parents ≤ chunkSize answers.d

def Fits (parents : List M) : Prop :=
  0 < inc.targetCount answers parents →
    answers.fits inc.filter inc.order (min (chunkSize answers.d) (inc.targetCount answers parents))

end

variable {answers : Answers S} {inc : IncludeMany S M Key CKey} {parents : List M}

theorem fits_joins {n : Nat} (h : n ≤ chunkSize answers.d) :
    answers.fits (.and [] : FilterNode S) inc.joinOrder n := by
  have horder : orderBinds answers.size answers.d inc.joinOrder = 0 := by
    simp [orderBinds, joinOrder, pushOrder, separated, pushOrderItem, pushOrderKey, pushColumn, binds,
      Push.bindCount]
  have hfilter : filterBinds answers.size answers.d (.and [] : FilterNode S) = 0 := filterBinds_nil
  have hroom : chunkSize answers.d ≤ maxQueryParams answers.d := by
    cases answers.d <;> decide
  rw [Answers.fits, horder, hfilter]
  omega

section

variable [DecidableEq CKey]

theorem fetchesTargets_iff (h : inc.Sound answers) {keys : List CKey} (hne : keys ≠ [])
    {rows : List Row} : inc.FetchesTargets answers keys rows ↔
      answers.fits inc.filter inc.order keys.length ∧
      rows.Perm (answers.keyed inc.child inc.childKey inc.targetValue inc.filter keys) ∧
      rows.Pairwise (answers.before inc.order) :=
  Answers.returns_chunk h.targets h.filter hne

theorem perm_targets (h : inc.Sound answers) {keys : List CKey} {batches : List (List Row)}
    (hnodup : keys.Nodup)
    (hbatches : List.Forall₂ (inc.FetchesTargets answers) (chunks (chunkSize answers.d) keys) batches) :
    batches.flatten.Perm (answers.keyed inc.child inc.childKey inc.targetValue inc.filter keys) := by
  have hperm : List.Forall₂ (fun piece batch => batch.Perm
      (answers.keyed inc.child inc.childKey inc.targetValue inc.filter piece))
      (chunks (chunkSize answers.d) keys) batches := by
    have hpieces := (List.forall₂_and_left _ _).mpr ⟨fun piece hpiece =>
      chunk_ne_nil (Include.chunkSize_pos answers.d) hpiece, hbatches⟩
    exact hpieces.imp fun piece batch hone => ((fetchesTargets_iff h hone.1).mp hone.2).2.1
  have hflat : (chunks (chunkSize answers.d) keys).flatten = keys :=
    flatten_chunks (Include.chunkSize_pos _) _
  have hall := perm_batches hperm (hflat.symm ▸ hnodup)
  rw [hflat] at hall
  exact hall

-- One statement puts all targets in order.
theorem sorted_targets (h : inc.Sound answers) {keys : List CKey} {batches : List (List Row)}
    (horder : inc.order = [] ∨ keys.length ≤ chunkSize answers.d)
    (hbatches : List.Forall₂ (inc.FetchesTargets answers) (chunks (chunkSize answers.d) keys) batches) :
    batches.flatten.Pairwise (answers.before inc.order) := by
  rcases horder with horder | hlength
  · rw [horder]
    exact List.pairwise_of_forall fun a b => answers.unordered a b
  · by_cases hne : keys = []
    · have hnone : chunks (chunkSize answers.d) keys = [] := by
        rw [hne]
        rfl
      rw [hnone, List.forall₂_nil_left_iff] at hbatches
      rw [hbatches]
      exact List.Pairwise.nil
    · rw [chunks_single hne hlength] at hbatches
      obtain ⟨batch, more, hone, hmore, rfl⟩ := List.forall₂_cons_left_iff.mp hbatches
      rw [List.forall₂_nil_left_iff] at hmore
      rw [hmore, List.flatten_cons, List.flatten_nil, List.append_nil]
      exact ((fetchesTargets_iff h hne).mp hone).2.2

end

section

variable [DecidableEq Key]

theorem fetchesJoins_iff (h : inc.Sound answers) {keys : List Key} (hne : keys ≠ [])
    (hlength : keys.length ≤ chunkSize answers.d) {rows : List Row} :
    inc.FetchesJoins answers keys rows ↔
      rows.Perm (answers.keyed inc.join inc.joinOwner inc.toValue (.and []) keys) ∧
        rows.Pairwise (answers.before inc.joinOrder) := by
  have hchunk : inc.FetchesJoins answers keys rows ↔
      answers.fits (.and []) inc.joinOrder keys.length ∧
      rows.Perm (answers.keyed inc.join inc.joinOwner inc.toValue (.and []) keys) ∧
      rows.Pairwise (answers.before inc.joinOrder) :=
    Answers.returns_chunk h.owners FilterNode.steady_nil hne
  rw [hchunk]
  exact ⟨fun hall => hall.2, fun hall => ⟨fits_joins hlength, hall⟩⟩

theorem perm_joinRows (h : inc.Sound answers) {batches : List (List Row)}
    (hbatches : List.Forall₂ (inc.FetchesJoins answers)
      (chunks (chunkSize answers.d) (dedup (parents.map inc.getKey))) batches) :
    batches.flatten.Perm (inc.joinRows answers parents) := by
  have hperm : List.Forall₂ (fun piece batch => batch.Perm
      (answers.keyed inc.join inc.joinOwner inc.toValue (.and []) piece))
      (chunks (chunkSize answers.d) (dedup (parents.map inc.getKey))) batches := by
    have hpieces := (List.forall₂_and_left _ _).mpr ⟨fun piece hpiece =>
      And.intro (chunk_ne_nil (Include.chunkSize_pos answers.d) hpiece) (length_chunk hpiece), hbatches⟩
    refine hpieces.imp fun piece batch hone => ?_
    exact ((fetchesJoins_iff h hone.1.1 hone.1.2).mp hone.2).1
  have hflat : (chunks (chunkSize answers.d) (dedup (parents.map inc.getKey))).flatten
      = dedup (parents.map inc.getKey) := flatten_chunks (Include.chunkSize_pos _) _
  have hall := perm_batches hperm (hflat.symm ▸ nodup_dedup _)
  rw [hflat] at hall
  exact hall

theorem exists_joins (h : inc.Sound answers) :
    ∃ batches, List.Forall₂ (inc.FetchesJoins answers)
      (chunks (chunkSize answers.d) (dedup (parents.map inc.getKey))) batches := by
  refine exists_batches fun piece hpiece => ?_
  obtain ⟨rows, hperm, hsorted⟩ := answers.sortable inc.joinOrder
    (answers.keyed inc.join inc.joinOwner inc.toValue (.and []) piece)
  exact ⟨rows, (fetchesJoins_iff h (chunk_ne_nil (Include.chunkSize_pos _) hpiece)
    (length_chunk hpiece)).mpr ⟨hperm, hsorted⟩⟩

variable [DecidableEq CKey]

theorem length_targets {joinRows : List Row} (h : joinRows.Perm (inc.joinRows answers parents)) :
    (dedup (joinRows.map inc.joinTarget)).length = inc.targetCount answers parents :=
  length_dedup (h.map _)

-- How often a target is put into the bucket of a parent.
theorem count_parents {joinRows : List Row} {i : Nat} {p : M} (hi : parents[i]? = some p)
    (target : CKey) : (inc.childToParents parents joinRows target).count i
      = joinRows.countP fun j => inc.joinTarget j = target ∧ inc.getKey p = inc.joinOwner j := by
  rw [childToParents, List.count_flatMap]
  induction joinRows with
  | nil => rfl
  | cons j rest ih =>
      rw [List.countP_cons, List.filter_cons, ← ih]
      by_cases htarget : inc.joinTarget j = target
      · simp [htarget, count_positions hi, Nat.add_comm]
      · simp [htarget]

theorem distribute_targets (joinRows children : List Row) :
    distribute (inc.childToParents parents joinRows) inc.childKey parents.length children
      = parents.map fun p => children.flatMap fun row => List.replicate (joinRows.countP fun j =>
          inc.joinTarget j = inc.childKey row ∧ inc.getKey p = inc.joinOwner j) row := by
  refine List.ext_getElem? fun i => ?_
  rw [getElem_distribute, List.getElem?_map]
  by_cases hi : i < parents.length
  · rw [if_pos hi, List.getElem?_eq_getElem hi, Option.map_some]
    simp only [count_parents (List.getElem?_eq_getElem hi)]
  · rw [if_neg hi, List.getElem?_eq_none (Nat.le_of_not_lt hi)]
    rfl

theorem chosen_trivial (m : Model) (row : Row) :
    answers.chosen m (.and [] : FilterNode S) row = row.live m.deletedAtColumn := by
  have hall : answers.engine.holds answers.db answers.d answers.reading (m.env row)
      (.and [] : FilterNode S) = true := holds_and fun _ => FilterNode.steady_nil
  rw [Answers.chosen, hall, Bool.true_and]

-- What links a target to a parent was fetched for the parent.
theorem countP_links (h : inc.Sound answers) {p : M} (hp : p ∈ parents) {row : Row}
    (hrow : row ∈ answers.db inc.child.table) :
    (inc.links answers p).countP (fun j =>
        answers.linked inc.targetPk inc.targetValue (inc.joinTarget j) row)
      = if (inc.targetValue (inc.childKey row)).isNull then 0
        else (inc.joinRows answers parents).countP fun j =>
          inc.joinTarget j = inc.childKey row ∧ inc.getKey p = inc.joinOwner j := by
  have hkey : inc.getKey p ∈ dedup (parents.map inc.getKey) :=
    mem_dedup.mpr (List.mem_map_of_mem hp)
  cases hnull : (inc.targetValue (inc.childKey row)).isNull
  · rw [if_neg (by simp), links, joinRows, Answers.keyed, List.countP_filter, List.countP_filter]
    refine List.countP_congr fun j hj => ?_
    have howner := h.owners.linked_iff hj (inc.getKey p)
    have htarget := h.targets.linked_iff hrow (inc.joinTarget j)
    simp only [chosen_trivial, Bool.and_eq_true, decide_eq_true_iff, howner, htarget,
      Bool.not_eq_true']
    constructor
    · rintro ⟨⟨-, hsame⟩, ⟨hfound, hfrom⟩, hlive⟩
      rw [hfrom]
      exact ⟨⟨hsame.symm, rfl⟩, hkey, hfound, hlive⟩
    · rintro ⟨⟨hsame, hfrom⟩, -, hfound, hlive⟩
      rw [hsame, hfrom]
      exact ⟨⟨hnull, rfl⟩, ⟨hfound, rfl⟩, hlive⟩
  · rw [if_pos rfl, List.countP_eq_zero]
    intro j _ hlinked
    obtain ⟨hfound, hsame⟩ := (h.targets.linked_iff hrow (inc.joinTarget j)).mp hlinked
    rw [← hsame, hnull] at hfound
    exact absurd hfound (by simp)

theorem perm_bucket (h : inc.Sound answers) {joinRows children : List Row}
    (hjoins : joinRows.Perm (inc.joinRows answers parents))
    (hchildren : children.Perm (answers.keyed inc.child inc.childKey inc.targetValue inc.filter
      (dedup (joinRows.map inc.joinTarget)))) {p : M} (hp : p ∈ parents) :
    (children.flatMap fun row => List.replicate (joinRows.countP fun j =>
      inc.joinTarget j = inc.childKey row ∧ inc.getKey p = inc.joinOwner j) row).Perm
        (inc.related answers p) := by
  refine (hchildren.flatMap_right _).trans (.of_eq ?_)
  rw [Answers.keyed, flatMap_filter, related, flatMap_filter]
  refine List.flatMap_congr fun row hrow => ?_
  rw [countP_links h hp hrow, ← hjoins.countP_eq]
  by_cases hnamed : inc.childKey row ∈ dedup (joinRows.map inc.joinTarget)
  · cases hnull : (inc.targetValue (inc.childKey row)).isNull <;>
      cases hchosen : answers.chosen inc.child inc.filter row <;> simp [hnamed]
  · have hnone : (joinRows.countP fun j =>
        inc.joinTarget j = inc.childKey row ∧ inc.getKey p = inc.joinOwner j) = 0 := by
      rw [List.countP_eq_zero]
      intro j hj hlinked
      rw [decide_eq_true_iff] at hlinked
      exact hnamed (mem_dedup.mpr (List.mem_map.mpr ⟨j, hj, hlinked.1⟩))
    rw [hnone]
    cases hchosen : answers.chosen inc.child inc.filter row <;> simp [hnamed]

-- Every parent is given its targets, as long as no order is lost between pieces.
theorem loads_iff (h : inc.Sound answers) (hordered : inc.Ordered answers parents) :
    ((∃ buckets, inc.Loads answers parents buckets) ∧
      ∀ buckets, inc.Loads answers parents buckets →
        List.Forall₂ (inc.Serves answers) parents buckets) ↔ inc.Fits answers parents := by
  constructor
  · rintro ⟨⟨buckets, joinBatches, hjoins, batches, hbatches, -⟩, -⟩ hsome
    have hlength := length_targets (perm_joinRows h hjoins)
    have hne : dedup (joinBatches.flatten.map inc.joinTarget) ≠ [] := by
      intro hnil
      rw [hnil, List.length_nil] at hlength
      omega
    obtain ⟨batch, -, hone⟩ := Fallible.exists_given hbatches (take_mem_chunks hne)
    have hpiece := chunk_ne_nil (Include.chunkSize_pos answers.d) (take_mem_chunks hne)
    have hfits := ((fetchesTargets_iff h hpiece).mp hone).1
    rw [List.length_take, hlength] at hfits
    exact hfits
  · intro hfits
    refine ⟨?_, ?_⟩
    · have hexists : ∃ batches, List.Forall₂ (inc.FetchesJoins answers)
          (chunks (chunkSize answers.d) (dedup (parents.map inc.getKey))) batches := exists_joins h
      obtain ⟨joinBatches, hjoins⟩ := hexists
      have hlength := length_targets (perm_joinRows h hjoins)
      have hall : ∀ piece ∈ chunks (chunkSize answers.d)
          (dedup (joinBatches.flatten.map inc.joinTarget)),
          ∃ batch, inc.FetchesTargets answers piece batch := by
        intro piece hpiece
        have hne := chunk_ne_nil (Include.chunkSize_pos answers.d) hpiece
        obtain ⟨rows, hperm, hsorted⟩ := answers.sortable inc.order
          (answers.keyed inc.child inc.childKey inc.targetValue inc.filter piece)
        refine ⟨rows, (fetchesTargets_iff h hne).mpr ⟨?_, hperm, hsorted⟩⟩
        have hle : piece.length ≤ inc.targetCount answers parents := by
          rw [← hlength, ← flatten_chunks (Include.chunkSize_pos answers.d)
            (dedup (joinBatches.flatten.map inc.joinTarget))]
          exact (List.sublist_flatten_of_mem hpiece).length_le
        have hsize := length_chunk hpiece
        have hpos := List.length_pos_of_ne_nil hne
        have hroom := hfits (by omega)
        rw [Answers.fits] at hroom ⊢
        omega
      obtain ⟨batches, hbatches⟩ := exists_batches hall
      exact ⟨_, joinBatches, hjoins, batches, hbatches, rfl⟩
    · rintro buckets ⟨joinBatches, hjoins, batches, hbatches, rfl⟩
      have hperm := perm_joinRows h hjoins
      have hsorted := sorted_targets h (hordered.imp_right fun hle => (length_targets hperm).le.trans hle)
        hbatches
      have hchildren := perm_targets h (nodup_dedup _) hbatches
      rw [distribute_targets, List.map_map, List.forall₂_map_right_iff, List.forall₂_same]
      intro p hp
      exact ⟨_, perm_bucket h hperm hchildren hp,
        pairwise_flatMap_replicate (answers.reflexive inc.order) _ hsorted, rfl⟩

end

end IncludeMany

def wholeKey (column : String) (row : Row) : Option Int :=
  match row column with
  | .i64 n => some n
  | _ => none

def wholeValue : Option Int → Value
  | some n => .i64 n
  | none => .null

def plain (table : String) (columns : List String) : Model := ⟨table, columns, "id", none⟩

def byCode : Include Empty Row (Option Int) :=
  ⟨wholeKey "code", plain "posts" ["id", "code"], "code", wholeKey "code", wholeValue, .and [], [],
    none⟩

def byTag : IncludeMany Empty Row (Option Int) (Option Int) :=
  ⟨wholeKey "id", plain "post_tags" ["id", "post_id", "tag_id"], wholeKey "post_id",
    wholeKey "tag_id", "post_id", "tag_id", plain "tags" ["id"], wholeKey "id", "id", wholeValue,
    wholeValue, .and [], [], none⟩

def inAnyOrder (tables : List (String × List Row)) : Answers Empty where
  engine := wholeNumbers
  db := tablesOf tables
  d := .sqlite
  reading := Empty.elim
  size := Empty.elim
  before _ _ _ := True
  unordered _ _ := trivial
  reflexive _ _ := trivial
  sortable _ rows := ⟨rows, .refl _, List.pairwise_of_forall fun _ _ => trivial⟩

theorem matches_whole (tables : List (String × List Row)) (m : Model) (column : String) :
    (inAnyOrder tables).Matches m column (wholeKey column) wholeValue := by
  intro row _ k hk
  cases k with
  | none => simp [wholeValue, Value.isNull] at hk
  | some n =>
      have hcompare : ∀ v : Value, wholeNumbers.compare .eq v (.i64 n) = .yes ↔ v = .i64 n := by
        intro v
        cases v <;> simp [wholeNumbers]
      show wholeNumbers.compare .eq (row column) (.i64 n) = .yes ↔ wholeKey column row = some n
      rw [hcompare, wholeKey]
      cases row column <;> simp

theorem sound_byCode (tables : List (String × List Row)) : byCode.Sound (inAnyOrder tables) :=
  ⟨matches_whole tables _ _, FilterNode.steady_nil⟩

theorem sound_byTag (tables : List (String × List Row)) : byTag.Sound (inAnyOrder tables) :=
  ⟨matches_whole tables _ _, matches_whole tables _ _, FilterNode.steady_nil⟩

def onePostTag : Answers Empty := inAnyOrder
  [("posts", [rowOf [("id", .i64 7), ("code", .i64 1)]]), ("tags", [rowOf [("id", .i64 2)]]),
    ("post_tags", [rowOf [("id", .i64 1), ("post_id", .i64 7), ("tag_id", .i64 2)]])]

def firstPost : Row := rowOf [("id", .i64 7), ("code", .i64 1)]

def twoWithoutCode : Answers Empty := inAnyOrder [("posts", [rowOf [("id", .i64 7)]])]

end Ruprizzle.Runtime
