import Mathlib.Data.List.Infix
import Ruprizzle.Data.Splitting
import Ruprizzle.Data.Walks
import Ruprizzle.Runtime.Compiler
import Ruprizzle.Runtime.Rows

namespace Ruprizzle.Runtime

open Walks Splitting

-- Queries for what is below or above a row of a table that refers to itself.

inductive HierarchyDirection
  | ancestors
  | descendants
  deriving DecidableEq, Repr

structure HierarchyQuery where
  model : Model
  table : String
  pkCol : String
  parentFkCol : String
  startId : Value
  direction : HierarchyDirection
  maxDepth : Option Nat
  orderByDepth : Option SortOrder
  cycleProtection : Bool
  withDeleted : Bool

namespace HierarchyQuery

def new (model : Model) (table pkCol parentFkCol : String) (startId : Value)
    (direction : HierarchyDirection) : HierarchyQuery :=
  ⟨model, table, pkCol, parentFkCol, startId, direction, none, none, true, false⟩

def defaultDepthCap : Nat := 100

-- The path of the first rows, the longer path of those that follow, and the condition
-- that the next row is not on it.
def cycleGuard (d : Dialect) (qPk : String) : String × String × String :=
  match d with
  | .postgres =>
      (", ',' || CAST(" ++ qPk ++ " AS TEXT) || ',' AS __path",
        ", h.__path || CAST(c." ++ qPk ++ " AS TEXT) || ',' AS __path",
        " AND strpos(h.__path, ',' || CAST(c." ++ qPk ++ " AS TEXT) || ',') = 0")
  | .mysql =>
      (", CAST(CONCAT(',', " ++ qPk ++ ", ',') AS CHAR(16383)) AS __path",
        ", CONCAT(h.__path, c." ++ qPk ++ ", ',') AS __path",
        " AND LOCATE(CONCAT(',', c." ++ qPk ++ ", ','), h.__path) = 0")
  | .sqlite =>
      (", ',' || " ++ qPk ++ " || ',' AS __path",
        ", h.__path || c." ++ qPk ++ " || ',' AS __path",
        " AND instr(h.__path, ',' || c." ++ qPk ++ " || ',') = 0")

def depthLimit (q : HierarchyQuery) : Option Nat :=
  match q.maxDepth, q.cycleProtection with
  | some max, _ => some max
  | none, true => some defaultDepthCap
  | none, false => none

def liveColumn (q : HierarchyQuery) : Option String :=
  match q.model.deletedAtColumn with
  | some col => if q.withDeleted then none else some col
  | none => none

def toSql (d : Dialect) (q : HierarchyQuery) : CompiledSql :=
  let qTable := d.quoteIdent q.table
  let qPk := d.quoteIdent q.pkCol
  let qParentFk := d.quoteIdent q.parentFkCol
  let cols := if q.model.columns = [] then ["*"] else q.model.columns.map d.quoteIdent
  let colsStr := ", ".intercalate cols
  let cColsStr :=
    if q.model.columns = [] then "c.*" else ", ".intercalate (cols.map fun c => "c." ++ c)
  let joinCond :=
    match q.direction with
    | .descendants => "c." ++ qParentFk ++ " = h." ++ qPk
    | .ancestors => "c." ++ qPk ++ " = h." ++ qParentFk
  let depthCond :=
    match q.depthLimit with
    | some max => "h.__depth < " ++ toString max
    | none => "1 = 1"
  let (anchorPath, stepPath, notVisited) :=
    if q.cycleProtection then cycleGuard d qPk else ("", "", "")
  let (anchorLive, stepLive) :=
    match q.liveColumn with
    | some col =>
        (" AND " ++ d.quoteIdent col ++ " IS NULL", " AND c." ++ d.quoteIdent col ++ " IS NULL")
    | none => ("", "")
  let orderClause :=
    match q.orderByDepth with
    | some .asc => " ORDER BY __depth ASC"
    | some .desc => " ORDER BY __depth DESC"
    | none => ""
  let head := "WITH RECURSIVE __hierarchy AS (\n  SELECT " ++ colsStr ++ ", 0 AS __depth" ++
    anchorPath ++ " FROM " ++ qTable ++ " WHERE " ++ qPk ++ " = "
  let tail := anchorLive ++ "\n  UNION ALL\n  SELECT " ++ cColsStr ++
    ", h.__depth + 1 AS __depth" ++ stepPath ++ " FROM " ++ qTable ++
    " c JOIN __hierarchy h ON " ++ joinCond ++ " WHERE " ++ depthCond ++ stepLive ++ notVisited ++
    "\n)\nSELECT " ++ colsStr ++ " FROM __hierarchy" ++ orderClause
  ⟨head.toList ++ placeholder d 0 ++ tail.toList, [q.startId]⟩

-- What a database makes of the statement. It works on rows with a depth and a path, and
-- casts a key to its text.

structure PathRow (M : Type) where
  item : M
  depth : Nat
  path : List Char

variable (engine : Engine) (textOf : Value → List Char) {M : Type} (cells : M → Row)
  (table : List M) (q : HierarchyQuery)

def keyText (a : M) : List Char := textOf (cells a q.pkCol)

def starts (a : M) : Bool :=
  engine.compare .eq (cells a q.pkCol) q.startId = .yes && (cells a).live q.liveColumn

def joins (c h : M) : Bool :=
  match q.direction with
  | .descendants => engine.compare .eq (cells c q.parentFkCol) (cells h q.pkCol) = .yes
  | .ancestors => engine.compare .eq (cells c q.pkCol) (cells h q.parentFkCol) = .yes

def anchor : List (PathRow M) :=
  (table.filter (q.starts engine cells)).map fun a =>
    ⟨a, 0, ',' :: (q.keyText textOf cells a ++ [','])⟩

def visited (path key : List Char) : Bool := decide (',' :: (key ++ [',']) <:+: path)

def stepRow (h : PathRow M) : List (PathRow M) :=
  (table.filter fun c => q.joins engine cells c h.item && q.depthLimit.all (h.depth < ·) &&
      (cells c).live q.liveColumn &&
      !(q.cycleProtection && visited h.path (q.keyText textOf cells c))).map fun c =>
    ⟨c, h.depth + 1, h.path ++ q.keyText textOf cells c ++ [',']⟩

-- The rows that the statement may answer, each with the depth they are ordered by.
structure Answers (result : List (M × Nat)) : Prop where
  rows : ∃ out, Evaluates (q.stepRow engine textOf cells table) (q.anchor engine textOf cells table)
    out ∧ result.Perm (out.map fun r => (r.item, r.depth))
  ascending : q.orderByDepth = some .asc → result.Pairwise fun a b => a.2 ≤ b.2
  descending : q.orderByDepth = some .desc → result.Pairwise fun a b => b.2 ≤ a.2

-- The key column identifies the rows, and the texts of the keys do too and have no comma.
structure KeyColumn : Prop where
  distinct : table.Nodup
  symm : ∀ v w, engine.compare .eq v w = .yes → engine.compare .eq w v = .yes
  unique : ∀ a ∈ table, ∀ b ∈ table, ∀ v, engine.compare .eq (cells a q.pkCol) v = .yes →
    engine.compare .eq (cells b q.pkCol) v = .yes → a = b
  texts : ∀ a ∈ table, ∀ b ∈ table, q.keyText textOf cells a = q.keyText textOf cells b → a = b
  commaFree : ∀ a ∈ table, ',' ∉ q.keyText textOf cells a

-- The live rows that a step leads to.
def follows (h : M) : List M :=
  table.filter fun c => q.joins engine cells c h && (cells c).live q.liveColumn

def ofWalk : List M → Option (PathRow M)
  | [] => none
  | a :: rest =>
      some ⟨a, rest.length, delimited ',' ((a :: rest).reverse.map (q.keyText textOf cells))⟩

variable {engine textOf cells table q} {a : M} {w : List M} {n limit : Nat}

theorem follows_nodup (h : q.KeyColumn engine textOf cells table) (a : M) :
    (q.follows engine cells table a).Nodup := h.distinct.filter _

theorem mem_follows {h c : M} : c ∈ q.follows engine cells table h ↔
    c ∈ table ∧ q.joins engine cells c h = true ∧ (cells c).live q.liveColumn = true := by
  rw [follows, List.mem_filter, Bool.and_eq_true]

-- No row has two parents, and so none is led to by two, or leads to two.
theorem simple_unique (h : q.KeyColumn engine textOf cells table) {s : M} (hs : s ∈ table)
    {v : List M} (hw : Simple (q.follows engine cells table) s (a :: w))
    (hv : Simple (q.follows engine cells table) s (a :: v)) : w = v := by
  have hmet : ∀ {a}, Met (q.follows engine cells table) s a → a ∈ table := by
    rintro a (rfl | ⟨b, hb⟩)
    · exact hs
    · exact (mem_follows.mp hb).1
  cases hdirection : q.direction with
  | descendants =>
      refine eq_of_backward (fun a b x ha hb hxa hxb => ?_) hw hv
      have hja := (mem_follows.mp hxa).2.1
      have hjb := (mem_follows.mp hxb).2.1
      rw [joins, hdirection] at hja hjb
      exact h.unique a (hmet ha) b (hmet hb) _ (h.symm _ _ (of_decide_eq_true hja))
        (h.symm _ _ (of_decide_eq_true hjb))
  | ancestors =>
      refine eq_of_forward (fun a b x ha hb => ?_) hw hv
      obtain ⟨hamem, hja, -⟩ := mem_follows.mp ha
      obtain ⟨hbmem, hjb, -⟩ := mem_follows.mp hb
      rw [joins, hdirection] at hja hjb
      exact h.unique a hamem b hbmem _ (of_decide_eq_true hja) (of_decide_eq_true hjb)

variable [DecidableEq M]

-- The path holds the key of a row exactly where the walk has come to the row.
theorem visited_iff (h : q.KeyColumn engine textOf cells table) (hw : ∀ a ∈ w, a ∈ table)
    (ha : a ∈ table) : visited (delimited ',' (w.reverse.map (q.keyText textOf cells)))
      (q.keyText textOf cells a) = decide (a ∈ w) := by
  have hkeys : ∀ k ∈ w.reverse.map (q.keyText textOf cells), ',' ∉ k := by
    intro k hk
    obtain ⟨b, hb, rfl⟩ := List.mem_map.mp hk
    exact h.commaFree b (hw b (List.mem_reverse.mp hb))
  rw [visited, decide_eq_decide, infix_delimited_iff hkeys (h.commaFree a ha), List.mem_map]
  constructor
  · rintro ⟨b, hb, heq⟩
    have hb' := List.mem_reverse.mp hb
    exact h.texts b (hw b hb') a ha heq ▸ hb'
  · exact fun hmem => ⟨a, List.mem_reverse.mpr hmem, rfl⟩

-- A round of the statement takes each walk as far as the walk itself goes on.
theorem stepRow_ofWalk (h : q.KeyColumn engine textOf cells table) (hq : q.cycleProtection = true)
    (hlimit : q.depthLimit = some limit) (hw : ∀ b ∈ a :: w, b ∈ table) (hlt : w.length < limit) :
    q.stepRow engine textOf cells table
        ⟨a, w.length, delimited ',' ((a :: w).reverse.map (q.keyText textOf cells))⟩ =
      (extensions (q.follows engine cells table) (a :: w)).filterMap (q.ofWalk textOf cells) := by
  have hsame : (table.filter fun c => q.joins engine cells c a &&
      q.depthLimit.all (w.length < ·) && (cells c).live q.liveColumn &&
      !(q.cycleProtection && visited (delimited ',' ((a :: w).reverse.map (q.keyText textOf cells)))
        (q.keyText textOf cells c))) =
      (q.follows engine cells table a).filter (· ∉ a :: w) := by
    rw [follows, List.filter_filter]
    refine List.filter_congr fun c hc => ?_
    rw [visited_iff h hw hc, hq, hlimit, Option.all_some, decide_eq_true hlt, decide_not]
    cases q.joins engine cells c a <;> cases (cells c).live q.liveColumn <;> simp
  rw [stepRow, hsame, extensions, List.filterMap_map]
  have hone : (q.ofWalk textOf cells ∘ fun b => b :: a :: w) = fun b => some ⟨b, w.length + 1,
      delimited ',' ((a :: w).reverse.map (q.keyText textOf cells)) ++
        q.keyText textOf cells b ++ [',']⟩ := by
    funext b
    rw [Function.comp_apply, ofWalk, List.reverse_cons (a := b), List.map_append,
      List.map_singleton, delimited_concat]
    rfl
  rw [hone, List.filterMap_eq_map']

section Start

variable {s : M} (h : q.KeyColumn engine textOf cells table) (hq : q.cycleProtection = true)
  (hlimit : q.depthLimit = some limit) (hs : table.filter (q.starts engine cells) = [s])
include hs

omit [DecidableEq M] in
theorem start_mem : s ∈ table := (List.mem_filter.mp (hs ▸ List.mem_singleton_self s)).1

omit [DecidableEq M] in
theorem walk_mem (hw : Simple (q.follows engine cells table) s w) (ha : a ∈ w) : a ∈ table := by
  obtain ⟨before, after, rfl⟩ := List.append_of_mem ha
  rcases hw.later.met with rfl | ⟨b, hb⟩
  · exact start_mem hs
  · exact (mem_follows.mp hb).1

include h hq hlimit

theorem roundOf_walks (hn : n ≤ limit) :
    roundOf (q.stepRow engine textOf cells table) (q.anchor engine textOf cells table) n =
      (walks (q.follows engine cells table) [s] n).filterMap (q.ofWalk textOf cells) := by
  induction n with
  | zero =>
      rw [roundOf, anchor, hs, walks]
      simp [ofWalk, delimited]
  | succ n ih =>
      rw [roundOf, ih (by omega), walks, List.filterMap_flatMap, List.filterMap_eq_flatMap_toList,
        List.flatMap_assoc]
      refine List.flatMap_congr fun w hw => ?_
      obtain ⟨hsimple, hlength⟩ := mem_walks.mp hw
      cases w with
      | nil => cases hlength
      | cons a rest =>
          have hlt : rest.length < limit := by
            rw [List.length_cons] at hlength
            omega
          have hstep := stepRow_ofWalk h hq hlimit (fun b hb => walk_mem hs hsimple hb) hlt
          rw [ofWalk, Option.toList_some, List.flatMap_singleton, hstep]

-- No round goes on from the depth of the limit.
theorem roundOf_end :
    roundOf (q.stepRow engine textOf cells table) (q.anchor engine textOf cells table)
      (limit + 1) = [] := by
  rw [roundOf, roundOf_walks h hq hlimit hs (Nat.le_refl limit), List.flatMap_eq_nil_iff]
  intro r hr
  obtain ⟨w, hw, hrow⟩ := List.mem_filterMap.mp hr
  obtain ⟨-, hlength⟩ := mem_walks.mp hw
  cases w with
  | nil => cases hlength
  | cons a rest =>
      obtain rfl := Option.some.inj hrow
      have hend : q.depthLimit.all (rest.length < ·) = false := by
        rw [hlimit, Option.all_some, decide_eq_false_iff_not]
        rw [List.length_cons] at hlength
        omega
      rw [stepRow, List.map_eq_nil_iff, List.filter_eq_nil_iff]
      intro c _
      simp [hend]

theorem evaluates_walks :
    Evaluates (q.stepRow engine textOf cells table) (q.anchor engine textOf cells table)
      ((walksTo (q.follows engine cells table) s limit).filterMap (q.ofWalk textOf cells)) := by
  have hends := evaluates_of_end (roundOf_end h hq hlimit hs)
  have hall : (List.range (limit + 1)).flatMap (roundOf (q.stepRow engine textOf cells table)
      (q.anchor engine textOf cells table)) =
      (walksTo (q.follows engine cells table) s limit).filterMap (q.ofWalk textOf cells) := by
    rw [walksTo, List.filterMap_flatMap]
    refine List.flatMap_congr fun n hn => ?_
    exact roundOf_walks h hq hlimit hs (Nat.le_of_lt_succ (List.mem_range.mp hn))
  rwa [hall] at hends

end Start

omit [DecidableEq M] in
theorem starts_cases (h : q.KeyColumn engine textOf cells table) :
    table.filter (q.starts engine cells) = [] ∨
      ∃ s, table.filter (q.starts engine cells) = [s] := by
  have hkey : ∀ a ∈ table.filter (q.starts engine cells), a ∈ table ∧
      engine.compare .eq (cells a q.pkCol) q.startId = .yes := by
    intro a ha
    obtain ⟨hmem, hstart⟩ := List.mem_filter.mp ha
    rw [starts, Bool.and_eq_true] at hstart
    exact ⟨hmem, of_decide_eq_true hstart.1⟩
  have hnodup : (table.filter (q.starts engine cells)).Nodup := h.distinct.filter _
  cases hfound : table.filter (q.starts engine cells) with
  | nil => exact Or.inl rfl
  | cons s rest =>
      rw [hfound] at hkey hnodup
      cases rest with
      | nil => exact Or.inr ⟨s, rfl⟩
      | cons b rest =>
          obtain ⟨hs, hsv⟩ := hkey s List.mem_cons_self
          obtain ⟨hb, hbv⟩ := hkey b (List.mem_cons_of_mem s List.mem_cons_self)
          have heq := h.unique s hs b hb q.startId hsv hbv
          rw [heq] at hnodup
          exact absurd List.mem_cons_self (List.nodup_cons.mp hnodup).1

omit [DecidableEq M] in
theorem items_ofWalk (l : List (List M)) :
    (l.filterMap (q.ofWalk textOf cells)).map PathRow.item = l.filterMap List.head? := by
  rw [List.map_filterMap]
  refine List.filterMap_congr fun w _ => ?_
  cases w <;> rfl

omit [DecidableEq M] in
theorem mem_rows_ofWalk {l : List (List M)} :
    (a, n) ∈ (l.filterMap (q.ofWalk textOf cells)).map (fun r => (r.item, r.depth)) ↔
      ∃ w, a :: w ∈ l ∧ w.length = n := by
  rw [List.map_filterMap, List.mem_filterMap]
  constructor
  · rintro ⟨w, hw, hrow⟩
    cases w with
    | nil => cases hrow
    | cons b w =>
        obtain ⟨rfl, rfl⟩ := Prod.mk.inj (Option.some.inj hrow)
        exact ⟨w, hw, rfl⟩
  · rintro ⟨w, hw, rfl⟩
    exact ⟨a :: w, hw, rfl⟩

theorem Answers.exact (h : q.KeyColumn engine textOf cells table) (hq : q.cycleProtection = true)
    (hlimit : q.depthLimit = some limit) {result : List (M × Nat)}
    (hanswers : q.Answers engine textOf cells table result) :
    (result.map Prod.fst).Nodup ∧ ∀ a n, (a, n) ∈ result ↔ n ≤ limit ∧
      ∃ s ∈ table, q.starts engine cells s = true ∧
        IsDistance (q.follows engine cells table) s n a := by
  obtain ⟨out, hout, hperm⟩ := hanswers.rows
  rcases starts_cases h with hnone | ⟨s, hs⟩
  · have hempty : out = [] := by
      refine hout.unique ?_
      rw [anchor, hnone]
      exact .done
    rw [hempty, List.map_nil] at hperm
    rw [hperm.eq_nil]
    refine ⟨List.nodup_nil, fun a n => ⟨fun hmem => absurd hmem List.not_mem_nil, ?_⟩⟩
    rintro ⟨-, s, hmem, hstart, -⟩
    exact absurd (List.mem_filter.mpr ⟨hmem, hstart⟩) (by simp [hnone])
  · have hall := hout.unique (evaluates_walks h hq hlimit hs)
    have hsmem := start_mem hs
    have hunique := fun {a : M} {w v : List M} => simple_unique (a := a) (w := w) h hsmem (v := v)
    have hheads := nodup_heads (s := s) hunique (follows_nodup h) limit
    have hmem : ∀ a n,
        (∃ w, a :: w ∈ walksTo (q.follows engine cells table) s limit ∧ w.length = n) ↔
          IsDistance (q.follows engine cells table) s n a ∧ n ≤ limit :=
      fun a n => mem_walksTo_iff hunique
    subst hall
    refine ⟨?_, fun a n => ?_⟩
    · have hitems := hperm.map Prod.fst
      rw [List.map_map] at hitems
      refine hitems.nodup_iff.mpr ?_
      rw [show (Prod.fst ∘ fun r : PathRow M => (r.item, r.depth)) = PathRow.item from rfl,
        items_ofWalk]
      have hsome := hheads.filterMap (f := id) fun _ _ _ hb hb' => hb.trans hb'.symm
      rwa [List.filterMap_map] at hsome
    · rw [hperm.mem_iff, mem_rows_ofWalk, hmem]
      have hstart : s ∈ table ∧ q.starts engine cells s = true :=
        List.mem_filter.mp (hs ▸ List.mem_singleton_self s)
      constructor
      · rintro ⟨hdistance, hle⟩
        exact ⟨hle, s, hstart.1, hstart.2, hdistance⟩
      · rintro ⟨hle, s', hmem', hstart', hdistance⟩
        have hsame : s' ∈ table.filter (q.starts engine cells) :=
          List.mem_filter.mpr ⟨hmem', hstart'⟩
        rw [hs, List.mem_singleton] at hsame
        exact ⟨hsame ▸ hdistance, hle⟩

omit [DecidableEq M] in
theorem exists_sorted (f : M × Nat → Int) (l : List (M × Nat)) :
    ∃ l' : List (M × Nat), l'.Perm l ∧ l'.Pairwise fun a b => f a ≤ f b := by
  have hsorted : (l.mergeSort fun a b => decide (f a ≤ f b)).Pairwise
      fun a b => decide (f a ≤ f b) = true := by
    refine List.pairwise_mergeSort (fun a b c hab hbc => ?_) (fun a b => ?_) l
    · rw [decide_eq_true_eq] at hab hbc ⊢
      exact hab.trans hbc
    · rw [Bool.or_eq_true, decide_eq_true_eq, decide_eq_true_eq]
      exact le_total (f a) (f b)
  exact ⟨_, List.mergeSort_perm l _, hsorted.imp of_decide_eq_true⟩

theorem exists_answers (h : q.KeyColumn engine textOf cells table) (hq : q.cycleProtection = true)
    (hlimit : q.depthLimit = some limit) :
    ∃ result, q.Answers engine textOf cells table result := by
  have hout : ∃ out, Evaluates (q.stepRow engine textOf cells table)
      (q.anchor engine textOf cells table) out := by
    rcases starts_cases h with hnone | ⟨s, hs⟩
    · refine ⟨[], ?_⟩
      rw [anchor, hnone]
      exact .done
    · exact ⟨_, evaluates_walks h hq hlimit hs⟩
  obtain ⟨out, hout⟩ := hout
  generalize hrows : out.map (fun r => (r.item, r.depth)) = rows
  obtain ⟨up, hup, hascending⟩ := exists_sorted (fun r : M × Nat => (r.2 : Int)) rows
  obtain ⟨down, hdown, hdescending⟩ := exists_sorted (fun r : M × Nat => -(r.2 : Int)) rows
  cases horder : q.orderByDepth with
  | none => exact ⟨rows, ⟨out, hout, hrows ▸ .refl rows⟩, by simp [horder], by simp [horder]⟩
  | some order =>
      cases order with
      | asc =>
          exact ⟨up, ⟨out, hout, hrows ▸ hup⟩, fun _ => hascending.imp fun h => by omega,
            by simp [horder]⟩
      | desc =>
          exact ⟨down, ⟨out, hout, hrows ▸ hdown⟩, by simp [horder],
            fun _ => hdescending.imp fun h => by omega⟩

def nodes : List (Int × Int) := [(1, 3), (2, 1), (3, 2), (4, 2), (11, 1)]

def nodeCells (node : Int × Int) : Row :=
  rowOf [("id", .i64 node.1), ("parent_id", .i64 node.2)]

def digits : Value → List Char
  | .i64 i => (toString i).toList
  | _ => []

def below (id : Int) : HierarchyQuery :=
  .new ⟨"nodes", ["id", "parent_id"], "id", none⟩ "nodes" "id" "parent_id" (.i64 id) .descendants

theorem equal_iff (v w : Value) :
    wholeNumbers.compare .eq v w = .yes ↔ ∃ i, v = .i64 i ∧ w = .i64 i := by
  constructor
  · intro h
    dsimp only [wholeNumbers] at h
    split at h
    · next i j _ =>
        have hij : i = j := by
          by_contra hne
          simp [Truth.ofBool, hne] at h
        exact ⟨i, rfl, hij ▸ rfl⟩
    · next heq => cases heq
    · next heq => cases heq
    · next heq => cases heq
    · cases h
  · rintro ⟨i, rfl, rfl⟩
    simp [wholeNumbers, Truth.ofBool]

theorem keyColumn_nodes : (below 1).KeyColumn wholeNumbers digits nodeCells nodes where
  distinct := by decide
  symm v w h := by
    obtain ⟨i, rfl, rfl⟩ := (equal_iff v w).mp h
    exact (equal_iff _ _).mpr ⟨i, rfl, rfl⟩
  unique a ha b hb v hav hbv := by
    obtain ⟨i, hai, rfl⟩ := (equal_iff _ _).mp hav
    obtain ⟨j, hbj, hij⟩ := (equal_iff _ _).mp hbv
    have hids : ∀ a ∈ nodes, ∀ b ∈ nodes, a.1 = b.1 → a = b := by decide
    refine hids a ha b hb ?_
    rw [Value.i64.inj (show Value.i64 a.1 = .i64 i from hai),
      Value.i64.inj (show Value.i64 b.1 = .i64 j from hbj), Value.i64.inj hij]
  texts := by decide +kernel
  commaFree := by decide +kernel

example : (List.range 4).map (fun n =>
      (roundOf ((below 1).stepRow wholeNumbers digits nodeCells nodes)
        ((below 1).anchor wholeNumbers digits nodeCells nodes) n).map fun r => r.item.1) =
    [[1], [2, 11], [3, 4], []] := by decide +kernel

end HierarchyQuery

end Ruprizzle.Runtime
