import Mathlib.Data.Prod.Lex
import Ruprizzle.Data.Edits
import Ruprizzle.Data.Extremes

namespace Ruprizzle.Suggest

-- Known names close to one that is not known. The lower case of a character, which may
-- be several, is a table of the standard library.

section Distance

variable (toLowercase : Char → List Char)

def lowercased (text : String) : List Char := text.toList.flatMap toLowercase

-- What is written behind `left` into the row of `ca`, the row before beside it.
def cells (ca : Char) : Nat → List Nat → List Char → List Nat
  | left, diagonal :: above :: prev, cb :: b =>
      let cost := if ca ≠ cb then 1 else 0
      let cell := min (min (above + 1) (left + 1)) (diagonal + cost)
      cell :: cells ca cell (above :: prev) b
  | _, _, _ => []

def distance (a b : String) : Nat :=
  let a := lowercased toLowercase a
  let b := lowercased toLowercase b
  if a.isEmpty then b.length
  else if b.isEmpty then a.length
  else
    let last := a.zipIdx.foldl (fun prev e => (e.2 + 1) :: cells e.1 (e.2 + 1) prev b)
      (List.range (b.length + 1))
    last.getD b.length 0

def threshold (input : String) : Nat :=
  if input.length ≤ 2 then 1 else if input.length ≤ 5 then 2 else 3

def closest (input : String) (candidates : List String) : Option String :=
  let near := (candidates.map fun c => (distance toLowercase input c, c)).filter
    fun e => e.1 ≤ threshold input
  (Extremes.minByKey (fun e => toLex (e.1, e.2.utf8ByteSize)) near).map Prod.snd

end Distance

variable {toLowercase : Char → List Char}

theorem cells_row (ca : Char) (p q b : List Char) :
    Edits.distance (ca :: p) q :: cells ca (Edits.distance (ca :: p) q) (Edits.row p q b) b =
      Edits.row (ca :: p) q b := by
  induction b generalizing q with
  | nil => rfl
  | cons cb b ih =>
      obtain ⟨above, habove⟩ := Edits.row_cons p (cb :: q) b
      have hcell : min (min (Edits.distance p (cb :: q) + 1) (Edits.distance (ca :: p) q + 1))
          (Edits.distance p q + if ca ≠ cb then 1 else 0) = Edits.distance (ca :: p) (cb :: q) := by
        rw [Edits.distance_cons_cons, ite_not]
      have hrest := ih (cb :: q)
      rw [habove] at hrest
      rw [Edits.row, Edits.row, habove, cells, hcell, hrest]

theorem distance_eq (a b : String) : distance toLowercase a b =
    Edits.distance (lowercased toLowercase a) (lowercased toLowercase b) := by
  unfold distance
  generalize lowercased toLowercase a = a
  generalize lowercased toLowercase b = b
  dsimp only
  split
  · next ha => rw [List.isEmpty_iff.mp ha, Edits.distance_nil_left]
  · split
    · next hb => rw [List.isEmpty_iff.mp hb, Edits.distance_nil_right]
    · rw [List.getD_eq_getElem?_getD, Edits.foldl_rows (fun ca p => ?_) a, Option.getD_some]
      have hrow := cells_row ca p [] b
      rwa [Edits.distance_nil_right, List.length_cons] at hrow

-- The distance is the least number of characters to put in, take out or replace.
theorem distance_isLeast (a b : String) :
    IsLeast {n | Edits.Chain n (lowercased toLowercase a) (lowercased toLowercase b)}
      (distance toLowercase a b) := by
  rw [distance_eq]
  exact Edits.isLeast_distance _ _

-- Near enough to be told.
def Near (toLowercase : Char → List Char) (input c : String) : Prop :=
  distance toLowercase input c ≤ threshold input

instance (input c : String) : Decidable (Near toLowercase input c) :=
  inferInstanceAs (Decidable (_ ≤ _))

-- Nearer first, then shorter.
def rank (toLowercase : Char → List Char) (input c : String) : ℕ ×ₗ ℕ :=
  toLex (distance toLowercase input c, c.utf8ByteSize)

theorem closest_iff (input : String) (candidates : List String) :
    (closest toLowercase input candidates = none ↔
      ∀ c ∈ candidates, ¬ Near toLowercase input c) ∧
    ∀ c, closest toLowercase input candidates = some c ↔
      ∃ before after, candidates = before ++ c :: after ∧ Near toLowercase input c ∧
        (∀ e ∈ before, Near toLowercase input e →
          rank toLowercase input c < rank toLowercase input e) ∧
        ∀ e ∈ after, Near toLowercase input e →
          rank toLowercase input c ≤ rank toLowercase input e := by
  unfold closest
  refine ⟨?_, fun c => ?_⟩
  · rw [Option.map_eq_none_iff, Extremes.minByKey_eq_none, List.filter_eq_nil_iff]
    simp [Near]
  · rw [Option.map_eq_some_iff]
    constructor
    · rintro ⟨e, hmin, rfl⟩
      obtain ⟨before, after, heq, hnear, hbefore, hafter⟩ := Extremes.minByKey_filter.mp hmin
      obtain ⟨first, rest, rfl, rfl, hrest⟩ := List.map_eq_append_iff.mp heq
      obtain ⟨c, others, rfl, rfl, rfl⟩ := List.map_eq_cons_iff.mp hrest
      refine ⟨first, others, rfl, of_decide_eq_true hnear, fun e he hclose => ?_,
        fun e he hclose => ?_⟩
      · exact hbefore _ (List.mem_map_of_mem he) (decide_eq_true hclose)
      · exact hafter _ (List.mem_map_of_mem he) (decide_eq_true hclose)
    · rintro ⟨before, after, rfl, hnear, hbefore, hafter⟩
      refine ⟨(distance toLowercase input c, c), Extremes.minByKey_filter.mpr
        ⟨before.map fun c => (distance toLowercase input c, c),
          after.map fun c => (distance toLowercase input c, c), by simp, decide_eq_true hnear,
          fun e he hclose => ?_, fun e he hclose => ?_⟩, rfl⟩
      · obtain ⟨c', hc', rfl⟩ := List.mem_map.mp he
        exact hbefore c' hc' (of_decide_eq_true hclose)
      · obtain ⟨c', hc', rfl⟩ := List.mem_map.mp he
        exact hafter c' hc' (of_decide_eq_true hclose)

end Ruprizzle.Suggest
