import Ruprizzle.Data.Nesting

namespace Ruprizzle

-- Conditions in the order in which their connectives bind: OR, XOR, AND, NOT,
-- brackets, and what stands between these.
namespace Conditions

open Nesting

structure Language (α B : Type) where
  turn : Nesting.Turn α B
  isOr : α → Bool
  isXor : α → Bool
  isAnd : α → Bool
  isNot : α → Bool
  opens : α → Bool
  closes : α → Bool
  paren : B
  guarded : Guarded turn
  sheltered : Sheltered turn paren
  flat : Flat turn fun a => isOr a || isXor a || isAnd a
  opens_turn : ∀ a, opens a = true → turn none a = some (.push paren)
  closes_turn : ∀ a, closes a = true → turn (some paren) a = some .pop
  not_opens : ∀ a, opens a = true → isNot a = false

-- What connectives make of the values of their operands. One operand alone is
-- not connected, and neighbours may be grouped.
structure Connectives (X : Type) where
  any : List X → X
  odd : List X → X
  all : List X → X
  not : X → X
  any_single : ∀ x, any [x] = x
  odd_single : ∀ x, odd [x] = x
  all_single : ∀ x, all [x] = x
  any_flatten : ∀ xss : List (List X), any xss.flatten = any (xss.map any)
  all_flatten : ∀ xss : List (List X), all xss.flatten = all (xss.map all)

variable {α B X : Type}

def parts (L : Language α B) (sep : α → Bool) (text : List α) : List (List α) :=
  cut L.turn sep [] text

-- No connective of the outermost level binds less than AND.
def Language.loose (L : Language α B) (a : α) : Bool := L.isOr a || L.isXor a

def Language.connects (L : Language α B) (a : α) : Bool := L.isOr a || L.isXor a || L.isAnd a

def Contained (L : Language α B) (text : List α) : Prop := Whole (bar L.loose L.turn) text

def Tight (L : Language α B) (text : List α) : Prop := Whole (bar L.connects L.turn) text

variable {L : Language α B} {text : List α}

theorem Tight.contained (h : Tight L text) : Contained L text :=
  h.mono fun a ha => by
    simp only [Language.loose, Bool.or_eq_true] at ha
    simp [Language.connects, ha]

theorem Contained.whole (h : Contained L text) : Whole L.turn text := h.of_bar

theorem Tight.whole (h : Tight L text) : Whole L.turn text := h.of_bar

theorem Contained.single (h : Contained L text) {sep : α → Bool}
    (hsep : ∀ a, sep a = true → L.loose a = true) : parts L sep text = [text] :=
  cut_whole (h.mono hsep)

theorem Tight.single (h : Tight L text) {sep : α → Bool}
    (hsep : ∀ a, sep a = true → L.connects a = true) : parts L sep text = [text] :=
  cut_whole (h.mono hsep)

theorem Language.isOr_flat (L : Language α B) : Flat L.turn L.isOr :=
  fun a ha => L.flat a (by simp [ha])

theorem Language.isAnd_flat (L : Language α B) : Flat L.turn L.isAnd :=
  fun a ha => L.flat a (by simp [ha])

theorem tight_wrapped {a b : α} (ha : L.opens a = true) (hb : L.closes b = true) (h : Whole L.turn text) :
    Tight L (a :: text ++ [b]) := by
  have hconnects : L.connects a = false := by
    by_contra hconnects
    have hstay := L.flat a (by simpa only [Bool.not_eq_false, Language.connects] using hconnects)
    rw [L.opens_turn a ha] at hstay
    simp at hstay
  have hopen : run (bar L.connects L.turn) [] [a] = some [L.paren] := by
    simp [run_cons, bar, hconnects, L.opens_turn a ha, Move.apply]
  exact h.bracketed L.guarded L.sheltered hopen (L.closes_turn b hb)

variable [DecidableEq B] (L : Language α B) (K : Connectives X)

-- The text in a pair of brackets that belong together.
def unwrap : List α → Option (List α)
  | [] => none
  | a :: rest =>
      if L.opens a ∧ rest.getLast?.any L.closes ∧ Whole L.turn rest.dropLast then
        some rest.dropLast
      else none

-- How a text is read where shorter ones are already read.
def node (leaf inner : List α → X) (text : List α) : X :=
  if 1 < (parts L L.isOr text).length then K.any ((parts L L.isOr text).map inner)
  else if 1 < (parts L L.isXor text).length then K.odd ((parts L L.isXor text).map inner)
  else if 1 < (parts L L.isAnd text).length then K.all ((parts L L.isAnd text).map inner)
  else if text.head?.any L.isNot then K.not (inner text.tail)
  else (unwrap L text).elim (leaf text) inner

def readWithin (leaf : List α → X) : Nat → List α → X
  | 0, text => leaf text
  | n + 1, text => node L K leaf (readWithin leaf n) text

def read (leaf : List α → X) (text : List α) : X := readWithin L K leaf (text.length + 1) text

variable {L K} {leaf leaf' inner inner' : List α → X} {text : List α}

theorem unwrap_shorter {body : List α} (h : unwrap L text = some body) :
    body.length < text.length := by
  cases text with
  | nil => simp [unwrap] at h
  | cons a rest =>
      rw [unwrap] at h
      split at h
      · obtain rfl := Option.some.inj h
        rw [List.length_dropLast, List.length_cons]
        omega
      · simp at h

theorem node_congr (hleaf : leaf text = leaf' text)
    (h : ∀ body : List α, body.length < text.length → inner body = inner' body) :
    node L K leaf inner text = node L K leaf' inner' text := by
  have hparts : ∀ sep, 1 < (parts L sep text).length →
      (parts L sep text).map inner = (parts L sep text).map inner' := fun sep hlen =>
    List.map_congr_left fun part hpart => h part (cut_shorter hlen hpart)
  unfold node
  split
  · next hor => rw [hparts _ hor]
  split
  · next hxor => rw [hparts _ hxor]
  split
  · next hand => rw [hparts _ hand]
  split
  · next hnot =>
      have hne : text ≠ [] := by
        rintro rfl
        simp at hnot
      have hpos := List.length_pos_iff.mpr hne
      rw [h text.tail (by rw [List.length_tail]; omega)]
  · cases hunwrap : unwrap L text with
    | none => exact hleaf
    | some body => exact h body (unwrap_shorter hunwrap)

theorem readWithin_congr (hleaf : ∀ body : List α, body.length ≤ text.length → leaf body = leaf' body)
    {n m : Nat} (hn : text.length < n) (hm : text.length < m) :
    readWithin L K leaf n text = readWithin L K leaf' m text := by
  induction n generalizing m text with
  | zero => omega
  | succ n ih =>
      cases m with
      | zero => omega
      | succ m =>
          refine node_congr (hleaf text (by omega)) fun body hbody => ?_
          exact ih (fun later hlater => hleaf later (by omega)) (by omega) (by omega)

theorem read_congr (hleaf : ∀ body : List α, body.length ≤ text.length → leaf body = leaf' body) :
    read L K leaf text = read L K leaf' text :=
  readWithin_congr hleaf (by omega) (by omega)

theorem read_eq (leaf : List α → X) (text : List α) :
    read L K leaf text = node L K leaf (read L K leaf) text :=
  node_congr rfl fun _ hbody => readWithin_congr (fun _ _ => rfl) hbody (by omega)

theorem read_any (leaf : List α → X) (text : List α) :
    read L K leaf text = K.any ((parts L L.isOr text).map (read L K leaf)) := by
  by_cases hlen : 1 < (parts L L.isOr text).length
  · rw [read_eq, node, if_pos hlen]
  · have hsingle : parts L L.isOr text = [text] := cut_single (by unfold parts at hlen; omega)
    rw [hsingle]
    exact (K.any_single _).symm

theorem read_all (h : Contained L text) :
    read L K leaf text = K.all ((parts L L.isAnd text).map (read L K leaf)) := by
  have hor : parts L L.isOr text = [text] := h.single fun a ha => by simp [Language.loose, ha]
  have hxor : parts L L.isXor text = [text] := h.single fun a ha => by simp [Language.loose, ha]
  by_cases hlen : 1 < (parts L L.isAnd text).length
  · rw [read_eq, node, hor, hxor]
    simp [hlen]
  · have hsingle : parts L L.isAnd text = [text] := cut_single (by unfold parts at hlen; omega)
    rw [hsingle]
    exact (K.all_single _).symm

theorem read_tight (h : Tight L text) :
    read L K leaf text = if text.head?.any L.isNot then K.not (read L K leaf text.tail)
      else (unwrap L text).elim (leaf text) (read L K leaf) := by
  have hor : parts L L.isOr text = [text] := h.single fun a ha => by simp [Language.connects, ha]
  have hxor : parts L L.isXor text = [text] := h.single fun a ha => by simp [Language.connects, ha]
  have hand : parts L L.isAnd text = [text] := h.single fun a ha => by simp [Language.connects, ha]
  rw [read_eq, node, hor, hxor, hand]
  simp

-- Conditions with OR between them, whatever they are.
theorem read_disjunction {s : α} (hs : L.isOr s = true) {items : List (List α)} (hne : items ≠ [])
    (h : ∀ item ∈ items, Whole L.turn item) :
    read L K leaf (joined s items) = K.any (items.map (read L K leaf)) := by
  have hparts : parts L L.isOr (joined s items) = items.flatMap (parts L L.isOr) :=
    cut_joined L.isOr_flat hs hne h
  rw [read_any, hparts, List.flatMap, List.map_flatten, K.any_flatten, List.map_map, List.map_map]
  exact congrArg K.any (List.map_congr_left fun item _ => (read_any leaf item).symm)

-- Conditions with AND between them, none of which falls apart beside it.
theorem read_conjunction {s : α} (hs : L.isAnd s = true) {items : List (List α)} (hne : items ≠ [])
    (hloose : L.loose s = false) (h : ∀ item ∈ items, Contained L item) :
    read L K leaf (joined s items) = K.all (items.map (read L K leaf)) := by
  have hstay : bar L.loose L.turn none s = some .stay := by
    simp [bar, hloose, L.isAnd_flat s hs]
  have hparts : parts L L.isAnd (joined s items) = items.flatMap (parts L L.isAnd) :=
    cut_joined L.isAnd_flat hs hne fun item hitem => (h item hitem).whole
  rw [read_all (Whole.joined hstay h), hparts, List.flatMap, List.map_flatten, K.all_flatten,
    List.map_map, List.map_map]
  exact congrArg K.all (List.map_congr_left fun item hitem => (read_all (h item hitem)).symm)

variable {a b : α}

theorem unwrap_wrapped (ha : L.opens a = true) (hb : L.closes b = true) (h : Whole L.turn text) :
    unwrap L (a :: text ++ [b]) = some text := by
  simp [unwrap, ha, hb, h]

theorem read_wrapped (ha : L.opens a = true) (hb : L.closes b = true) (h : Whole L.turn text) :
    read L K leaf (a :: text ++ [b]) = read L K leaf text := by
  rw [read_tight (tight_wrapped ha hb h), unwrap_wrapped ha hb h]
  simp [L.not_opens a ha]

theorem read_not (ha : L.isNot a = true) (h : Tight L (a :: text)) :
    read L K leaf (a :: text) = K.not (read L K leaf text) := by
  rw [read_tight h]
  simp [ha]

theorem read_leaf (h : Tight L text) (hnot : text.head?.any L.isNot = false)
    (hwrapped : unwrap L text = none) : read L K leaf text = leaf text := by
  rw [read_tight h, hnot, hwrapped]
  rfl

end Conditions

end Ruprizzle
