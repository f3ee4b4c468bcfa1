import Mathlib.Data.List.Forall2
import Mathlib.Data.List.Infix

-- Patterns of texts, in which a sign stands for any text and another one for any character.
namespace Ruprizzle.Like

variable {α : Type}

inductive Sign (α : Type)
  | any
  | one
  | char (a : α)
  deriving DecidableEq, Repr

-- How patterns are written. What takes their meaning from the other signs may stand at the end,
-- for itself, where that is allowed.
structure Writing (α : Type) where
  any : α
  one : α
  escape : Option α
  lone : Bool

section Read

variable [DecidableEq α] (w : Writing α)

def readSign (a : α) : Sign α :=
  if a = w.any then .any else if a = w.one then .one else .char a

-- The signs of a pattern, none where its end leaves an escape open.
def read : List α → Option (List (Sign α))
  | [] => some []
  | [a] =>
      if w.escape = some a then if w.lone then some [.char a] else none
      else some [readSign w a]
  | a :: b :: rest =>
      if w.escape = some a then (read rest).map (.char b :: ·)
      else (read (b :: rest)).map (readSign w a :: ·)

-- A text that leaves no escape open, with its signs.
inductive Reads : List α → List (Sign α) → Prop
  | nil : Reads [] []
  | sign {a : α} {s : List α} {signs : List (Sign α)} : w.escape ≠ some a → Reads s signs →
      Reads (a :: s) (readSign w a :: signs)
  | escaped {a b : α} {s : List α} {signs : List (Sign α)} : w.escape = some a → Reads s signs →
      Reads (a :: b :: s) (.char b :: signs)

def Plain (s : List α) : Prop := ∀ a ∈ s, a ≠ w.any ∧ a ≠ w.one ∧ w.escape ≠ some a

variable {w} {s t : List α} {signs : List (Sign α)}

theorem read_sign {a : α} (h : w.escape ≠ some a) (t : List α) :
    read w (a :: t) = (read w t).map (readSign w a :: ·) := by
  cases t with
  | nil => simp [read, h]
  | cons b rest => rw [read, if_neg h]

theorem Reads.read_append (h : Reads w s signs) (t : List α) :
    read w (s ++ t) = (read w t).map (signs ++ ·) := by
  induction h with
  | nil => simp
  | sign hescape _ ih =>
      rw [List.cons_append, read_sign hescape, ih, Option.map_map]
      rfl
  | escaped hescape _ ih =>
      rw [List.cons_append, List.cons_append, read, if_pos hescape, ih, Option.map_map]
      rfl

theorem Reads.read_eq (h : Reads w s signs) : read w s = some signs := by
  have happend := h.read_append []
  rwa [List.append_nil, read, Option.map_some, List.append_nil] at happend

-- A text leaves an escape open or does not.
theorem reads_or_open (w : Writing α) (s : List α) : (∃ signs, Reads w s signs) ∨
    ∃ s' a signs, s = s' ++ [a] ∧ w.escape = some a ∧ Reads w s' signs := by
  induction s using read.induct w with
  | case1 => exact .inl ⟨[], .nil⟩
  | case2 a hescape hlone => exact .inr ⟨[], a, [], rfl, hescape, .nil⟩
  | case3 a hescape hlone => exact .inr ⟨[], a, [], rfl, hescape, .nil⟩
  | case4 a hescape => exact .inl ⟨_, .sign hescape .nil⟩
  | case5 a b rest hescape ih =>
      rcases ih with ⟨signs, hrest⟩ | ⟨s', c, signs, rfl, hc, hrest⟩
      · exact .inl ⟨_, .escaped hescape hrest⟩
      · exact .inr ⟨a :: b :: s', c, _, rfl, hc, .escaped hescape hrest⟩
  | case6 a b rest hescape ih =>
      rcases ih with ⟨signs, hrest⟩ | ⟨s', c, signs, hsplit, hc, hrest⟩
      · exact .inl ⟨_, .sign hescape hrest⟩
      · exact .inr ⟨a :: s', c, _, by rw [hsplit]; rfl, hc, .sign hescape hrest⟩

theorem Plain.reads (h : Plain w s) : Reads w s (s.map .char) := by
  induction s with
  | nil => exact .nil
  | cons a rest ih =>
      obtain ⟨⟨hany, hone, hescape⟩, hrest⟩ := List.forall_mem_cons.mp h
      have hsign : readSign w a = .char a := by rw [readSign, if_neg hany, if_neg hone]
      have hread := Reads.sign hescape (ih hrest)
      rwa [hsign] at hread

end Read

section Matching

variable (same : α → α → Prop)

-- What a list of signs stands for.
def Matches : List (Sign α) → List α → Prop
  | [], text => text = []
  | .any :: signs, text => ∃ rest ∈ text.tails, Matches signs rest
  | .one :: _, [] => False
  | .one :: signs, _ :: rest => Matches signs rest
  | .char _ :: _, [] => False
  | .char c :: signs, a :: rest => same c a ∧ Matches signs rest

instance decidableMatches [DecidableEq α] [DecidableRel same] :
    (signs : List (Sign α)) → (text : List α) → Decidable (Matches same signs text)
  | [], text => inferInstanceAs (Decidable (text = []))
  | .any :: signs, text =>
      have := fun rest => decidableMatches signs rest
      inferInstanceAs (Decidable (∃ rest ∈ text.tails, Matches same signs rest))
  | .one :: _, [] => inferInstanceAs (Decidable False)
  | .one :: signs, _ :: rest => decidableMatches signs rest
  | .char _ :: _, [] => inferInstanceAs (Decidable False)
  | .char c :: signs, a :: rest =>
      have := decidableMatches signs rest
      inferInstanceAs (Decidable (same c a ∧ Matches same signs rest))

-- A text as it is found in another one, with nothing before or behind it where that is asked for.
def Found (before after : Bool) (s text : List α) : Prop :=
  ∃ pre mid post, text = pre ++ mid ++ post ∧ (before = false → pre = []) ∧
    (after = false → post = []) ∧ List.Forall₂ same s mid

variable {same} {meant : α → α → Prop} {before after : Bool} {s text : List α}
  {signs : List (Sign α)}

theorem matches_any (text : List α) : Matches same [.any] text :=
  ⟨[], (List.mem_tails _ _).mpr List.nil_suffix, rfl⟩

theorem matches_any_cons {rest : List α} (h : Matches same signs rest) (pre : List α) :
    Matches same (.any :: signs) (pre ++ rest) :=
  ⟨rest, (List.mem_tails _ _).mpr (List.suffix_append pre rest), h⟩

theorem matches_chars : Matches same (s.map .char ++ signs) text ↔
    ∃ u v, text = u ++ v ∧ List.Forall₂ same s u ∧ Matches same signs v := by
  induction s generalizing text with
  | nil => simp
  | cons c rest ih =>
      constructor
      · intro h
        cases text with
        | nil => exact h.elim
        | cons a text =>
            obtain ⟨u, v, rfl, hu, hv⟩ := ih.mp h.2
            exact ⟨a :: u, v, rfl, .cons h.1 hu, hv⟩
      · rintro ⟨u, v, rfl, hu, hv⟩
        obtain ⟨a, u, hsame, hrest, rfl⟩ := List.forall₂_cons_left_iff.mp hu
        exact ⟨hsame, ih.mpr ⟨u, v, rfl, hrest, hv⟩⟩

-- Where a pattern ends with a character, so does what it stands for.
theorem matches_last {c : α} (h : Matches same (signs ++ [.char c]) text) :
    ∃ init a, text = init ++ [a] ∧ same c a := by
  induction signs generalizing text with
  | nil =>
      cases text with
      | nil => exact h.elim
      | cons a rest =>
          obtain ⟨hsame, rfl⟩ := h
          exact ⟨[], a, rfl, hsame⟩
  | cons sign signs ih =>
      cases sign with
      | any =>
          obtain ⟨rest, hrest, hlater⟩ := h
          obtain ⟨init, a, rfl, hsame⟩ := ih hlater
          obtain ⟨pre, rfl⟩ := (List.mem_tails _ _).mp hrest
          exact ⟨pre ++ init, a, by rw [List.append_assoc], hsame⟩
      | one =>
          cases text with
          | nil => exact h.elim
          | cons b rest =>
              obtain ⟨init, a, rfl, hsame⟩ := ih h
              exact ⟨b :: init, a, rfl, hsame⟩
      | char d =>
          cases text with
          | nil => exact h.elim
          | cons b rest =>
              obtain ⟨init, a, rfl, hsame⟩ := ih h.2
              exact ⟨b :: init, a, rfl, hsame⟩

-- A text that a pattern stands for, with x for one character and nothing for any text.
def sample (x : α) : List (Sign α) → List α
  | [] => []
  | .any :: signs => sample x signs
  | .one :: signs => x :: sample x signs
  | .char c :: signs => c :: sample x signs

theorem sample_append (x : α) (a b : List (Sign α)) :
    sample x (a ++ b) = sample x a ++ sample x b := by
  induction a with
  | nil => rfl
  | cons sign rest ih =>
      cases sign with
      | any => exact ih
      | one => exact congrArg (x :: ·) ih
      | char c => exact congrArg (c :: ·) ih

theorem matches_sample (hrefl : ∀ a, same a a) (x : α) (signs : List (Sign α)) :
    Matches same signs (sample x signs) := by
  induction signs with
  | nil => rfl
  | cons sign rest ih =>
      cases sign with
      | any => exact matches_any_cons ih []
      | one => exact ih
      | char c => exact ⟨hrefl c, ih⟩

theorem found_refl (hrefl : ∀ a, same a a) (s : List α) : Found same before after s s :=
  ⟨[], s, [], by simp, fun _ => rfl, fun _ => rfl, List.forall₂_same.mpr fun a _ => hrefl a⟩

-- In a text that is no longer, a text is found all over.
theorem Found.whole (h : Found same before after s text) (hlength : text.length ≤ s.length) :
    List.Forall₂ same s text := by
  obtain ⟨pre, mid, post, rfl, -, -, hmid⟩ := h
  have hmidlength := hmid.length_eq
  rw [List.length_append, List.length_append] at hlength
  have hpre : pre = [] := List.length_eq_zero_iff.mp (by omega)
  have hpost : post = [] := List.length_eq_zero_iff.mp (by omega)
  rw [hpre, hpost, List.nil_append, List.append_nil]
  exact hmid

def aroundSigns (before after : Bool) (signs : List (Sign α)) : List (Sign α) :=
  (if before then [.any] else []) ++ signs ++ if after then [.any] else []

theorem matches_around (text : List α) :
    Matches same (aroundSigns before after (s.map .char)) text ↔
      Found same before after s text := by
  have htail : ∀ text, Matches same (s.map .char ++ if after then [.any] else []) text ↔
      ∃ mid post, text = mid ++ post ∧ (after = false → post = []) ∧ List.Forall₂ same s mid := by
    intro text
    rw [matches_chars]
    constructor
    · rintro ⟨mid, post, rfl, hmid, hpost⟩
      refine ⟨mid, post, rfl, fun hafter => ?_, hmid⟩
      rwa [hafter] at hpost
    · rintro ⟨mid, post, rfl, hpost, hmid⟩
      refine ⟨mid, post, rfl, hmid, ?_⟩
      cases after with
      | false => exact hpost rfl
      | true => exact matches_any post
  rw [aroundSigns, List.append_assoc]
  cases before with
  | false =>
      refine (htail text).trans ⟨?_, ?_⟩
      · rintro ⟨mid, post, rfl, hpost, hmid⟩
        exact ⟨[], mid, post, rfl, fun _ => rfl, hpost, hmid⟩
      · rintro ⟨pre, mid, post, rfl, hpre, hpost, hmid⟩
        exact ⟨mid, post, by rw [hpre rfl]; rfl, hpost, hmid⟩
  | true =>
      constructor
      · rintro ⟨rest, hrest, hlater⟩
        obtain ⟨pre, rfl⟩ := (List.mem_tails _ _).mp hrest
        obtain ⟨mid, post, rfl, hpost, hmid⟩ := (htail rest).mp hlater
        exact ⟨pre, mid, post, (List.append_assoc _ _ _).symm, by simp, hpost, hmid⟩
      · rintro ⟨pre, mid, post, rfl, -, hpost, hmid⟩
        rw [List.append_assoc]
        exact matches_any_cons ((htail _).mpr ⟨mid, post, rfl, hpost, hmid⟩) pre

theorem Found.congr (h : ∀ c ∈ s, ∀ a, same c a ↔ meant c a) (text : List α) :
    Found same before after s text ↔ Found meant before after s text := by
  have hmid : ∀ mid, List.Forall₂ same s mid ↔ List.Forall₂ meant s mid := by
    intro mid
    induction s generalizing mid with
    | nil => rw [List.forall₂_nil_left_iff, List.forall₂_nil_left_iff]
    | cons c rest ih =>
        obtain ⟨hc, hrest⟩ := List.forall_mem_cons.mp h
        rw [List.forall₂_cons_left_iff, List.forall₂_cons_left_iff]
        simp only [hc, ih hrest]
  simp only [Found, hmid]

-- Two texts that differ in a character are told apart as the characters are.
theorem found_replaced (hrefl : ∀ a, same a a) {u v : List α} {c a : α} :
    Found same before after (u ++ c :: v) (u ++ a :: v) ↔ same c a := by
  constructor
  · intro h
    have hwhole := h.whole (by simp)
    have hdrop := List.forall₂_drop_append _ _ _ hwhole
    rw [List.drop_left] at hdrop
    exact (List.forall₂_cons.mp hdrop).1
  · intro h
    refine ⟨[], u ++ a :: v, [], by simp, fun _ => rfl, fun _ => rfl, ?_⟩
    have hsame : ∀ l : List α, List.Forall₂ same l l := fun l =>
      List.forall₂_same.mpr fun b _ => hrefl b
    exact List.rel_append (hsame u) (.cons h (hsame v))

end Matching

section Law

variable [DecidableEq α] {w : Writing α} {same meant : α → α → Prop} {before after : Bool}
  {s : List α} {signs : List (Sign α)}

-- A pattern with the text in the middle.
def around (w : Writing α) (before after : Bool) (s : List α) : List α :=
  (if before then [w.any] else []) ++ s ++ if after then [w.any] else []

-- A text that is not plain stands for one in which it is not found.
theorem Reads.plain_of_whole {x : α} (hx : ¬meant w.one x) (h : Reads w s signs) :
    (sample x signs).length ≤ s.length ∧
      (List.Forall₂ meant s (sample x signs) → Plain w s) := by
  induction h with
  | nil => exact ⟨le_rfl, fun _ => List.forall_mem_nil _⟩
  | @sign a s signs hescape _ ih =>
      obtain ⟨hlength, hplain⟩ := ih
      by_cases hany : a = w.any
      · have hsign : readSign w a = .any := if_pos hany
        rw [hsign]
        refine ⟨Nat.le_succ_of_le hlength, fun hall => ?_⟩
        have hsame := hall.length_eq
        rw [List.length_cons] at hsame
        have hshort : (sample x (.any :: signs)).length = (sample x signs).length := rfl
        omega
      · by_cases hone : a = w.one
        · have hsign : readSign w a = .one := by rw [readSign, if_neg hany, if_pos hone]
          rw [hsign]
          refine ⟨Nat.succ_le_succ hlength, fun hall => ?_⟩
          exact absurd (List.forall₂_cons.mp hall).1 (hone ▸ hx)
        · have hsign : readSign w a = .char a := by rw [readSign, if_neg hany, if_neg hone]
          rw [hsign]
          refine ⟨Nat.succ_le_succ hlength, fun hall => ?_⟩
          exact List.forall_mem_cons.mpr ⟨⟨hany, hone, hescape⟩,
            hplain (List.forall₂_cons.mp hall).2⟩
  | @escaped a b s signs hescape _ ih =>
      obtain ⟨hlength, -⟩ := ih
      have hsample : (sample x (.char b :: signs)).length = (sample x signs).length + 1 := rfl
      refine ⟨?_, fun hall => ?_⟩
      · rw [hsample, List.length_cons, List.length_cons]
        omega
      · have hsame := hall.length_eq
        rw [hsample, List.length_cons, List.length_cons] at hsame
        omega

-- Where the text ends with the escape, nothing is behind it and it may stand there.
def Lone (w : Writing α) (after : Bool) (s : List α) : Prop :=
  after = false ∧ w.lone = true ∧ ∃ s' a, s = s' ++ [a] ∧ w.escape = some a ∧ Plain w s'

theorem read_around (hw : w.escape ≠ some w.any) (before after : Bool) (s : List α) :
    read w (around w before after s) = (read w (s ++ if after then [w.any] else [])).map
      ((if before then [.any] else []) ++ ·) := by
  have hany : readSign w w.any = .any := if_pos rfl
  cases before with
  | false => simp [around]
  | true =>
      show read w (w.any :: (s ++ _)) = _
      rw [read_sign hw, hany]
      rfl

theorem read_tail (hw : w.escape ≠ some w.any) (after : Bool) :
    read w (if after then [w.any] else []) = some (if after then [.any] else []) := by
  cases after with
  | false => rfl
  | true =>
      show read w [w.any] = some [Sign.any]
      rw [read, if_neg hw, readSign, if_pos rfl]

theorem Reads.read_around (h : Reads w s signs) (hw : w.escape ≠ some w.any)
    (before after : Bool) :
    read w (around w before after s) = some (aroundSigns before after signs) := by
  rw [Like.read_around hw, h.read_append, read_tail hw, Option.map_some, Option.map_some,
    aroundSigns, List.append_assoc]

theorem read_clear (hw : w.escape ≠ some w.any) (h : Plain w s ∨ Lone w after s) :
    read w (around w before after s) = some (aroundSigns before after (s.map .char)) := by
  rcases h with hplain | ⟨rfl, hlone, s', a, rfl, ha, hplain⟩
  · exact hplain.reads.read_around hw before after
  · have hlast : read w [a] = some [.char a] := by rw [read, if_pos ha, if_pos hlone]
    have htail : (s' ++ [a] ++ if false = true then [w.any] else []) = s' ++ [a] := by simp
    rw [Like.read_around hw, htail, hplain.reads.read_append, hlast]
    simp [aroundSigns]

-- A pattern that finds its text stands for nothing else.
theorem clear_of_matches {x : α} (hsame : ∀ a, same a a) (hmeant : ∀ a, meant a a)
    (hescape : ∀ a, w.escape = some a → ¬same w.any a) (hw : w.escape ≠ some w.any)
    (hx : ¬meant w.one x) (hread : read w (around w before after s) = some signs)
    (hall : ∀ text, Matches same signs text ↔ Found meant before after s text) :
    Plain w s ∨ Lone w after s := by
  have hsample : ∀ inner, sample x (aroundSigns before after inner) = sample x inner := by
    intro inner
    rw [aroundSigns, sample_append, sample_append]
    cases before <;> cases after <;> simp [sample]
  rcases reads_or_open w s with ⟨inner, hreads⟩ | ⟨s', a, inner, rfl, ha, hreads⟩
  · rw [hreads.read_around hw, Option.some.injEq] at hread
    have hfound := (hall (sample x signs)).mp (matches_sample hsame x signs)
    rw [← hread, hsample] at hfound
    obtain ⟨hlength, hplain⟩ := hreads.plain_of_whole hx
    exact .inl (hplain (hfound.whole hlength))
  · rw [Like.read_around hw, List.append_assoc, hreads.read_append] at hread
    cases after with
    | true =>
        have hlast : read w ([a] ++ if true = true then [w.any] else []) = some [.char w.any] := by
          show read w [a, w.any] = _
          rw [read, if_pos ha]
          rfl
        rw [hlast, Option.map_some, Option.map_some, Option.some.injEq] at hread
        have hmatch := (hall (s' ++ [a])).mpr (found_refl hmeant _)
        rw [← hread, ← List.append_assoc] at hmatch
        obtain ⟨init, b, hsplit, hb⟩ := matches_last hmatch
        obtain rfl := List.singleton_inj.mp (List.append_inj' hsplit rfl).2
        exact absurd hb (hescape a ha)
    | false =>
        have hnil : ([a] ++ if false = true then [w.any] else []) = [a] := by simp
        by_cases hlone : w.lone = true
        · have hlast : read w [a] = some [.char a] := by rw [read, if_pos ha, if_pos hlone]
          rw [hnil, hlast, Option.map_some, Option.map_some, Option.some.injEq] at hread
          have hsigns : sample x signs = sample x inner ++ [a] := by
            rw [← hread, sample_append, sample_append]
            cases before <;> rfl
          have hfound := (hall (sample x signs)).mp (matches_sample hsame x signs)
          rw [hsigns] at hfound
          obtain ⟨hlength, hplain⟩ := hreads.plain_of_whole hx
          have hforall := hfound.whole (by simpa using hlength)
          have htake := List.forall₂_take_append _ _ _ hforall
          have hsize : (sample x inner).length = s'.length := by
            have heq := hforall.length_eq
            simp only [List.length_append, List.length_singleton] at heq
            omega
          rw [hsize, List.take_left] at htake
          exact .inr ⟨rfl, hlone, s', a, rfl, ha, hplain htake⟩
        · have hlast : read w [a] = none := by rw [read, if_pos ha, if_neg hlone]
          rw [hnil, hlast] at hread
          cases hread

-- A pattern stands for the texts in which its text is found exactly where the text is plain (or its
-- last character stands for itself) and each character is the same as what it is meant to be.
theorem around_iff {x : α} (hsame : ∀ a, same a a) (hmeant : ∀ a, meant a a)
    (hescape : ∀ a, w.escape = some a → ¬same w.any a) (hw : w.escape ≠ some w.any)
    (hx : ¬meant w.one x) :
    (∃ signs, read w (around w before after s) = some signs ∧
        ∀ text, Matches same signs text ↔ Found meant before after s text) ↔
      (Plain w s ∨ Lone w after s) ∧ ∀ c ∈ s, ∀ a, same c a ↔ meant c a := by
  constructor
  · rintro ⟨signs, hread, hall⟩
    have hclear := clear_of_matches hsame hmeant hescape hw hx hread hall
    have hsigns := Option.some.inj (hread.symm.trans (read_clear hw hclear))
    refine ⟨hclear, fun c hc a => ?_⟩
    obtain ⟨u, v, rfl⟩ := List.append_of_mem hc
    have hboth := hall (u ++ a :: v)
    rwa [hsigns, matches_around, found_replaced hsame, found_replaced hmeant] at hboth
  · rintro ⟨hclear, hagree⟩
    refine ⟨_, read_clear hw hclear, fun text => ?_⟩
    rw [matches_around]
    exact Found.congr hagree text

end Law

end Ruprizzle.Like
