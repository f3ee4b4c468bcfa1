import Mathlib.Data.List.Infix
import Ruprizzle.Data.Text

namespace Ruprizzle

-- What the standard library takes from the Unicode tables. On ASCII it is known.
structure CharClass where
  alphabetic : Char → Bool
  numeric : Char → Bool
  asciiAlphabetic : ∀ c, c.toNat < 128 → alphabetic c = c.isAlpha
  asciiNumeric : ∀ c, c.toNat < 128 → numeric c = c.isDigit

namespace CharClass

def ascii : CharClass := ⟨Char.isAlpha, Char.isDigit, fun _ _ => rfl, fun _ _ => rfl⟩

variable (u : CharClass)

def startsWord (c : Char) : Bool := u.alphabetic c || c = '_'

def inWord (c : Char) : Bool := u.alphabetic c || u.numeric c || c = '_'

theorem inWord_of_ascii {c : Char} (h : c.toNat < 128) :
    u.inWord c = (c.isAlpha || c.isDigit || c = '_') := by
  unfold inWord
  rw [u.asciiAlphabetic c h, u.asciiNumeric c h]

theorem startsWord_of_ascii {c : Char} (h : c.toNat < 128) :
    u.startsWord c = (c.isAlpha || c = '_') := by
  unfold startsWord
  rw [u.asciiAlphabetic c h]

end CharClass

-- The splitter of a migration script, on the characters of the script.
namespace Splitter

variable (u : CharClass)

inductive Token
  | text (kept : List Char)
  | comment
  | semicolon

-- What follows a single quote, up to the next one or to the end.
def takeString : List Char → List Char × List Char
  | [] => ([], [])
  | c :: rest =>
      if c = '\x27' then ([c], rest)
      else
        let (kept, after) := takeString rest
        (c :: kept, after)

-- The opening of a dollar-quoted body. No tag starts with a digit, so a bind
-- placeholder is none.
def dollarTag : List Char → Option (List Char)
  | '$' :: rest =>
      let name := match rest with
        | c :: _ => if u.startsWord c then rest.takeWhile u.inWord else []
        | [] => []
      if (rest.drop name.length).head? = some '$' then some ('$' :: (name ++ ['$'])) else none
  | _ => none

-- What follows the opening tag, up to the closing one or to the end.
def takeDollar (tag : List Char) : List Char → List Char × List Char
  | [] => ([], [])
  | c :: rest =>
      if tag.isPrefixOf (c :: rest) then (tag, (c :: rest).drop tag.length)
      else
        let (kept, after) := takeDollar tag rest
        (c :: kept, after)

def afterLine (chars : List Char) : List Char := (chars.dropWhile (· ≠ '\n')).tail

-- A comment that is never closed leaves its last character to be read as text.
def afterBlock : List Char → List Char
  | [] => []
  | [c] => [c]
  | c :: d :: rest => if c = '*' ∧ d = '/' then rest else afterBlock (d :: rest)

def token (c : Char) (rest : List Char) : Token × List Char :=
  if c = '\x27' then
    let (kept, after) := takeString rest
    (.text (c :: kept), after)
  else match dollarTag u (c :: rest) with
    | some tag =>
        let (kept, after) := takeDollar tag ((c :: rest).drop tag.length)
        (.text (tag ++ kept), after)
    | none =>
        if c = '-' ∧ rest.head? = some '-' then (.comment, afterLine rest.tail)
        else if c = '/' ∧ rest.head? = some '*' then (.comment, afterBlock rest.tail)
        else if c = ';' then (.semicolon, rest)
        else (.text [c], rest)

def finish (current : List Char) : List (List Char) :=
  if Text.trim current = [] then [] else [Text.trim current]

-- A comment becomes one blank. The fuel is the length of what is to be read.
def splitLoop : Nat → List Char → List Char → List (List Char)
  | _, [], current => finish current
  | 0, _ :: _, current => finish current
  | fuel + 1, c :: rest, current =>
      match token u c rest with
      | (.text kept, after) => splitLoop fuel after (current ++ kept)
      | (.comment, after) => splitLoop fuel after (current ++ [' '])
      | (.semicolon, after) => finish current ++ splitLoop fuel after []

def split (chars current : List Char) : List (List Char) := splitLoop u chars.length chars current

def splitStatements (sql : String) : List String := (split u sql.toList []).map String.ofList

example : splitStatements .ascii "CREATE TABLE a (id int); -- note\n/* block */ SELECT 'a;b', $1;" =
    ["CREATE TABLE a (id int)", "SELECT 'a;b', $1"] := by decide +kernel

example : splitStatements .ascii "AS $body$ SELECT 'a;b'; $body$ LANGUAGE sql;" =
    ["AS $body$ SELECT 'a;b'; $body$ LANGUAGE sql"] := by decide +kernel

theorem takeString_append (chars : List Char) :
    (takeString chars).1 ++ (takeString chars).2 = chars := by
  induction chars with
  | nil => rfl
  | cons c rest ih =>
      unfold takeString
      by_cases hc : c = '\x27'
      · simp [hc]
      · simpa [hc] using ih

theorem takeDollar_append (tag chars : List Char) :
    (takeDollar tag chars).1 ++ (takeDollar tag chars).2 = chars := by
  induction chars with
  | nil => rfl
  | cons c rest ih =>
      unfold takeDollar
      by_cases hp : tag.isPrefixOf (c :: rest) = true
      · have hpre := List.isPrefixOf_iff_prefix.mp hp
        rw [if_pos hp]
        exact List.prefix_append_drop hpre |>.symm
      · simpa [hp] using ih

theorem afterLine_length (chars : List Char) : (afterLine chars).length ≤ chars.length := by
  unfold afterLine
  rw [List.length_tail]
  have := (List.dropWhile_suffix (l := chars) (fun c => decide (c ≠ '\n'))).length_le
  omega

theorem afterBlock_length (chars : List Char) : (afterBlock chars).length ≤ chars.length := by
  induction chars using afterBlock.induct with
  | case1 => simp [afterBlock]
  | case2 c => simp [afterBlock]
  | case3 c d rest h =>
      rw [afterBlock, if_pos h]
      simp only [List.length_cons]
      omega
  | case4 c d rest h ih =>
      rw [afterBlock, if_neg h]
      simp only [List.length_cons] at ih ⊢
      omega

-- The opening of a dollar-quoted body, as a text of its own.
def IsTag (tag : List Char) : Prop :=
  ∃ name, tag = '$' :: (name ++ ['$']) ∧ (∀ c ∈ name, u.inWord c = true) ∧
    ∀ c, name.head? = some c → u.startsWord c = true

variable {u}

theorem not_inWord_dollar : u.inWord '$' = false := by
  rw [u.inWord_of_ascii (by decide)]
  decide

theorem not_inWord_semicolon : u.inWord ';' = false := by
  rw [u.inWord_of_ascii (by decide)]
  decide

theorem not_startsWord_dollar : u.startsWord '$' = false := by
  rw [u.startsWord_of_ascii (by decide)]
  decide

theorem inWord_of_startsWord {c : Char} (h : u.startsWord c = true) : u.inWord c = true := by
  unfold CharClass.startsWord at h
  unfold CharClass.inWord
  simp only [Bool.or_eq_true, decide_eq_true_eq] at h ⊢
  rcases h with h | h
  · exact Or.inl (Or.inl h)
  · exact Or.inr h

theorem takeWhile_word {name rest : List Char} (h : ∀ c ∈ name, u.inWord c = true) :
    (name ++ '$' :: rest).takeWhile u.inWord = name := by
  induction name with
  | nil => simp [not_inWord_dollar]
  | cons c name ih =>
      rw [List.forall_mem_cons] at h
      simp [h.1, ih h.2]

theorem dollarTag_eq_some {chars tag : List Char} :
    dollarTag u chars = some tag ↔ IsTag u tag ∧ tag <+: chars := by
  constructor
  · intro h
    have hfound : ∀ rest name : List Char, name <+: rest →
        (if (rest.drop name.length).head? = some '$' then some ('$' :: (name ++ ['$'])) else none) =
          some tag → tag = '$' :: (name ++ ['$']) ∧ tag <+: '$' :: rest := by
      intro rest name hname heq
      split at heq
      · rename_i hhead
        obtain rfl := Option.some.inj heq
        obtain ⟨tail, rfl⟩ := hname
        rw [List.drop_left] at hhead
        cases tail with
        | nil => cases hhead
        | cons d tail =>
            obtain rfl := Option.some.inj hhead
            exact ⟨rfl, tail, by simp⟩
      · cases heq
    unfold dollarTag at h
    split at h
    · rename_i rest
      cases rest with
      | nil =>
          obtain ⟨rfl, hpre⟩ := hfound [] [] List.nil_prefix h
          exact ⟨⟨[], rfl, by simp, by simp⟩, hpre⟩
      | cons c rest =>
          dsimp only at h
          by_cases hstart : u.startsWord c = true
          · simp only [hstart, ite_true] at h
            obtain ⟨rfl, hpre⟩ := hfound _ _ (List.takeWhile_prefix _) h
            refine ⟨⟨_, rfl, fun d hd => List.all_eq_true.mp List.all_takeWhile d hd, fun d hd => ?_⟩, hpre⟩
            rw [List.takeWhile_cons_of_pos (inWord_of_startsWord hstart)] at hd
            obtain rfl := Option.some.inj hd
            exact hstart
          · simp only [hstart, Bool.false_eq_true, ite_false] at h
            obtain ⟨rfl, hpre⟩ := hfound _ _ List.nil_prefix h
            exact ⟨⟨[], rfl, by simp, by simp⟩, hpre⟩
    · cases h
  · rintro ⟨⟨name, rfl, hword, hstart⟩, tail, rfl⟩
    simp only [List.cons_append, List.append_assoc, List.nil_append]
    unfold dollarTag
    cases name with
    | nil => simp [not_startsWord_dollar]
    | cons c name =>
        have htake : (c :: name ++ '$' :: tail).takeWhile u.inWord = c :: name :=
          takeWhile_word hword
        simp only [List.cons_append] at htake ⊢
        simp only [hstart c rfl, ite_true, htake]
        simp

theorem IsTag.ne_nil {tag : List Char} (h : IsTag u tag) : tag ≠ [] := by
  obtain ⟨name, rfl, _⟩ := h
  simp

theorem IsTag.no_semicolon {tag : List Char} (h : IsTag u tag) : ';' ∉ tag := by
  obtain ⟨name, rfl, hword, _⟩ := h
  intro hmem
  simp only [List.mem_cons, List.mem_append, List.not_mem_nil, or_false] at hmem
  rcases hmem with hmem | hmem | hmem
  · cases hmem
  · have := hword _ hmem
    rw [not_inWord_semicolon] at this
    cases this
  · cases hmem

theorem token_length {c : Char} {rest after : List Char} {t : Token}
    (h : token u c rest = (t, after)) : after.length ≤ rest.length := by
  unfold token at h
  split at h
  · have hlen := congrArg List.length (takeString_append rest)
    rw [List.length_append] at hlen
    cases h
    omega
  · split at h
    · rename_i tag htag
      have hpos := List.length_pos_iff.mpr (dollarTag_eq_some.mp htag).1.ne_nil
      have hlen := congrArg List.length (takeDollar_append tag ((c :: rest).drop tag.length))
      rw [List.length_append, List.length_drop, List.length_cons] at hlen
      cases h
      omega
    · have htail := List.length_tail (l := rest)
      split at h
      · have := afterLine_length rest.tail
        cases h
        omega
      · split at h
        · have := afterBlock_length rest.tail
          cases h
          omega
        · split at h
          · cases h
            exact Nat.le_refl _
          · cases h
            exact Nat.le_refl _

theorem splitLoop_fuel {fuel fuel' : Nat} {chars current : List Char} (h : chars.length ≤ fuel)
    (h' : chars.length ≤ fuel') : splitLoop u fuel chars current = splitLoop u fuel' chars current := by
  induction fuel generalizing chars current fuel' with
  | zero =>
      obtain rfl := List.length_eq_zero_iff.mp (Nat.le_zero.mp h)
      simp [splitLoop]
  | succ fuel ih =>
      cases chars with
      | nil => simp [splitLoop]
      | cons c rest =>
          cases fuel' with
          | zero => simp at h'
          | succ fuel' =>
              simp only [List.length_cons, Nat.add_le_add_iff_right] at h h'
              unfold splitLoop
              cases ht : token u c rest with
              | mk t after =>
                  have hlen := token_length ht
                  cases t with
                  | text kept => exact ih (by omega) (by omega)
                  | comment => exact ih (by omega) (by omega)
                  | semicolon => simp only [ih (show after.length ≤ fuel by omega) (show after.length ≤ fuel' by omega)]

@[simp] theorem split_nil (current : List Char) : split u [] current = finish current := by
  simp [split, splitLoop]

theorem split_cons (c : Char) (rest current : List Char) : split u (c :: rest) current =
    match token u c rest with
    | (.text kept, after) => split u after (current ++ kept)
    | (.comment, after) => split u after (current ++ [' '])
    | (.semicolon, after) => finish current ++ split u after [] := by
  unfold split
  rw [List.length_cons, splitLoop]
  cases ht : token u c rest with
  | mk t after =>
      have hlen := token_length ht
      cases t with
      | text kept => exact splitLoop_fuel hlen (Nat.le_refl _)
      | comment => exact splitLoop_fuel hlen (Nat.le_refl _)
      | semicolon => exact congrArg (finish current ++ ·) (splitLoop_fuel hlen (Nat.le_refl _))

end Splitter

end Ruprizzle
