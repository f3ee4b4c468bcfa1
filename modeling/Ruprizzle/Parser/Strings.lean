import Mathlib.Data.List.Basic

namespace Ruprizzle.Strings

-- String literals of the schema language: where the grammar ends one, what it means,
-- and how db pull writes one.

-- The rule for the inside of a literal: up to a quote that does not follow a backslash
-- of its own.
def innerStr : List Char → List Char × List Char
  | [] => ([], [])
  | '"' :: rest => ([], '"' :: rest)
  | '\\' :: '"' :: rest => ('\\' :: '"' :: (innerStr rest).1, (innerStr rest).2)
  | c :: rest => (c :: (innerStr rest).1, (innerStr rest).2)

-- The rule for a literal: its body, and the text after it.
def string : List Char → Option (List Char × List Char)
  | '"' :: text =>
      match innerStr text with
      | (body, '"' :: rest) => some (body, rest)
      | _ => none
  | _ => none

def resolve : Char → Char
  | 'n' => '\n'
  | 't' => '\t'
  | 'r' => '\r'
  | other => other

def unescapeChars : List Char → List Char
  | [] => []
  | ['\\'] => ['\\']
  | '\\' :: c :: rest => resolve c :: unescapeChars rest
  | c :: rest => c :: unescapeChars rest

def unescape (raw : String) : String :=
  if ¬ raw.toList.contains '\\' then raw else String.ofList (unescapeChars raw.toList)

def replace (pattern : Char) (new : String) (text : String) : String :=
  String.ofList (text.toList.flatMap fun c => if c = pattern then new.toList else [c])

def escape (value : String) : String := replace '"' "\\\"" (replace '\\' "\\\\" value)

-- A literal as db pull prints it.
def printed (value : String) : String := "\"" ++ escape value ++ "\""

section Grammar

variable {c : Char} {text body rest value : List Char}

theorem innerStr_plain (hquote : c ≠ '"') (hescape : ∀ tail, c = '\\' → rest ≠ '"' :: tail) :
    innerStr (c :: rest) = (c :: (innerStr rest).1, (innerStr rest).2) := by
  rw [innerStr]
  · exact hquote
  · exact hescape

theorem innerStr_append (text : List Char) : (innerStr text).1 ++ (innerStr text).2 = text := by
  induction text using innerStr.induct with
  | case1 => rfl
  | case2 rest => rfl
  | case3 rest ih =>
      rw [innerStr]
      exact congrArg (fun t => '\\' :: '"' :: t) ih
  | case4 c rest hquote hescape ih =>
      rw [innerStr_plain hquote hescape]
      exact congrArg (List.cons c) ih

-- A body never ends with a backslash: the quote behind it would belong to it.
theorem innerStr_last (h : (innerStr text).2 = '"' :: rest) : (innerStr text).1.getLast? ≠ some '\\' := by
  induction text using innerStr.induct with
  | case1 => exact nofun
  | case2 rest => exact nofun
  | case3 tail ih =>
      rw [innerStr] at h ⊢
      have hlast := ih h
      cases htail : (innerStr tail).1 with
      | nil => simp
      | cons d ds =>
          rw [htail] at hlast
          rw [List.getLast?_cons_cons, List.getLast?_cons_cons]
          exact hlast
  | case4 c tail hquote hescape ih =>
      rw [innerStr_plain hquote hescape] at h ⊢
      have hlast := ih h
      cases htail : (innerStr tail).1 with
      | nil =>
          have happend := innerStr_append tail
          rw [htail, h, List.nil_append] at happend
          intro heq
          have hc : c = '\\' := by simpa using heq
          exact hescape rest hc happend.symm
      | cons d ds =>
          rw [htail] at hlast
          rw [List.getLast?_cons_cons]
          exact hlast

theorem string_some (h : string text = some (body, rest)) :
    text = '"' :: body ++ '"' :: rest ∧ body.getLast? ≠ some '\\' := by
  unfold string at h
  split at h
  · rename_i tail
    split at h
    · rename_i body' rest' heq
      obtain ⟨rfl, rfl⟩ := Prod.mk.inj (Option.some.inj h)
      have happend := innerStr_append tail
      have hlast := @innerStr_last tail rest' (by rw [heq])
      rw [heq] at happend hlast
      exact ⟨by rw [← happend]; rfl, hlast⟩
    · cases h
  · cases h

end Grammar

-- What a body says, read from left to right: a backslash and the character behind it
-- stand for one character.
inductive Reads : List Char → List Char → Prop
  | nil : Reads [] []
  | plain {c : Char} {text value : List Char} (hc : c ≠ '\\') (h : Reads text value) :
      Reads (c :: text) (c :: value)
  | escape {c : Char} {text value : List Char} (h : Reads text value) :
      Reads ('\\' :: c :: text) (resolve c :: value)

section Meaning

variable {c : Char} {text body rest value : List Char}

theorem unescapeChars_plain (hc : c ≠ '\\') : unescapeChars (c :: rest) = c :: unescapeChars rest := by
  rw [unescapeChars]
  · exact fun heq _ => hc heq
  · exact fun _ _ heq => absurd heq hc

theorem unescapeChars_bare (h : '\\' ∉ text) : unescapeChars text = text := by
  induction text with
  | nil => rfl
  | cons c rest ih =>
      rw [List.mem_cons, not_or] at h
      rw [unescapeChars_plain (Ne.symm h.1), ih h.2]

theorem unescape_chars (raw : String) : (unescape raw).toList = unescapeChars raw.toList := by
  unfold unescape
  by_cases h : raw.toList.contains '\\'
  · rw [if_neg (by simpa using h), String.toList_ofList]
  · rw [if_pos (by simpa using h)]
    exact (unescapeChars_bare (by simpa using h)).symm

theorem Reads.eq (h : Reads text value) : value = unescapeChars text := by
  induction h with
  | nil => rfl
  | plain hc _ ih => rw [unescapeChars_plain hc, ih]
  | escape _ ih => rw [unescapeChars, ih]

-- Only a lone backslash at the end has no meaning of its own.
theorem reads_unescapeChars (h : text.getLast? ≠ some '\\') : Reads text (unescapeChars text) := by
  induction text using unescapeChars.induct with
  | case1 => exact .nil
  | case2 => exact absurd rfl h
  | case3 c rest ih =>
      rw [unescapeChars]
      refine .escape (ih ?_)
      cases rest with
      | nil => exact nofun
      | cons d ds => simpa using h
  | case4 c rest hlone hpair ih =>
      have hc : c ≠ '\\' := by
        intro heq
        cases rest with
        | nil => exact hlone heq rfl
        | cons d ds => exact hpair d ds heq rfl
      rw [unescapeChars_plain hc]
      refine .plain hc (ih ?_)
      cases rest with
      | nil => exact nofun
      | cons d ds => simpa using h

theorem reads_iff (h : text.getLast? ≠ some '\\') : Reads text value ↔ value = unescapeChars text := by
  constructor
  · exact Reads.eq
  · intro heq
    rw [heq]
    exact reads_unescapeChars h

end Meaning

def escaped (c : Char) : List Char :=
  if c = '\\' then ['\\', '\\'] else if c = '"' then ['\\', '"'] else [c]

section Printed

variable {c : Char} {text rest : List Char}

@[simp] theorem escaped_backslash : escaped '\\' = ['\\', '\\'] := rfl

@[simp] theorem escaped_quote : escaped '"' = ['\\', '"'] := rfl

theorem escaped_plain (hc : c ≠ '\\') (hq : c ≠ '"') : escaped c = [c] := by
  unfold escaped
  rw [if_neg hc, if_neg hq]

theorem escape_chars (s : String) : (escape s).toList = s.toList.flatMap escaped := by
  unfold escape replace
  simp only [String.toList_ofList]
  rw [List.flatMap_assoc]
  congr 1
  funext c
  by_cases hc : c = '\\'
  · rw [if_pos hc, hc]
    rfl
  · rw [if_neg hc, List.flatMap_singleton]
    by_cases hq : c = '"'
    · rw [if_pos hq, hq]
      rfl
    · rw [if_neg hq, escaped_plain hc hq]

theorem unescapeChars_escaped (text : List Char) : unescapeChars (text.flatMap escaped) = text := by
  induction text with
  | nil => rfl
  | cons c text ih =>
      rw [List.flatMap_cons]
      by_cases hc : c = '\\'
      · rw [hc, escaped_backslash, List.cons_append, List.singleton_append, unescapeChars, ih]
        rfl
      by_cases hq : c = '"'
      · rw [hq, escaped_quote, List.cons_append, List.singleton_append, unescapeChars, ih]
        rfl
      · rw [escaped_plain hc hq, List.singleton_append, unescapeChars_plain hc, ih]

theorem escaped_last (h : text.getLast? = some '\\') : (text.flatMap escaped).getLast? = some '\\' := by
  obtain ⟨init, rfl⟩ := List.getLast?_eq_some_iff.mp h
  rw [List.flatMap_append]
  exact List.getLast?_append_of_ne_nil _ nofun

-- What is printed begins with a quote only where nothing is.
theorem escaped_head (h : text ≠ []) (tail : List Char) :
    text.flatMap escaped ++ '"' :: rest ≠ '"' :: tail := by
  intro heq
  cases text with
  | nil => exact h rfl
  | cons c text =>
      rw [List.flatMap_cons] at heq
      by_cases hc : c = '\\'
      · rw [hc, escaped_backslash] at heq
        exact absurd (List.cons.inj heq).1 (by decide)
      by_cases hq : c = '"'
      · rw [hq, escaped_quote] at heq
        exact absurd (List.cons.inj heq).1 (by decide)
      · rw [escaped_plain hc hq] at heq
        exact hq (List.cons.inj heq).1

-- A text that does not end with a backslash is written so that the literal ends with it.
theorem innerStr_escaped (h : text.getLast? ≠ some '\\') :
    innerStr (text.flatMap escaped ++ '"' :: rest) = (text.flatMap escaped, '"' :: rest) := by
  induction text with
  | nil => rfl
  | cons c text ih =>
      have hlast : text.getLast? ≠ some '\\' := by
        cases text with
        | nil => exact nofun
        | cons d ds => simpa using h
      rw [List.flatMap_cons, List.append_assoc]
      by_cases hc : c = '\\'
      · -- The second backslash is not followed by the closing quote.
        have hmore : text ≠ [] := by
          intro hempty
          exact h (by rw [hempty, hc]; rfl)
        have hsecond := @innerStr_plain '\\' (text.flatMap escaped ++ '"' :: rest) (by decide)
          fun tail _ => escaped_head hmore tail
        have hfirst := @innerStr_plain '\\' ('\\' :: (text.flatMap escaped ++ '"' :: rest)) (by decide)
          fun tail _ heq => absurd (List.cons.inj heq).1 (by decide)
        rw [hc, escaped_backslash, List.cons_append, List.singleton_append, hfirst, hsecond, ih hlast]
        rfl
      by_cases hq : c = '"'
      · rw [hq, escaped_quote, List.cons_append, List.singleton_append, innerStr, ih hlast]
        rfl
      · rw [escaped_plain hc hq, List.singleton_append, innerStr_plain hq (fun _ heq => absurd heq hc),
          ih hlast]
        rfl

end Printed

-- The law: a printed literal is one literal, whatever follows it, and means the text
-- printed; and what an accepted literal means is read from left to right.
structure RoundTrips (value after : String) : Prop where
  whole : string (printed value ++ after).toList = some ((escape value).toList, after.toList)
  meaning : unescape (escape value) = value
  accepted : ∀ text body rest, string text = some (body, rest) →
    text = '"' :: body ++ '"' :: rest ∧ ∀ read, Reads body read ↔ read = (unescape (String.ofList body)).toList

theorem round_trips_iff (value after : String) :
    RoundTrips value after ↔ value.toList.getLast? ≠ some '\\' := by
  have htext : (printed value ++ after).toList = '"' :: (value.toList.flatMap escaped ++ '"' :: after.toList) := by
    unfold printed
    simp [escape_chars]
  constructor
  · intro h hlast
    have hbody := (string_some h.whole).2
    rw [escape_chars] at hbody
    exact hbody (escaped_last hlast)
  · intro hlast
    refine ⟨?_, ?_, fun text body rest h => ?_⟩
    · rw [htext, string, innerStr_escaped hlast, escape_chars]
      rfl
    · apply String.toList_inj.mp
      rw [unescape_chars, escape_chars, unescapeChars_escaped]
    · obtain ⟨heq, hnot⟩ := string_some h
      refine ⟨heq, fun read => ?_⟩
      rw [unescape_chars, String.toList_ofList]
      exact reads_iff hnot

-- A text that ends with a backslash swallows the closing quote.
theorem printed_unterminated :
    string (printed "C:\\" ++ ")").toList = none ∧ ¬ RoundTrips "C:\\" ")" := by
  have hnone : string (printed "C:\\" ++ ")").toList = none := by decide +kernel
  refine ⟨hnone, fun h => ?_⟩
  have hwhole := h.whole
  rw [hnone] at hwhole
  cases hwhole

end Ruprizzle.Strings
