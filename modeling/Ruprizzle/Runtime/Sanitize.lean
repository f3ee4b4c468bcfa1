import Mathlib.Data.List.Forall2
import Mathlib.Data.List.Induction

namespace Ruprizzle.Runtime

-- Texts of statements with their literals taken out, as they are logged.

mutual

def sanitizeSql : List Char → List Char
  | [] => []
  | c :: rest => if c = '\x27' then "'?'".toList ++ skipLiteral rest else c :: sanitizeSql rest

-- The rest of a text that begins in a literal. A backslash takes the next character
-- with it, and so does a quote if that is a quote.
def skipLiteral : List Char → List Char
  | [] => []
  | c :: rest =>
      if c = '\\' then
        match rest with
        | [] => []
        | _ :: later => skipLiteral later
      else if c = '\x27' then
        match rest with
        | [] => []
        | next :: later => if next = '\x27' then skipLiteral later else sanitizeSql (next :: later)
      else skipLiteral rest

end

namespace Sanitize

-- What stands outside of literals before a literal, and what the literal holds.
abbrev Part := List Char × List Char

def doubled (literal : List Char) : List Char :=
  literal.flatMap fun c => if c = '\x27' then ['\x27', '\x27'] else [c]

def quoted (literal : List Char) : List Char := '\x27' :: (doubled literal ++ ['\x27'])

def text (parts : List Part) : List Char := parts.flatMap fun p => p.1 ++ quoted p.2

-- Two literals beside each other would be one. Names and comments may hold quotes.
structure Proper (parts : List Part) : Prop where
  edges : ∀ p ∈ parts, p.1.head? ≠ some '\x27' ∧ p.1.getLast? ≠ some '\x27'
  apart : ∀ p ∈ parts.tail, p.1 ≠ []

-- The scan with the place where it is: after a backslash in a literal, or after a
-- quote that may be the first of two.
inductive Place
  | code | literal | escaped | quote
  deriving DecidableEq, Repr

def Place.next : Place → Char → Place
  | code, c => if c = '\x27' then literal else code
  | literal, c => if c = '\\' then escaped else if c = '\x27' then quote else literal
  | escaped, _ => literal
  | quote, c => if c = '\x27' then literal else code

def Place.written : Place → Char → List Char
  | code, c => if c = '\x27' then "'?'".toList else [c]
  | literal, _ | escaped, _ => []
  | quote, c => if c = '\x27' then [] else [c]

def after (s : Place) (text : List Char) : Place := text.foldl Place.next s

def output : Place → List Char → List Char
  | _, [] => []
  | s, c :: rest => s.written c ++ output (s.next c) rest

-- A literal is read to its end if no backslash takes a quote with it.
def closes : List Char → Bool
  | [] => true
  | c :: rest =>
      if c = '\\' then
        match rest with
        | [] => false
        | next :: later => next ≠ '\x27' && closes later
      else closes rest

-- The quotes before a literal, of names and comments, leave the scan outside.
def settles (outside : List Char) : Bool := after .code outside ≠ .literal

-- The text gives nothing away of its literals: however it goes on, it is the same
-- with any other literals that are read to their ends, and so is each beginning of it.
def Hides (parts : List Part) : Prop :=
  ∀ begun, begun <+: parts → ∀ others : List Part, others.map Prod.fst = begun.map Prod.fst →
    (∀ p ∈ others, closes p.2 = true) →
    ∀ rest, sanitizeSql (text begun ++ rest) = sanitizeSql (text others ++ rest)

theorem output_append (s : Place) (a b : List Char) :
    output s (a ++ b) = output s a ++ output (after s a) b := by
  induction a generalizing s with
  | nil => rfl
  | cons c rest ih => rw [List.cons_append, output, output, ih, List.append_assoc]; rfl

theorem after_append (s : Place) (a b : List Char) : after s (a ++ b) = after (after s a) b :=
  List.foldl_append

theorem output_quote {c : Char} (hc : c ≠ '\x27') (rest : List Char) :
    output .quote (c :: rest) = output .code (c :: rest) := by
  simp [output, Place.written, Place.next, hc]

-- Both loops of the source at once.
theorem output_eq (n : Nat) : ∀ text : List Char, text.length ≤ n →
    output .code text = sanitizeSql text ∧ output .literal text = skipLiteral text := by
  induction n with
  | zero =>
      intro text hlength
      obtain rfl := List.length_eq_zero_iff.mp (Nat.le_zero.mp hlength)
      exact ⟨rfl, rfl⟩
  | succ n ih =>
      intro text hlength
      cases text with
      | nil => exact ⟨rfl, rfl⟩
      | cons c rest =>
          rw [List.length_cons] at hlength
          obtain ⟨hcode, hliteral⟩ := ih rest (by omega)
          constructor
          · by_cases hc : c = '\x27'
            · simp [output, Place.written, Place.next, sanitizeSql, hc, hliteral]
            · simp [output, Place.written, Place.next, sanitizeSql, hc, hcode]
          · by_cases hback : c = '\\'
            · cases rest with
              | nil => simp [output, Place.written, skipLiteral, hback]
              | cons next later =>
                  rw [List.length_cons] at hlength
                  have hlater := (ih later (by omega)).2
                  simp [output, Place.written, Place.next, skipLiteral, hback, hlater]
            · by_cases hc : c = '\x27'
              · cases rest with
                | nil => simp [output, Place.written, skipLiteral, hc]
                | cons next later =>
                    rw [List.length_cons] at hlength
                    have hlater := (ih later (by omega)).2
                    by_cases hnext : next = '\x27'
                    · simp [output, Place.written, Place.next, skipLiteral, hc, hnext, hlater]
                    · have hquote := output_quote hnext later
                      rw [skipLiteral, if_neg hback, if_pos hc, ← hcode, ← hquote]
                      simp [output, Place.written, Place.next, hc, hnext]
              · rw [skipLiteral.eq_def]
                simp [output, Place.written, Place.next, hback, hc, hliteral]

theorem sanitizeSql_eq (text : List Char) : sanitizeSql text = output .code text :=
  (output_eq text.length text (Nat.le_refl _)).1.symm

-- A literal, from the place where its opening quote stands.

theorem doubled_cons (c : Char) (rest : List Char) : doubled (c :: rest)
    = (if c = '\x27' then ['\x27', '\x27'] else [c]) ++ doubled rest := List.flatMap_cons

theorem after_cons (s : Place) (c : Char) (rest : List Char) :
    after s (c :: rest) = after (s.next c) rest := rfl

theorem output_cons (s : Place) (c : Char) (rest : List Char) :
    output s (c :: rest) = s.written c ++ output (s.next c) rest := rfl

-- Read from outside, what should be a literal ends inside of one.
theorem after_code (literal : List Char) :
    after .code (doubled literal ++ ['\x27']) = .literal ∧
      after .quote (doubled literal ++ ['\x27']) = .literal := by
  induction literal with
  | nil => exact ⟨rfl, rfl⟩
  | cons c rest ih =>
      rw [doubled_cons, List.append_assoc]
      by_cases hc : c = '\x27'
      · rw [if_pos hc]
        exact ⟨ih.2, ih.2⟩
      · rw [if_neg hc, List.singleton_append, after_cons, after_cons]
        have hcode : Place.next .code c = .code := by simp [Place.next, hc]
        have hquote : Place.next .quote c = .code := by simp [Place.next, hc]
        rw [hcode, hquote]
        exact ⟨ih.1, ih.1⟩

theorem output_closes {literal : List Char} (h : closes literal = true) :
    output .literal (doubled literal ++ ['\x27']) = [] ∧
      after .literal (doubled literal ++ ['\x27']) = .quote := by
  fun_induction closes literal with
  | case1 => exact ⟨rfl, rfl⟩
  | case2 => simp at h
  | case3 next later ih =>
      rw [Bool.and_eq_true, decide_eq_true_iff] at h
      rw [doubled_cons, doubled_cons, if_neg (by decide), if_neg h.1]
      exact ih h.2
  | case4 c rest hc ih =>
      rw [doubled_cons, List.append_assoc]
      by_cases hquote : c = '\x27'
      · rw [if_pos hquote]
        exact ih h
      · rw [if_neg hquote, List.singleton_append, after_cons, output_cons]
        have hnext : Place.next .literal c = .literal := by simp [Place.next, hc, hquote]
        rw [hnext]
        exact ih h

theorem after_not_closes {literal : List Char} (h : closes literal = false) :
    after .literal (doubled literal ++ ['\x27']) = .literal := by
  fun_induction closes literal with
  | case1 => simp at h
  | case2 => rfl
  | case3 next later ih =>
      rw [doubled_cons, doubled_cons, if_neg (by decide)]
      by_cases hnext : next = '\x27'
      · rw [if_pos hnext]
        exact (after_code later).2
      · rw [if_neg hnext]
        rw [decide_eq_true hnext, Bool.true_and] at h
        exact ih h
  | case4 c rest hc ih =>
      rw [doubled_cons, List.append_assoc]
      by_cases hquote : c = '\x27'
      · rw [if_pos hquote]
        exact ih h
      · rw [if_neg hquote, List.singleton_append, after_cons]
        have hnext : Place.next .literal c = .literal := by simp [Place.next, hc, hquote]
        rw [hnext]
        exact ih h

-- A part of a text, begun outside or after the literal of the part before.

-- After a quote, the next part has a character of its own first.
def Starts (s : Place) (outside : List Char) : Prop := s = .code ∨ s = .quote ∧ outside ≠ []

theorem starts_code {s : Place} {outside : List Char} (hs : Starts s outside)
    (hhead : outside.head? ≠ some '\x27') (rest : List Char) :
    output s (outside ++ rest) = output .code (outside ++ rest) ∧
      after s (outside ++ rest) = after .code (outside ++ rest) := by
  rcases hs with rfl | ⟨rfl, hne⟩
  · exact ⟨rfl, rfl⟩
  · obtain ⟨c, more, rfl⟩ := List.exists_cons_of_ne_nil hne
    have hc : c ≠ '\x27' := fun hc => hhead (congrArg some hc)
    refine ⟨output_quote hc _, ?_⟩
    have hnext : Place.next .quote c = Place.next .code c := by simp [Place.next, hc]
    rw [List.cons_append, after_cons, after_cons, hnext]

theorem after_ne_quote {outside : List Char} (hlast : outside.getLast? ≠ some '\x27') :
    after .code outside ≠ .quote := by
  rcases List.eq_nil_or_concat' outside with rfl | ⟨init, c, rfl⟩
  · decide
  · rw [List.getLast?_concat] at hlast
    have hc : c ≠ '\x27' := fun hc => hlast (congrArg some hc)
    rw [after_append]
    show (after .code init).next c ≠ .quote
    generalize after .code init = s
    cases s with
    | code => simp [Place.next, hc]
    | escaped => simp [Place.next]
    | quote => simp [Place.next, hc]
    | literal =>
        by_cases hback : c = '\\'
        · simp [Place.next, hback]
        · simp [Place.next, hback, hc]

theorem part_eq {s : Place} {outside : List Char} (hs : Starts s outside)
    (hhead : outside.head? ≠ some '\x27') (literal : List Char) :
    output s (outside ++ quoted literal) = output .code outside ++
      ((after .code outside).written '\x27' ++
        output ((after .code outside).next '\x27') (doubled literal ++ ['\x27'])) ∧
    after s (outside ++ quoted literal)
      = after ((after .code outside).next '\x27') (doubled literal ++ ['\x27']) := by
  obtain ⟨houtput, hafter⟩ := starts_code hs hhead (quoted literal)
  rw [houtput, hafter, output_append, after_append, quoted, output_cons, after_cons]
  exact ⟨rfl, rfl⟩

theorem next_of_settles {outside : List Char} (hlast : outside.getLast? ≠ some '\x27')
    (h : settles outside = true) : (after .code outside).next '\x27' = .literal := by
  have hquote := after_ne_quote hlast
  have hliteral : after .code outside ≠ .literal := of_decide_eq_true h
  generalize after .code outside = s at hquote hliteral
  cases s with
  | code => rfl
  | escaped => rfl
  | literal => exact absurd rfl hliteral
  | quote => exact absurd rfl hquote

-- What each part has to be like.
def Harmless (p : Part) : Prop := settles p.1 = true ∧ closes p.2 = true

theorem text_cons (p : Part) (parts : List Part) : text (p :: parts) = p.1 ++ quoted p.2 ++ text parts :=
  List.flatMap_cons

theorem text_concat (parts : List Part) (p : Part) : text (parts ++ [p]) = text parts ++ (p.1 ++ quoted p.2) := by
  rw [text, List.flatMap_append, List.flatMap_singleton, ← text]

theorem harmless_part {s : Place} {p : Part} (hs : Starts s p.1) (hhead : p.1.head? ≠ some '\x27')
    (hlast : p.1.getLast? ≠ some '\x27') (h : Harmless p) :
    output s (p.1 ++ quoted p.2) = output .code p.1 ++ (after .code p.1).written '\x27' ∧
      after s (p.1 ++ quoted p.2) = .quote := by
  obtain ⟨houtput, hafter⟩ := part_eq hs hhead p.2
  rw [next_of_settles hlast h.1] at houtput hafter
  obtain ⟨hnone, hquote⟩ := output_closes h.2
  rw [houtput, hafter, hnone, hquote, List.append_nil]
  exact ⟨rfl, rfl⟩

-- Harmless parts are read as the same parts with other literals.
theorem harmless_parts {parts others : List Part} {s : Place} (hs : ∀ p ∈ parts.head?, Starts s p.1)
    (hproper : Proper parts) (h : ∀ p ∈ parts, Harmless p)
    (hsame : others.map Prod.fst = parts.map Prod.fst) (hclosed : ∀ p ∈ others, closes p.2 = true) :
    output s (text others) = output s (text parts) ∧
      after s (text others) = after s (text parts) ∧
      (parts ≠ [] → after s (text parts) = .quote) := by
  induction parts generalizing others s with
  | nil =>
      obtain rfl := List.map_eq_nil_iff.mp hsame
      exact ⟨rfl, rfl, fun hne => absurd rfl hne⟩
  | cons p rest ih =>
      obtain ⟨p', rest', rfl, hfst, hrest⟩ := List.map_eq_cons_iff.mp hsame
      obtain ⟨hp, hmore⟩ := List.forall_mem_cons.mp h
      obtain ⟨hp', hmore'⟩ := List.forall_mem_cons.mp hclosed
      obtain ⟨hedge, hedges⟩ := List.forall_mem_cons.mp hproper.edges
      have hstart : Starts s p.1 := hs p rfl
      obtain ⟨houtput, hafter⟩ := harmless_part hstart hedge.1 hedge.2 hp
      have hharmless' : Harmless p' := ⟨hfst ▸ hp.1, hp'⟩
      obtain ⟨houtput', hafter'⟩ :=
        harmless_part (hfst ▸ hstart) (hfst ▸ hedge.1) (hfst ▸ hedge.2) hharmless'
      have htail : Proper rest :=
        ⟨hedges, fun q hq => hproper.apart q (List.mem_of_mem_tail hq)⟩
      have hnext : ∀ q ∈ rest.head?, Starts .quote q.1 := fun q hq =>
        .inr ⟨rfl, hproper.apart q (List.mem_of_mem_head? hq)⟩
      obtain ⟨hrestOutput, hrestAfter, hquote⟩ := ih hnext htail hmore hrest hmore'
      rw [text_cons, text_cons, output_append s (p'.1 ++ quoted p'.2), after_append s (p'.1 ++ _),
        output_append s (p.1 ++ quoted p.2), after_append s (p.1 ++ _), houtput, houtput', hafter,
        hafter', hfst, hrestOutput, hrestAfter]
      refine ⟨rfl, rfl, fun _ => ?_⟩
      cases rest with
      | nil => rfl
      | cons q more => exact hquote (by simp)

theorem hides_of_harmless {parts : List Part} (hproper : Proper parts) (h : ∀ p ∈ parts, Harmless p) :
    Hides parts := by
  rintro begun ⟨later, rfl⟩ others hsame hclosed rest
  have hbegun : Proper begun := by
    refine ⟨fun p hp => hproper.edges p (List.mem_append_left _ hp), fun p hp => ?_⟩
    cases begun with
    | nil => simp at hp
    | cons first more => exact hproper.apart p (List.mem_append_left _ hp)
  obtain ⟨houtput, hafter, -⟩ := harmless_parts (s := .code) (fun _ _ => .inl rfl) hbegun
    (fun p hp => h p (List.mem_append_left _ hp)) hsame hclosed
  rw [sanitizeSql_eq, sanitizeSql_eq, output_append, output_append, houtput, hafter]

-- A part that is written alike with every other literal in its place.
def SameWritten (s : Place) (p : Part) : Prop :=
  ∀ literal, closes literal = true → ∀ rest,
    output s (p.1 ++ quoted p.2) ++ output (after s (p.1 ++ quoted p.2)) rest
      = output s (p.1 ++ quoted literal) ++ output (after s (p.1 ++ quoted literal)) rest

-- From within a literal the next one would be written out.
theorem settles_of_same {s : Place} {p : Part} (hs : Starts s p.1) (hhead : p.1.head? ≠ some '\x27')
    (h : SameWritten s p) : settles p.1 = true := by
  by_contra hnot
  have hinside : after .code p.1 = .literal := by
    simpa [settles] using hnot
  have hsame := (h ['a'] rfl []).symm.trans (h ['b'] rfl [])
  rw [(part_eq hs hhead ['a']).1, (part_eq hs hhead ['b']).1, hinside] at hsame
  simp [output, Place.written, Place.next, doubled] at hsame

-- A literal that is not read to its end takes what follows with it.
theorem closes_of_same {s : Place} {p : Part} (hs : Starts s p.1) (hhead : p.1.head? ≠ some '\x27')
    (hlast : p.1.getLast? ≠ some '\x27') (hsettles : settles p.1 = true) (h : SameWritten s p) :
    closes p.2 = true := by
  by_contra hnot
  rw [Bool.not_eq_true] at hnot
  have hend : after s (p.1 ++ quoted p.2) = .literal := by
    rw [(part_eq hs hhead p.2).2, next_of_settles hlast hsettles]
    exact after_not_closes hnot
  have hempty : after s (p.1 ++ quoted []) = .quote :=
    (harmless_part (p := (p.1, [])) hs hhead hlast ⟨hsettles, rfl⟩).2
  have hnone := congrArg List.length (h [] rfl [])
  have hmore := congrArg List.length (h [] rfl [';'])
  rw [hend, hempty] at hnone hmore
  simp [output, Place.written] at hnone hmore
  omega

theorem sanitize_concat (parts : List Part) (p : Part) (rest : List Char) :
    sanitizeSql (text (parts ++ [p]) ++ rest) = output .code (text parts) ++
      (output (after .code (text parts)) (p.1 ++ quoted p.2) ++
        output (after (after .code (text parts)) (p.1 ++ quoted p.2)) rest) := by
  rw [sanitizeSql_eq, text_concat, List.append_assoc, output_append,
    output_append (after .code (text parts)) (p.1 ++ quoted p.2)]

theorem Proper.init {parts : List Part} {p : Part} (h : Proper (parts ++ [p])) : Proper parts := by
  refine ⟨fun q hq => h.edges q (List.mem_append_left _ hq), fun q hq => ?_⟩
  cases parts with
  | nil => simp at hq
  | cons first more => exact h.apart q (List.mem_append_left _ hq)

-- The first part that is not harmless shows.
theorem last_harmless {parts : List Part} {p : Part} (hproper : Proper (parts ++ [p]))
    (hbefore : ∀ q ∈ parts, Harmless q) (h : Hides (parts ++ [p])) : Harmless p := by
  obtain ⟨hhead, hlast⟩ := hproper.edges p (List.mem_append_right _ (List.mem_singleton_self p))
  -- the same text with empty literals before the last one
  let blank : List Part := parts.map fun q => (q.1, [])
  have hblank : blank.map Prod.fst = parts.map Prod.fst := by simp [blank]
  have hclosed : ∀ q ∈ blank, closes q.2 = true := by
    intro q hq
    obtain ⟨q', -, rfl⟩ := List.mem_map.mp hq
    rfl
  obtain ⟨houtput, hafter, hquote⟩ :=
    harmless_parts (s := .code) (fun _ _ => .inl rfl) hproper.init hbefore hblank hclosed
  have hstart : Starts (after .code (text parts)) p.1 := by
    cases parts with
    | nil => exact .inl rfl
    | cons first more => exact .inr ⟨hquote (by simp), hproper.apart p (by simp)⟩
  have hsame : SameWritten (after .code (text parts)) p := by
    intro literal hliteral rest
    have hothers : ∀ q ∈ blank ++ [(p.1, literal)], closes q.2 = true := by
      intro q hq
      rcases List.mem_append.mp hq with hq | hq
      · exact hclosed q hq
      · rw [List.mem_singleton.mp hq]
        exact hliteral
    have hwritten := h (parts ++ [p]) (List.prefix_refl _) (blank ++ [(p.1, literal)])
      (by simp [hblank]) hothers rest
    rw [sanitize_concat, sanitize_concat, houtput, hafter] at hwritten
    exact List.append_cancel_left hwritten
  have hsettles := settles_of_same hstart hhead hsame
  exact ⟨hsettles, closes_of_same hstart hhead hlast hsettles hsame⟩

theorem harmless_of_hides {parts : List Part} (hproper : Proper parts) (h : Hides parts) :
    ∀ p ∈ parts, Harmless p := by
  induction parts using List.reverseRecOn with
  | nil => simp
  | append_singleton init p ih =>
      have hbefore := ih hproper.init fun begun hbegun =>
        h begun (hbegun.trans (List.prefix_append _ _))
      intro q hq
      rcases List.mem_append.mp hq with hq | hq
      · exact hbefore q hq
      · rw [List.mem_singleton.mp hq]
        exact last_harmless hproper hbefore h

-- Quotes and backslashes in literals, and quotes outside of them, are what the scan
-- can be misled by.
theorem hides_iff {parts : List Part} (hproper : Proper parts) :
    Hides parts ↔ ∀ p ∈ parts, Harmless p :=
  ⟨harmless_of_hides hproper, hides_of_harmless hproper⟩

theorem hides_name : Hides [("name = ".toList, "O'Brien".toList), (" AND x = ".toList, [])] ↔
    ∀ p ∈ [("name = ".toList, "O'Brien".toList), (" AND x = ".toList, [])], Harmless p :=
  hides_iff ⟨by decide, by decide⟩

-- The backslash takes the closing quote with it, and the next literal is written out.
theorem secret_written :
    ∃ parts others : List Part, Proper parts ∧ parts.map Prod.fst = others.map Prod.fst ∧
      sanitizeSql (text parts) ≠ sanitizeSql (text others) :=
  ⟨[("dir = ".toList, "C:\\".toList), (" AND name = ".toList, "secret".toList)],
    [("dir = ".toList, "C:".toList), (" AND name = ".toList, "other".toList)],
    ⟨by decide, by decide⟩, by decide,
    by simp [text, quoted, doubled, sanitizeSql, skipLiteral]⟩

end Sanitize

end Ruprizzle.Runtime
