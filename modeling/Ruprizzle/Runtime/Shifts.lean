import Ruprizzle.Runtime.Placeholders

namespace Ruprizzle.Runtime

-- Where renumbering shifts the placeholders of a statement and nothing else.

-- The digits behind every dollar of a text.
def numbers : List Char → List (List Char)
  | [] => []
  | c :: rest =>
      let digits := rest.takeWhile Char.isDigit
      if c = '$' ∧ digits ≠ [] then digits :: numbers rest else numbers rest

-- The number of a placeholder and its shift, in the 64 bits of a usize. The shift of a
-- subquery subtracts one first. What does not fit is a panic.
def fits (offset : Nat) (text : List Char) : Bool :=
  (numbers text).all fun digits =>
    0 < Nat.ofDigitChars 10 digits 0 + offset ∧ Nat.ofDigitChars 10 digits 0 + offset < 2 ^ 64

def CompiledSql.renumberedChecked (c : CompiledSql) (offset : Nat) : Option CompiledSql :=
  if offset = 0 ∨ c.binds.isEmpty ∨ '$' ∉ c.sql ∨ fits offset c.sql then some (c.renumbered offset)
  else none

-- The text of a subquery pushed into a PostgreSQL statement with that many binds.
def pushSubquery (offset : Nat) (c : CompiledSql) : Option (List Char) :=
  if fits offset c.sql then some (Push.text .postgres offset (.subquery c)) else none

-- The purpose: a dollar with digits that begins a placeholder gets the shifted number,
-- and every other character stays.
def shiftFrom (offset : Nat) : Nat → Mode → List Char → List Char
  | _, _, [] => []
  | taken + 1, m, c :: rest => shiftFrom offset taken (Lexer.scan .postgres m c).2 rest
  | 0, m, c :: rest =>
      let digits := rest.takeWhile Char.isDigit
      let next := Lexer.scan .postgres m c
      if c = '$' ∧ digits ≠ [] ∧ next.1 = .start .param then
        '$' :: shifted offset digits ++ shiftFrom offset digits.length next.2 rest
      else c :: shiftFrom offset 0 next.2 rest

def shift (offset : Nat) (text : List Char) : List Char := shiftFrom offset 0 .gap text

-- The numbers of the placeholders, or of the other dollars: in literals, names and
-- comments.
def dollars (placeholder : Bool) : Mode → List Char → List (List Char)
  | _, [] => []
  | m, c :: rest =>
      let digits := rest.takeWhile Char.isDigit
      let next := Lexer.scan .postgres m c
      if c = '$' ∧ digits ≠ [] ∧ decide (next.1 = .start .param) = placeholder then
        digits :: dollars placeholder next.2 rest
      else dollars placeholder next.2 rest

def Ascii (text : List Char) : Prop := ∀ c ∈ text, c.toNat < 128

instance (text : List Char) : Decidable (Ascii text) :=
  decidable_of_iff (text.all fun c => c.toNat < 128) (by simp [Ascii])

variable {offset : Nat} {m : Mode} {c first : Char} {more rest text : List Char}

theorem numbers_char (h : c = '$' → ∀ e ∈ rest.head?, e.isDigit = false) :
    numbers (c :: rest) = numbers rest := by
  have hnot : ¬ (c = '$' ∧ rest.takeWhile Char.isDigit ≠ []) := by
    intro ⟨hc, hdigits⟩
    have hnone : ([] ++ rest).takeWhile Char.isDigit = [] := takeWhile_digits (by simp) (h hc)
    exact hdigits hnone
  rw [numbers]
  exact if_neg hnot

theorem digit_ne_dollar (h : c.isDigit = true) : c ≠ '$' := by
  rintro rfl
  exact absurd h (by decide)

theorem numbers_digits (h : ∀ e ∈ more, e.isDigit) : numbers (more ++ rest) = numbers rest := by
  induction more with
  | nil => rfl
  | cons e more ih =>
      have he := digit_ne_dollar (h e List.mem_cons_self)
      rw [List.cons_append, numbers_char (fun heq => absurd heq he)]
      exact ih fun e he => h e (List.mem_cons_of_mem _ he)

theorem takeWhile_unit (hfirst : first.isDigit) (hmore : ∀ e ∈ more, e.isDigit)
    (hrest : ∀ e ∈ rest.head?, e.isDigit = false) :
    (first :: more ++ rest).takeWhile Char.isDigit = first :: more := by
  refine takeWhile_digits (fun e he => ?_) hrest
  rcases List.mem_cons.mp he with rfl | he
  · exact hfirst
  · exact hmore e he

theorem unit_digits (hfirst : first.isDigit) (hmore : ∀ e ∈ more, e.isDigit) :
    ∀ e ∈ first :: more, e.isDigit = true := by
  intro e he
  rcases List.mem_cons.mp he with rfl | he
  · exact hfirst
  · exact hmore e he

theorem numbers_dollar (hfirst : first.isDigit) (hmore : ∀ e ∈ more, e.isDigit)
    (hrest : ∀ e ∈ rest.head?, e.isDigit = false) :
    numbers ('$' :: first :: more ++ rest) = (first :: more) :: numbers rest := by
  have hdigits := takeWhile_unit hfirst hmore hrest
  rw [List.cons_append, numbers, hdigits]
  simp only [ne_eq, reduceCtorEq, not_false_eq_true, and_self, ite_true]
  exact congrArg _ (numbers_digits (unit_digits hfirst hmore))

theorem shiftFrom_char (h : c = '$' → ∀ e ∈ rest.head?, e.isDigit = false) :
    shiftFrom offset 0 m (c :: rest) = c :: shiftFrom offset 0 (Lexer.scan .postgres m c).2 rest := by
  have hnot : ¬ (c = '$' ∧ rest.takeWhile Char.isDigit ≠ [] ∧
      (Lexer.scan .postgres m c).1 = .start .param) := by
    intro ⟨hc, hdigits, _⟩
    have hnone : ([] ++ rest).takeWhile Char.isDigit = [] := takeWhile_digits (by simp) (h hc)
    exact hdigits hnone
  rw [shiftFrom]
  exact if_neg hnot

theorem shiftFrom_digits (h : ∀ e ∈ more, e.isDigit) :
    shiftFrom offset 0 m (more ++ rest) =
      more ++ shiftFrom offset 0 (Scan.modeAfter (Lexer.scan .postgres) m more) rest := by
  induction more generalizing m with
  | nil => rfl
  | cons e more ih =>
      have he := digit_ne_dollar (h e List.mem_cons_self)
      rw [List.cons_append, shiftFrom_char (fun heq => absurd heq he),
        ih fun e he => h e (List.mem_cons_of_mem _ he)]
      rfl

theorem shiftFrom_taken (taken : List Char) :
    shiftFrom offset taken.length m (taken ++ rest) =
      shiftFrom offset 0 (Scan.modeAfter (Lexer.scan .postgres) m taken) rest := by
  induction taken generalizing m with
  | nil => rfl
  | cons e taken ih => exact ih

-- A dollar with its digits, in a mode where it begins a placeholder or not.
theorem shiftFrom_dollar (hfirst : first.isDigit) (hmore : ∀ e ∈ more, e.isDigit)
    (hrest : ∀ e ∈ rest.head?, e.isDigit = false) :
    shiftFrom offset 0 m ('$' :: first :: more ++ rest) =
      '$' :: (if (Lexer.scan .postgres m '$').1 = .start .param then shifted offset (first :: more)
        else first :: more) ++
      shiftFrom offset 0 (Scan.modeAfter (Lexer.scan .postgres) m ('$' :: first :: more)) rest := by
  have hdigits := takeWhile_unit hfirst hmore hrest
  rw [List.cons_append, shiftFrom, hdigits]
  by_cases hparam : (Lexer.scan .postgres m '$').1 = .start .param
  · rw [if_pos ⟨rfl, List.cons_ne_nil _ _, hparam⟩, if_pos hparam, shiftFrom_taken]
    rfl
  · rw [if_neg (fun h => hparam h.2.2), if_neg hparam, shiftFrom_digits (unit_digits hfirst hmore)]
    rfl

theorem dollars_char {b : Bool} (h : c = '$' → ∀ e ∈ rest.head?, e.isDigit = false) :
    dollars b m (c :: rest) = dollars b (Lexer.scan .postgres m c).2 rest := by
  have hnot : ¬ (c = '$' ∧ rest.takeWhile Char.isDigit ≠ [] ∧
      decide ((Lexer.scan .postgres m c).1 = .start .param) = b) := by
    intro ⟨hc, hdigits, _⟩
    have hnone : ([] ++ rest).takeWhile Char.isDigit = [] := takeWhile_digits (by simp) (h hc)
    exact hdigits hnone
  rw [dollars]
  exact if_neg hnot

theorem dollars_none {b : Bool} (h : '$' ∉ text) : dollars b m text = [] := by
  induction text generalizing m with
  | nil => rfl
  | cons c rest ih =>
      rw [List.mem_cons, not_or] at h
      rw [dollars_char fun heq => absurd heq.symm h.1, ih h.2]

theorem dollars_digits {b : Bool} (h : ∀ e ∈ more, e.isDigit) :
    dollars b m (more ++ rest) = dollars b (Scan.modeAfter (Lexer.scan .postgres) m more) rest := by
  induction more generalizing m with
  | nil => rfl
  | cons e more ih =>
      have he := digit_ne_dollar (h e List.mem_cons_self)
      rw [List.cons_append, dollars_char (fun heq => absurd heq he)]
      exact ih fun e he => h e (List.mem_cons_of_mem _ he)

theorem dollars_dollar {b : Bool} (hfirst : first.isDigit) (hmore : ∀ e ∈ more, e.isDigit)
    (hrest : ∀ e ∈ rest.head?, e.isDigit = false) :
    dollars b m ('$' :: first :: more ++ rest) =
      (if decide ((Lexer.scan .postgres m '$').1 = .start .param) = b then [first :: more] else []) ++
      dollars b (Scan.modeAfter (Lexer.scan .postgres) m ('$' :: first :: more)) rest := by
  have hdigits := takeWhile_unit hfirst hmore hrest
  rw [List.cons_append, dollars, hdigits, dollars_digits (unit_digits hfirst hmore)]
  by_cases hparam : decide ((Lexer.scan .postgres m '$').1 = .start .param) = b
  · rw [if_pos ⟨rfl, List.cons_ne_nil _ _, hparam⟩, if_pos hparam]
    rfl
  · rw [if_neg (fun h => hparam h.2.2), if_neg hparam]
    rfl

theorem digits_cancel {a b x y : List Char} (ha : ∀ e ∈ a, e.isDigit) (hb : ∀ e ∈ b, e.isDigit)
    (hx : ∀ e ∈ x.head?, e.isDigit = false) (hy : ∀ e ∈ y.head?, e.isDigit = false) :
    a ++ x = b ++ y ↔ a = b ∧ x = y := by
  constructor
  · intro h
    have htaken := congrArg (List.takeWhile Char.isDigit) h
    rw [takeWhile_digits ha hx, takeWhile_digits hb hy] at htaken
    rw [htaken] at h
    exact ⟨htaken, List.append_cancel_left h⟩
  · intro ⟨hab, hxy⟩
    rw [hab, hxy]

theorem shifted_all (offset : Nat) (digits : List Char) : ∀ e ∈ shifted offset digits, e.isDigit := by
  obtain ⟨first, more, heq, hfirst, hmore⟩ := shifted_digits offset digits
  rw [heq]
  exact unit_digits hfirst hmore

theorem shiftFrom_head : (shiftFrom offset 0 m text).head? = text.head? := by
  cases text with
  | nil => rfl
  | cons c rest =>
      rw [shiftFrom]
      split
      · rename_i h
        rw [h.1]
        rfl
      · rfl

theorem byteChars_head (h : c.isDigit = false) (tail : List Char) :
    ∀ e ∈ (byteChars c ++ tail).head?, e.isDigit = false := by
  intro e he
  by_cases hlow : c.toNat < 128
  · rw [byteChars_ascii hlow] at he
    rw [← Option.mem_some.mp he]
    exact h
  · obtain ⟨hne, hhigh⟩ := byteChars_high (Nat.not_lt.mp hlow)
    cases hbytes : byteChars c with
    | nil => exact absurd hbytes hne
    | cons b bytes =>
        rw [hbytes] at he hhigh
        have hb := hhigh b List.mem_cons_self
        rw [← Option.mem_some.mp he]
        by_contra hdigit
        have hbound : b.toNat ≤ 57 := by
          have hd : b.isDigit = true := by simpa using hdigit
          simp only [Char.isDigit, Bool.and_eq_true, decide_eq_true_eq, UInt32.le_iff_toNat_le] at hd
          exact hd.2
        omega

theorem renumber_head (h : ∀ e ∈ text.head?, e.isDigit = false) :
    ∀ e ∈ (renumber offset text).head?, e.isDigit = false := by
  have hunits := units text
  cases hunits with
  | nil => exact fun e he => absurd he (by simp)
  | char hc _ =>
      rw [renumber_char offset hc]
      exact byteChars_head (h _ rfl) _
  | dollar hfirst hmore hrest _ =>
      rw [renumber_dollar offset hfirst hmore hrest]
      intro e he
      rw [← Option.mem_some.mp he]
      decide

-- Shifting the placeholders leaves a text as it is where it leaves their numbers.
theorem shiftFrom_self (h : Units text) :
    shiftFrom offset 0 m text = text ↔ ∀ digits ∈ dollars true m text, shifted offset digits = digits := by
  induction h generalizing m with
  | nil => exact iff_of_true rfl fun digits hd => absurd hd List.not_mem_nil
  | @char c rest hc _ ih => rw [shiftFrom_char hc, dollars_char hc, List.cons_inj_right, ih]
  | @dollar first more rest hfirst hmore hrest _ ih =>
      rw [shiftFrom_dollar hfirst hmore hrest, dollars_dollar hfirst hmore hrest, List.cons_append,
        List.cons_append, List.cons_inj_right]
      have hhead : ∀ e ∈ (shiftFrom offset 0 (Scan.modeAfter (Lexer.scan .postgres) m
          ('$' :: first :: more)) rest).head?, e.isDigit = false := by
        rw [shiftFrom_head]
        exact hrest
      by_cases hparam : (Lexer.scan .postgres m '$').1 = .start .param
      · rw [if_pos hparam, if_pos (by simpa using hparam),
          digits_cancel (shifted_all _ _) (unit_digits hfirst hmore) hhead hrest, ih]
        simp only [List.singleton_append, List.mem_cons, forall_eq_or_imp]
      · rw [if_neg hparam, if_neg (by simpa using hparam), List.nil_append, List.append_cancel_left_eq, ih]

-- In a text without other characters, renumbering is that shift where it leaves the
-- dollars that begin no placeholder.
theorem renumber_eq_shiftFrom (h : Units text) (hascii : Ascii text) :
    renumber offset text = shiftFrom offset 0 m text ↔
      ∀ digits ∈ dollars false m text, shifted offset digits = digits := by
  induction h generalizing m with
  | nil => exact iff_of_true rfl fun digits hd => absurd hd List.not_mem_nil
  | @char c rest hc _ ih =>
      have hlow := hascii c List.mem_cons_self
      rw [renumber_char offset hc, byteChars_ascii hlow, shiftFrom_char hc, dollars_char hc,
        List.singleton_append, List.cons_inj_right, ih fun e he => hascii e (List.mem_cons_of_mem _ he)]
  | @dollar first more rest hfirst hmore hrest _ ih =>
      rw [renumber_dollar offset hfirst hmore hrest, shiftFrom_dollar hfirst hmore hrest,
        dollars_dollar hfirst hmore hrest, List.cons_append, List.cons_append, List.cons_inj_right]
      have hhead : ∀ e ∈ (shiftFrom offset 0 (Scan.modeAfter (Lexer.scan .postgres) m
          ('$' :: first :: more)) rest).head?, e.isDigit = false := by
        rw [shiftFrom_head]
        exact hrest
      have hlater : Ascii rest := fun e he => hascii e (List.mem_append_right _ he)
      by_cases hparam : (Lexer.scan .postgres m '$').1 = .start .param
      · rw [if_pos hparam, if_neg (by simpa using hparam), List.nil_append, List.append_cancel_left_eq,
          ih hlater]
      · rw [if_neg hparam, if_pos (by simpa using hparam),
          digits_cancel (shifted_all _ _) (unit_digits hfirst hmore) (renumber_head hrest) hhead, ih hlater]
        simp only [List.singleton_append, List.mem_cons, forall_eq_or_imp]

-- The characters outside ASCII.
def high (text : List Char) : List Char := text.filter fun c => 128 ≤ c.toNat

theorem high_ascii (h : ∀ c ∈ text, c.toNat < 128) : high text = [] := by
  unfold high
  rw [List.filter_eq_nil_iff]
  intro c hc hle
  have := h c hc
  have hle := of_decide_eq_true hle
  omega

theorem ascii_of_high (h : high text = []) : Ascii text := by
  intro c hc
  by_contra hle
  have hin : c ∈ high text := List.mem_filter.mpr ⟨hc, decide_eq_true (Nat.not_lt.mp hle)⟩
  rw [h] at hin
  exact List.not_mem_nil hin

theorem high_append (a b : List Char) : high (a ++ b) = high a ++ high b := List.filter_append ..

theorem digit_low (h : c.isDigit = true) : c.toNat < 128 := by
  simp only [Char.isDigit, Bool.and_eq_true, decide_eq_true_eq, UInt32.le_iff_toNat_le] at h
  have hle : c.toNat ≤ 57 := h.2
  omega

theorem high_dollar {digits : List Char} (h : ∀ e ∈ digits, e.isDigit) : high ('$' :: digits) = [] := by
  refine high_ascii fun c hc => ?_
  rcases List.mem_cons.mp hc with rfl | hc
  · decide
  · exact digit_low (h c hc)

theorem high_renumber (h : Units text) : high (renumber offset text) = (high text).flatMap byteChars := by
  induction h with
  | nil => rfl
  | @char c rest hc _ ih =>
      show _ = (high ([c] ++ rest)).flatMap byteChars
      rw [renumber_char offset hc, high_append, ih, high_append, List.flatMap_append]
      by_cases hlow : c.toNat < 128
      · have hsingle : ∀ d ∈ [c], d.toNat < 128 := by simpa using hlow
        rw [byteChars_ascii hlow, high_ascii hsingle]
        rfl
      · have hle := Nat.not_lt.mp hlow
        have hall : high (byteChars c) = byteChars c :=
          List.filter_eq_self.mpr fun b hb => decide_eq_true ((byteChars_high hle).2 b hb)
        have hone : high [c] = [c] := List.filter_eq_self.mpr fun b hb => by
          rw [List.mem_singleton.mp hb]
          exact decide_eq_true hle
        rw [hall, hone, List.flatMap_singleton]
  | @dollar first more rest hfirst hmore hrest _ ih =>
      rw [renumber_dollar offset hfirst hmore hrest, high_append, high_append,
        high_dollar (shifted_all _ _), high_dollar (unit_digits hfirst hmore), ih]
      rfl

theorem high_shiftFrom (h : Units text) : high (shiftFrom offset 0 m text) = high text := by
  induction h generalizing m with
  | nil => rfl
  | @char c rest hc _ ih =>
      rw [shiftFrom_char hc]
      show high ([c] ++ _) = high ([c] ++ rest)
      rw [high_append, high_append, ih]
  | @dollar first more rest hfirst hmore hrest _ ih =>
      rw [shiftFrom_dollar hfirst hmore hrest, high_append, high_append, ih,
        high_dollar (unit_digits hfirst hmore)]
      by_cases hparam : (Lexer.scan .postgres m '$').1 = .start .param
      · rw [if_pos hparam, high_dollar (shifted_all _ _)]
      · rw [if_neg hparam, high_dollar (unit_digits hfirst hmore)]

-- Renumbering makes two or more characters of each of them.
theorem length_high_renumber (text : List Char) :
    2 * (high text).length ≤ (high (renumber offset text)).length := by
  rw [high_renumber (units text)]
  have hall : ∀ c ∈ high text, 128 ≤ c.toNat := fun c hc =>
    of_decide_eq_true (List.mem_filter.mp hc).2
  generalize high text = chars at hall
  induction chars with
  | nil => exact Nat.le_refl _
  | cons c rest ih =>
      have htwo : 2 ≤ (byteChars c).length := by
        have hsize : c.utf8Size ≠ 1 := by
          rw [Ne, Char.utf8Size_eq_one_iff, UInt32.le_iff_toNat_le]
          have hc := hall c List.mem_cons_self
          have hval : c.toNat = c.val.toNat := rfl
          have hbound : (127 : UInt32).toNat = 127 := rfl
          omega
        have hpos := Char.utf8Size_pos c
        unfold byteChars
        rw [List.length_map, String.length_utf8EncodeChar]
        omega
      have hrest := ih fun e he => hall e (List.mem_cons_of_mem _ he)
      rw [List.flatMap_cons, List.length_append, List.length_cons]
      omega

theorem ascii_of_eq (h : renumber offset text = shiftFrom offset 0 m text) : Ascii text := by
  have hlength : 2 * (high text).length ≤ (high (renumber offset text)).length :=
    length_high_renumber text
  rw [h, high_shiftFrom (units text)] at hlength
  exact ascii_of_high (List.length_eq_zero_iff.mp (by omega))

theorem shifted_shifted (k n : Nat) (digits : List Char) :
    shifted n (shifted k digits) = shifted (k + n) digits := by
  unfold shifted
  rw [Nat.ofDigitChars_ten_toDigits, Nat.add_assoc]

theorem renumber_shifted (k : Nat) (digits rest : List Char)
    (hrest : ∀ e ∈ rest.head?, e.isDigit = false) :
    renumber offset ('$' :: shifted k digits ++ rest) =
      '$' :: shifted (k + offset) digits ++ renumber offset rest := by
  obtain ⟨first, more, heq, hfirst, hmore⟩ := shifted_digits k digits
  rw [← shifted_shifted k offset, heq]
  exact renumber_dollar offset hfirst hmore hrest

theorem numbers_shifted (k : Nat) (digits rest : List Char)
    (hrest : ∀ e ∈ rest.head?, e.isDigit = false) :
    numbers ('$' :: shifted k digits ++ rest) = shifted k digits :: numbers rest := by
  obtain ⟨first, more, heq, hfirst, hmore⟩ := shifted_digits k digits
  rw [heq]
  exact numbers_dollar hfirst hmore hrest

-- A dollar without digits has none after the renumbering either.
theorem head_renumber {n : Nat} (h : c = '$' → ∀ e ∈ rest.head?, e.isDigit = false) :
    c = '$' → ∀ e ∈ (renumber n rest).head?, e.isDigit = false :=
  fun hc => renumber_head (h hc)

theorem renumber_renumber (k n : Nat) (h : Units text) (hascii : Ascii text) :
    renumber n (renumber k text) = renumber (k + n) text := by
  induction h with
  | nil => rfl
  | @char c rest hc _ ih =>
      have hlow := byteChars_ascii (hascii c List.mem_cons_self)
      rw [renumber_char k hc, renumber_char (k + n) hc, hlow, List.singleton_append,
        renumber_char n (head_renumber hc), hlow, ih fun e he => hascii e (List.mem_cons_of_mem _ he)]
  | @dollar first more rest hfirst hmore hrest _ ih =>
      have hlater : Ascii rest := fun e he => hascii e (List.mem_append_right _ he)
      rw [renumber_dollar k hfirst hmore hrest, renumber_dollar (k + n) hfirst hmore hrest,
        renumber_shifted k _ _ (renumber_head hrest), ih hlater]

theorem numbers_renumber (k : Nat) (h : Units text) (hascii : Ascii text) :
    numbers (renumber k text) = (numbers text).map (shifted k) := by
  induction h with
  | nil => rfl
  | @char c rest hc _ ih =>
      have hlow := byteChars_ascii (hascii c List.mem_cons_self)
      rw [renumber_char k hc, hlow, List.singleton_append, numbers_char (head_renumber hc), numbers_char hc,
        ih fun e he => hascii e (List.mem_cons_of_mem _ he)]
  | @dollar first more rest hfirst hmore hrest _ ih =>
      have hlater : Ascii rest := fun e he => hascii e (List.mem_append_right _ he)
      rw [renumber_dollar k hfirst hmore hrest, numbers_shifted k _ _ (renumber_head hrest),
        numbers_dollar hfirst hmore hrest, ih hlater]
      rfl

theorem dollar_renumber (k : Nat) (h : Units text) (hdollar : '$' ∈ text) : '$' ∈ renumber k text := by
  induction h with
  | nil => exact hdollar
  | @char c rest hc _ ih =>
      rw [renumber_char k hc]
      rcases List.mem_cons.mp hdollar with rfl | hin
      · rw [byteChars_ascii (by decide)]
        exact List.mem_cons_self
      · exact List.mem_append_right _ (ih hin)
  | @dollar first more rest hfirst hmore hrest _ ih =>
      rw [renumber_dollar k hfirst hmore hrest]
      exact List.mem_cons_self

theorem value_shifted (k : Nat) (digits : List Char) :
    Nat.ofDigitChars 10 (shifted k digits) 0 = Nat.ofDigitChars 10 digits 0 + k := by
  unfold shifted
  exact Nat.ofDigitChars_ten_toDigits

theorem fits_renumber (k n : Nat) (hascii : Ascii text) :
    fits n (renumber k text) = fits (k + n) text := by
  unfold fits
  rw [numbers_renumber k (units text) hascii, List.all_map]
  congr 1
  funext digits
  simp only [Function.comp_apply, value_shifted, Nat.add_assoc]

theorem fits_of_add {k n : Nat} (hk : k ≠ 0) (h : fits (k + n) text = true) : fits k text = true := by
  unfold fits at h ⊢
  rw [List.all_eq_true] at h ⊢
  intro digits hd
  have hfits := of_decide_eq_true (h digits hd)
  exact decide_eq_true (by omega)

-- A number without leading zeros.
def Plain (digits : List Char) : Prop := Nat.toDigits 10 (Nat.ofDigitChars 10 digits 0) = digits

theorem shifted_self_iff {k : Nat} {digits : List Char} : shifted k digits = digits ↔ k = 0 ∧ Plain digits := by
  constructor
  · intro h
    have hvalue := value_shifted k digits
    rw [h] at hvalue
    obtain rfl : k = 0 := by omega
    exact ⟨rfl, h⟩
  · intro ⟨hk, hplain⟩
    rw [hk]
    exact hplain

-- The law for one statement and two offsets.
structure ShiftsPlaceholders (c : CompiledSql) (k n : Nat) : Prop where
  renumbered : c.renumberedChecked k = some ⟨shift k c.sql, c.binds⟩
  pushed : pushSubquery k c = some (shift k c.sql)
  composed : (c.renumberedChecked k).bind (fun c => c.renumberedChecked n) = c.renumberedChecked (k + n)

theorem renumberedChecked_of_trivial {c : CompiledSql} {k : Nat}
    (h : k = 0 ∨ c.binds.isEmpty ∨ '$' ∉ c.sql) : c.renumberedChecked k = some c := by
  unfold CompiledSql.renumberedChecked CompiledSql.renumbered
  rw [if_pos (by tauto), if_pos h]

theorem renumberedChecked_of_not {c : CompiledSql} {k : Nat}
    (h : ¬ (k = 0 ∨ c.binds.isEmpty ∨ '$' ∉ c.sql)) :
    c.renumberedChecked k = if fits k c.sql then some ⟨renumber k c.sql, c.binds⟩ else none := by
  unfold CompiledSql.renumberedChecked CompiledSql.renumbered
  rw [if_neg h]
  have hiff : (k = 0 ∨ c.binds.isEmpty = true ∨ '$' ∉ c.sql ∨ fits k c.sql = true) ↔ fits k c.sql = true := by
    tauto
  simp only [hiff]

theorem composed_ascii {c : CompiledSql} (k n : Nat) (hascii : Ascii c.sql) :
    (c.renumberedChecked k).bind (fun c => c.renumberedChecked n) = c.renumberedChecked (k + n) := by
  by_cases htrivial : k = 0 ∨ c.binds.isEmpty ∨ '$' ∉ c.sql
  · rw [renumberedChecked_of_trivial htrivial, Option.bind_some]
    rcases htrivial with rfl | hrest
    · rw [Nat.zero_add]
    · rw [renumberedChecked_of_trivial (Or.inr hrest), renumberedChecked_of_trivial (Or.inr hrest)]
  · obtain ⟨hk, hbinds, hdollar⟩ : k ≠ 0 ∧ ¬ c.binds.isEmpty ∧ '$' ∈ c.sql := by
      simpa [not_or] using htrivial
    have hsum : ¬ (k + n = 0 ∨ c.binds.isEmpty ∨ '$' ∉ c.sql) := by
      intro hor
      rcases hor with hzero | hempty | hnone
      · omega
      · exact hbinds hempty
      · exact hnone hdollar
    rw [renumberedChecked_of_not htrivial, renumberedChecked_of_not hsum]
    by_cases hn : n = 0
    · rw [hn, Nat.add_zero]
      cases fits k c.sql with
      | true => exact renumberedChecked_of_trivial (Or.inl rfl)
      | false => rfl
    · by_cases hfits : fits k c.sql = true
      · have hlater : ¬ (n = 0 ∨ c.binds.isEmpty ∨ '$' ∉ renumber k c.sql) := by
          intro hor
          rcases hor with hzero | hempty | hnone
          · exact hn hzero
          · exact hbinds hempty
          · exact hnone (dollar_renumber k (units _) hdollar)
        rw [if_pos hfits, Option.bind_some, renumberedChecked_of_not (c := ⟨renumber k c.sql, c.binds⟩) hlater,
          fits_renumber k n hascii, renumber_renumber k n (units _) hascii]
      · have hnot : ¬ fits (k + n) c.sql = true := fun h => hfits (fits_of_add hk h)
        rw [if_neg hfits, if_neg hnot]
        rfl

theorem pushSubquery_iff {c : CompiledSql} {k : Nat} :
    pushSubquery k c = some (shift k c.sql) ↔ fits k c.sql = true ∧ Ascii c.sql ∧
      ∀ digits ∈ dollars false .gap c.sql, k = 0 ∧ Plain digits := by
  have hlaw : fits k c.sql = true → (pushSubquery k c = some (shift k c.sql) ↔
      renumber k c.sql = shiftFrom k 0 .gap c.sql) := by
    intro hfits
    unfold pushSubquery
    rw [if_pos hfits]
    exact Option.some_inj
  constructor
  · intro h
    have hfits : fits k c.sql = true := by
      by_contra hnot
      unfold pushSubquery at h
      rw [if_neg hnot] at h
      cases h
    have heq := (hlaw hfits).mp h
    have hascii := ascii_of_eq heq
    refine ⟨hfits, hascii, fun digits hd => ?_⟩
    exact shifted_self_iff.mp ((renumber_eq_shiftFrom (units _) hascii).mp heq digits hd)
  · intro ⟨hfits, hascii, hstray⟩
    rw [hlaw hfits, renumber_eq_shiftFrom (units _) hascii]
    exact fun digits hd => shifted_self_iff.mpr (hstray digits hd)

theorem shifts_placeholders_iff (c : CompiledSql) (k n : Nat) :
    ShiftsPlaceholders c k n ↔
      Ascii c.sql ∧ fits k c.sql = true ∧ (∀ digits ∈ dollars false .gap c.sql, k = 0 ∧ Plain digits) ∧
        (k = 0 ∨ c.binds.isEmpty → ∀ digits ∈ dollars true .gap c.sql, k = 0 ∧ Plain digits) := by
  constructor
  · intro h
    obtain ⟨hfits, hascii, hstray⟩ := pushSubquery_iff.mp h.pushed
    refine ⟨hascii, hfits, hstray, fun htrivial digits hd => ?_⟩
    have hsame := h.renumbered
    rw [renumberedChecked_of_trivial (htrivial.imp_right Or.inl)] at hsame
    have htext : shiftFrom k 0 .gap c.sql = c.sql := (congrArg CompiledSql.sql (Option.some.inj hsame)).symm
    exact shifted_self_iff.mp ((shiftFrom_self (units _)).mp htext digits hd)
  · intro ⟨hascii, hfits, hstray, hkept⟩
    refine ⟨?_, pushSubquery_iff.mpr ⟨hfits, hascii, hstray⟩, composed_ascii k n hascii⟩
    by_cases htrivial : k = 0 ∨ c.binds.isEmpty ∨ '$' ∉ c.sql
    · have hall : ∀ digits ∈ dollars true .gap c.sql, shifted k digits = digits := by
        intro digits hd
        refine shifted_self_iff.mpr ?_
        rcases htrivial with hzero | hempty | hnone
        · exact hkept (Or.inl hzero) digits hd
        · exact hkept (Or.inr hempty) digits hd
        · rw [dollars_none hnone] at hd
          exact absurd hd List.not_mem_nil
      rw [renumberedChecked_of_trivial htrivial, shift, (shiftFrom_self (units _)).mpr hall]
    · rw [renumberedChecked_of_not htrivial, if_pos hfits, shift]
      have heq := (renumber_eq_shiftFrom (m := .gap) (units _) hascii).mpr
        fun digits hd => shifted_self_iff.mpr (hstray digits hd)
      rw [heq]

-- A key of dollars and digits, and a name outside ASCII.

def pricedQuery : Statement (Select .postgres 0) :=
  .select (usersWhere (.json "users" "data" [.key "$5", .key "a"] true (.cmp .eq) (.str "x")))

def namedQuery : Statement (Select .postgres 0) :=
  .select (usersWhere (.cmp "users" "café" .eq (.i64 1)))

-- The key within its literal is renumbered, and the name is spelled byte by byte.
theorem shifts_otherwise :
    (∃ c, pricedQuery.compile = some c ∧ (Ascii c.sql ∧ c.renumberedChecked 1 ≠ some ⟨shift 1 c.sql, c.binds⟩) ∧
      ¬ ShiftsPlaceholders c 1 1) ∧
    ∃ c, namedQuery.compile = some c ∧ pushSubquery 0 c ≠ some (shift 0 c.sql) ∧ ¬ ShiftsPlaceholders c 1 1 := by
  refine ⟨⟨_, rfl, ⟨by decide +kernel, fun h => ?_⟩, fun h => ?_⟩, ⟨_, rfl, by decide +kernel, fun h => ?_⟩⟩
  · have hsql := congrArg (Option.map CompiledSql.sql) h
    revert hsql
    decide +kernel
  · have hsql := congrArg (Option.map CompiledSql.sql) h.renumbered
    revert hsql
    decide +kernel
  · have hpushed := h.pushed
    revert hpushed
    decide +kernel

end Ruprizzle.Runtime
