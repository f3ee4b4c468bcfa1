import Ruprizzle.Runtime.Compiler
import Ruprizzle.Runtime.Lexer
import Mathlib.Data.List.TakeWhile
import Mathlib.Tactic.IntervalCases

namespace Ruprizzle.Runtime

-- Renumbering changes the texts of tokens, and not how a text falls into them.

theorem byteChar_toNat {n : Nat} (h : n < 256) :
    (Char.ofNat (UInt8.ofNat n).toNat).toNat = n := by
  have hbyte : (UInt8.ofNat n).toNat = n := by
    simp only [UInt8.toNat_ofNat']
    omega
  have hvalid : n.isValidChar := Or.inl (by omega)
  rw [hbyte, Char.ofNat, dif_pos hvalid]
  rfl

theorem byteChars_ascii {c : Char} (h : c.toNat < 128) : byteChars c = [c] := by
  have hval : c.val.toNat = c.toNat := rfl
  have hle : c.val.toNat ≤ 127 := by omega
  simp only [byteChars, String.utf8EncodeChar, hle, ite_true, List.map_cons, List.map_nil]
  rw [← Char.ofNat_toNat (Char.ofNat _), byteChar_toNat (by omega), hval, Char.ofNat_toNat]

theorem byteChars_high {c : Char} (h : 128 ≤ c.toNat) :
    byteChars c ≠ [] ∧ ∀ b ∈ byteChars c, 128 ≤ b.toNat := by
  have hval : c.val.toNat = c.toNat := rfl
  have hle : ¬ c.val.toNat ≤ 127 := by omega
  have hmax : c.val.toNat < 0x110000 := by
    have := c.valid
    rcases this with hlow | ⟨-, hlow⟩ <;> omega
  have hhigh : ∀ n, 128 ≤ n → n < 256 → 128 ≤ (Char.ofNat (UInt8.ofNat n).toNat).toNat := by
    intro n hlow hn
    rw [byteChar_toNat hn]
    exact hlow
  simp only [byteChars, String.utf8EncodeChar, hle, ite_false]
  split
  · refine ⟨by simp, ?_⟩
    simp only [List.map_cons, List.map_nil, List.forall_mem_cons]
    refine ⟨hhigh _ (by omega) (by omega), hhigh _ (by omega) (by omega), by simp⟩
  split
  · refine ⟨by simp, ?_⟩
    simp only [List.map_cons, List.map_nil, List.forall_mem_cons]
    refine ⟨hhigh _ (by omega) (by omega), hhigh _ (by omega) (by omega),
      hhigh _ (by omega) (by omega), by simp⟩
  · refine ⟨by simp, ?_⟩
    simp only [List.map_cons, List.map_nil, List.forall_mem_cons]
    refine ⟨hhigh _ (by omega) (by omega), hhigh _ (by omega) (by omega),
      hhigh _ (by omega) (by omega), hhigh _ (by omega) (by omega), by simp⟩

theorem Sym.of_high {c : Char} (h : 128 ≤ c.toNat) : Sym.of c = .letter := by
  have hne : ∀ e : Char, e.toNat < 128 → c ≠ e := by
    rintro e he rfl
    omega
  simp [Sym.of, hne '\n' (by decide), hne ' ' (by decide), hne '\t' (by decide),
    hne '\r' (by decide), hne 'e' (by decide), hne 'E' (by decide), h]

theorem Sym.of_digit {c : Char} (h : c.isDigit) : Sym.of c = .digit := by
  have hbound : 48 ≤ c.toNat ∧ c.toNat ≤ 57 := by
    simp only [Char.isDigit, Bool.and_eq_true, decide_eq_true_eq, UInt32.le_iff_toNat_le] at h
    exact h
  obtain ⟨hlow, hhigh⟩ := hbound
  rw [← Char.ofNat_toNat c]
  interval_cases c.toNat <;> rfl

namespace Lexer

-- A second letter goes on with what the first began, in whichever mode.
theorem step_letters (d : Dialect) (m : Mode) :
    step d (step d m .letter).2 .letter = (.cont, (step d m .letter).2) := by
  cases m with
  | word e => rfl
  | within q => cases q <;> rfl
  | closing q => cases q <;> rfl
  | op last => cases last <;> cases d <;> rfl
  | escaped q => cases q <;> rfl
  | gap | number | param | line | block depth last star => cases d <;> rfl

-- After a dollar every digit goes on with what the dollar began.
theorem step_dollar (d : Dialect) (m : Mode) :
    ∃ m', step d (step d m .dollar).2 .digit = (.cont, m') ∧ step d m' .digit = (.cont, m') := by
  cases m with
  | word e => exact ⟨.word false, rfl, rfl⟩
  | within q => exact ⟨.within q, by cases q <;> rfl, by cases q <;> rfl⟩
  | closing q => cases q <;> cases d <;> exact ⟨_, rfl, rfl⟩
  | op last => cases last <;> cases d <;> exact ⟨_, rfl, rfl⟩
  | gap | number | param | line | block depth last star => cases d <;> exact ⟨_, rfl, rfl⟩
  | escaped q => exact ⟨.within q, by cases q <;> rfl, by cases q <;> rfl⟩

end Lexer

-- The units that renumbering takes a text in: a dollar with all its digits, or
-- one character.
inductive Units : List Char → Prop
  | nil : Units []
  | char {c : Char} {rest : List Char} : (c = '$' → ∀ e ∈ rest.head?, e.isDigit = false) →
      Units rest → Units (c :: rest)
  | dollar {first : Char} {more rest : List Char} : first.isDigit → (∀ e ∈ more, e.isDigit) →
      (∀ e ∈ rest.head?, e.isDigit = false) → Units rest →
      Units ('$' :: first :: more ++ rest)

theorem units (text : List Char) : Units text := by
  induction h : text.length using Nat.strongRecOn generalizing text with
  | ind n ih =>
      cases text with
      | nil => exact .nil
      | cons c rest =>
          have hrest : ∀ tail : List Char, tail.length ≤ rest.length → Units tail := by
            intro tail htail
            refine ih tail.length ?_ tail rfl
            simp only [List.length_cons] at h
            omega
          by_cases hc : c = '$' ∧ ∃ e ∈ rest.head?, e.isDigit = true
          · obtain ⟨rfl, first, hhead, hfirst⟩ := hc
            obtain ⟨tail, rfl⟩ : ∃ tail, rest = first :: tail := by
              cases rest with
              | nil => exact absurd hhead (by simp)
              | cons e tail => exact ⟨tail, by rw [Option.mem_some.mp hhead]⟩
            have hsplit := List.takeWhile_append_dropWhile (p := Char.isDigit) (l := tail)
            rw [← hsplit]
            refine .dollar hfirst (fun e he => List.mem_takeWhile_imp he) ?_ (hrest _ ?_)
            · intro e he
              have := List.head?_dropWhile_not Char.isDigit tail
              rw [Option.mem_def.mp he] at this
              simpa using this
            · have := (List.dropWhile_sublist Char.isDigit (l := tail)).length_le
              simp only [List.length_cons]
              omega
          · refine .char (fun heq e he => ?_) (hrest rest (Nat.le_refl _))
            by_contra hdigit
            exact hc ⟨heq, e, he, by simpa using hdigit⟩

theorem takeWhile_digits {more rest : List Char} (hmore : ∀ e ∈ more, e.isDigit)
    (hrest : ∀ e ∈ rest.head?, e.isDigit = false) :
    (more ++ rest).takeWhile Char.isDigit = more := by
  rw [List.takeWhile_append_of_pos hmore]
  cases rest with
  | nil => simp
  | cons e rest =>
      have he := hrest e rfl
      simp [he]

@[simp] theorem renumber_nil (offset : Nat) : renumber offset [] = [] := rfl

theorem renumberFrom_taken (offset : Nat) (taken rest : List Char) :
    renumberFrom offset taken.length (taken ++ rest) = renumberFrom offset 0 rest := by
  induction taken with
  | nil => rfl
  | cons c taken ih => exact ih

theorem renumber_char (offset : Nat) {c : Char} {rest : List Char}
    (h : c = '$' → ∀ e ∈ rest.head?, e.isDigit = false) :
    renumber offset (c :: rest) = byteChars c ++ renumber offset rest := by
  have hnot : ¬ (c = '$' ∧ rest.takeWhile Char.isDigit ≠ []) := by
    rintro ⟨hc, hdigits⟩
    have hnone : ([] ++ rest).takeWhile Char.isDigit = [] := takeWhile_digits (by simp) (h hc)
    exact hdigits hnone
  simp only [renumber, renumberFrom, hnot, ite_false]

def shifted (offset : Nat) (digits : List Char) : List Char :=
  Nat.toDigits 10 (Nat.ofDigitChars 10 digits 0 + offset)

theorem renumber_dollar (offset : Nat) {first : Char} {more rest : List Char}
    (hfirst : first.isDigit) (hmore : ∀ e ∈ more, e.isDigit)
    (hrest : ∀ e ∈ rest.head?, e.isDigit = false) :
    renumber offset ('$' :: first :: more ++ rest)
      = '$' :: shifted offset (first :: more) ++ renumber offset rest := by
  have hdigits : (first :: more ++ rest).takeWhile Char.isDigit = first :: more := by
    refine takeWhile_digits (fun e he => ?_) hrest
    rcases List.mem_cons.mp he with rfl | he
    · exact hfirst
    · exact hmore e he
  have htaken := renumberFrom_taken offset (first :: more) rest
  simp only [List.cons_append] at hdigits htaken ⊢
  simp only [renumber, renumberFrom, hdigits, ne_eq, reduceCtorEq, not_false_eq_true, and_self,
    ite_true, htaken, shifted, List.cons_append]

theorem shifted_digits (offset : Nat) (digits : List Char) :
    ∃ first more, shifted offset digits = first :: more ∧ first.isDigit ∧ ∀ e ∈ more, e.isDigit := by
  have hall : ∀ e ∈ shifted offset digits, e.isDigit := fun e he =>
    Nat.isDigit_of_mem_toDigits (by decide) (by decide) he
  cases h : shifted offset digits with
  | nil => exact absurd h Nat.toDigits_ne_nil
  | cons first more =>
      rw [h] at hall
      exact ⟨first, more, rfl, hall first (by simp), fun e he => hall e (List.mem_cons_of_mem _ he)⟩

def renumberToken (offset : Nat) (t : Token) : Token := ⟨t.kind, renumber offset t.text⟩

def renumberRead (offset : Nat) (r : List Char × List Token) : List Char × List Token :=
  (renumber offset r.1, r.2.map (renumberToken offset))

open Scan (Mark)

-- What a unit becomes may be applied before the renumbering or after it.
theorem renumberRead_apply (offset : Nat) (mark : Mark Kind) {unit unit' : List Char}
    {later : List Char × List Token}
    (h : renumber offset (unit ++ later.1) = unit' ++ renumber offset later.1) :
    renumberRead offset (mark.apply unit later) = mark.apply unit' (renumberRead offset later) := by
  cases mark with
  | start kind => simp [renumberRead, Mark.apply, renumberToken, h]
  | cont => simp [renumberRead, Mark.apply, h]
  | skip => simp [renumberRead, Mark.apply]

theorem read_high (d : Dialect) (m : Mode) {bytes : List Char} (hne : bytes ≠ [])
    (h : ∀ b ∈ bytes, 128 ≤ b.toNat) (rest : List Char) :
    Scan.read (Lexer.scan d) m (bytes ++ rest)
      = (Lexer.step d m .letter).1.apply bytes
          (Scan.read (Lexer.scan d) (Lexer.step d m .letter).2 rest) ∧
    Scan.modeAfter (Lexer.scan d) m bytes = (Lexer.step d m .letter).2 := by
  have hscan : ∀ b ∈ bytes, ∀ m', Lexer.scan d m' b = Lexer.step d m' .letter := by
    intro b hb m'
    rw [Lexer.scan, Sym.of_high (h b hb)]
  cases bytes with
  | nil => exact absurd rfl hne
  | cons c more =>
      have hc := hscan c (by simp) m
      cases more with
      | nil =>
          rw [List.singleton_append, Scan.read_cons, hc, Scan.modeAfter_cons, hc]
          exact ⟨rfl, rfl⟩
      | cons first more =>
          have hstay := Lexer.step_letters d m
          have hfirst := (hscan first (by simp) _).trans hstay
          have hmore : ∀ e ∈ more, Lexer.scan d (Lexer.step d m .letter).2 e
              = (.cont, (Lexer.step d m .letter).2) := by
            intro e he
            exact (hscan e (by simp [he]) _).trans hstay
          refine ⟨Scan.read_unit hc hfirst hmore rest, ?_⟩
          rw [Scan.modeAfter_cons, hc]
          exact (Scan.read_run hfirst hmore []).2

theorem read_dollar (d : Dialect) (m : Mode) :
    ∃ m', ∀ (first : Char) (more : List Char), first.isDigit → (∀ e ∈ more, e.isDigit) →
      (∀ rest, Scan.read (Lexer.scan d) m ('$' :: first :: more ++ rest)
        = (Lexer.step d m .dollar).1.apply ('$' :: first :: more)
            (Scan.read (Lexer.scan d) m' rest)) ∧
      Scan.modeAfter (Lexer.scan d) m ('$' :: first :: more) = m' := by
  obtain ⟨m', hcont, hstay⟩ := Lexer.step_dollar d m
  refine ⟨m', fun first more hfirst hmore => ?_⟩
  have hc : Lexer.scan d m '$' = Lexer.step d m .dollar := rfl
  have hf : Lexer.scan d (Lexer.step d m .dollar).2 first = (.cont, m') := by
    rw [Lexer.scan, Sym.of_digit hfirst, hcont]
  have hm : ∀ e ∈ more, Lexer.scan d m' e = (.cont, m') := by
    intro e he
    rw [Lexer.scan, Sym.of_digit (hmore e he), hstay]
  refine ⟨Scan.read_unit hc hf hm, ?_⟩
  rw [Scan.modeAfter_cons, hc]
  exact (Scan.read_run hf hm []).2

theorem read_renumber (d : Dialect) (offset : Nat) {text : List Char} (h : Units text) (m : Mode) :
    Scan.read (Lexer.scan d) m (renumber offset text)
      = renumberRead offset (Scan.read (Lexer.scan d) m text) ∧
    Scan.modeAfter (Lexer.scan d) m (renumber offset text)
      = Scan.modeAfter (Lexer.scan d) m text := by
  induction h generalizing m with
  | nil => exact ⟨rfl, rfl⟩
  | @char c rest hc _ ih =>
      -- What goes on with the character is the start of the rest.
      have hlater : ∀ m', renumber offset (c :: (Scan.read (Lexer.scan d) m' rest).1)
          = byteChars c ++ renumber offset (Scan.read (Lexer.scan d) m' rest).1 := by
        intro m'
        refine renumber_char offset (fun heq e he => ?_)
        rcases Scan.read_pending (Lexer.scan d) m' rest with hnil | hhead
        · simp [hnil] at he
        · exact hc heq e (hhead ▸ he)
      rw [renumber_char offset hc, Scan.modeAfter_append, Scan.modeAfter_cons, Scan.read_cons,
        renumberRead_apply offset _ (hlater _)]
      by_cases hlow : c.toNat < 128
      · rw [byteChars_ascii hlow, List.singleton_append, Scan.read_cons]
        exact ⟨by rw [(ih _).1], (ih _).2⟩
      · have hhigh := Nat.not_lt.mp hlow
        obtain ⟨hne, hbytes⟩ := byteChars_high hhigh
        obtain ⟨hread, hmode⟩ := read_high d m hne hbytes (renumber offset rest)
        have hscan : Lexer.scan d m c = Lexer.step d m .letter := by
          rw [Lexer.scan, Sym.of_high hhigh]
        rw [hread, hmode, hscan]
        exact ⟨by rw [(ih _).1], (ih _).2⟩
  | @dollar first more rest hfirst hmore hrest _ ih =>
      obtain ⟨m', hunit⟩ := read_dollar d m
      obtain ⟨first', more', hshift, hfirst', hmore'⟩ := shifted_digits offset (first :: more)
      obtain ⟨hread, hmode⟩ := hunit first more hfirst hmore
      obtain ⟨hread', hmode'⟩ := hunit first' more' hfirst' hmore'
      have hlater : renumber offset ('$' :: first :: more ++ (Scan.read (Lexer.scan d) m' rest).1)
          = '$' :: first' :: more' ++ renumber offset (Scan.read (Lexer.scan d) m' rest).1 := by
        rw [← hshift]
        refine renumber_dollar offset hfirst hmore (fun e he => ?_)
        rcases Scan.read_pending (Lexer.scan d) m' rest with hnil | hhead
        · simp [hnil] at he
        · exact hrest e (hhead ▸ he)
      rw [renumber_dollar offset hfirst hmore hrest, hshift, hread', hread,
        renumberRead_apply offset _ hlater, (ih m').1, Scan.modeAfter_append,
        Scan.modeAfter_append, hmode, hmode', (ih m').2]
      exact ⟨rfl, rfl⟩

theorem tokens_renumber (d : Dialect) (offset : Nat) (text : List Char) :
    tokens d (renumber offset text) = (tokens d text).map (renumberToken offset) :=
  congrArg Prod.snd (read_renumber d offset (units text) .gap).1

theorem modeAfter_renumber (d : Dialect) (offset : Nat) (text : List Char) :
    modeAfter d (renumber offset text) = modeAfter d text :=
  (read_renumber d offset (units text) .gap).2

end Ruprizzle.Runtime
