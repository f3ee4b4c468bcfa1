import Ruprizzle.Runtime.Edge
import Ruprizzle.Runtime.SpatialText

namespace Ruprizzle.Runtime

namespace Numeric

-- Digits are read as the number they are written from, on either side of zero.

def signed : Bool → Nat → Int
  | false, n => n
  | true, n => -(n : Int)

theorem inI64_of_le {negative : Bool} {m n : Nat} (h : inI64 (signed negative n) = true)
    (hle : m ≤ n) : inI64 (signed negative m) = true := by
  have hrange := of_decide_eq_true h
  refine decide_eq_true ?_
  cases negative with
  | false => exact ⟨by simp only [signed] at *; omega, by simp only [signed] at *; omega⟩
  | true => exact ⟨by simp only [signed] at *; omega, by simp only [signed] at *; omega⟩

theorem readDigits_digit {negative : Bool} {k m : Nat} (hk : k < 10)
    (hfits : inI64 (signed negative (10 * m + k)) = true) (rest : List Char) :
    readDigits negative (Nat.digitChar k :: rest) (signed negative m)
      = readDigits negative rest (signed negative (10 * m + k)) := by
  obtain ⟨hdigit, hvalue, -⟩ := Spatial.digit_of_lt k hk
  have hnext : (if negative then 10 * signed negative m - (k : Int) else 10 * signed negative m + k)
      = signed negative (10 * m + k) := by
    cases negative
    · simp only [signed, Bool.false_eq_true, if_false]
      omega
    · simp only [signed, if_true]
      omega
  rw [readDigits, if_pos hdigit]
  simp only [hvalue, hnext, hfits, if_true]

theorem readDigits_digits {negative : Bool} {n : Nat} (hn : inI64 (signed negative n) = true)
    (rest : List Char) : readDigits negative (Nat.toDigits 10 n ++ rest) 0
      = readDigits negative rest (signed negative n) := by
  have hzero : (0 : Int) = signed negative 0 := by cases negative <;> rfl
  induction n using Nat.strongRecOn generalizing rest with
  | ind n ih =>
      by_cases hsmall : n < 10
      · have hfits : inI64 (signed negative (10 * 0 + n)) = true := by
          rw [Nat.mul_zero, Nat.zero_add]
          exact hn
        rw [Nat.toDigits_of_lt_base hsmall, List.singleton_append, hzero,
          readDigits_digit hsmall hfits, Nat.mul_zero, Nat.zero_add]
      · have hdigits : Nat.toDigits 10 n = Nat.toDigits 10 (n / 10) ++ [Nat.digitChar (n % 10)] :=
          Nat.toDigits_of_base_le (by omega) (by omega)
        have hfits : inI64 (signed negative (10 * (n / 10) + n % 10)) = true := by
          rw [Nat.div_add_mod]
          exact hn
        rw [hdigits, List.append_assoc, ih (n / 10) (by omega) (inI64_of_le hn (by omega)),
          List.singleton_append, readDigits_digit (Nat.mod_lt _ (by omega)) hfits, Nat.div_add_mod]

theorem toDigits_cons (n : Nat) : ∃ d rest, Nat.toDigits 10 n = d :: rest ∧ d.isDigit = true := by
  have hdigits : ∀ d ∈ Nat.toDigits 10 n, d.isDigit = true := fun d hd =>
    Nat.isDigit_of_mem_toDigits (by omega) (by omega) hd
  obtain ⟨d, rest, htext⟩ := List.exists_cons_of_ne_nil (Nat.toDigits_ne_nil (b := 10) (n := n))
  exact ⟨d, rest, htext, hdigits d (by rw [htext]; exact List.mem_cons_self)⟩

theorem parseI64_digits {text : String} {d : Char} {rest : List Char} (h : text.toList = d :: rest)
    (hd : d.isDigit = true) : parseI64 text = readDigits false (d :: rest) 0 := by
  unfold parseI64
  rw [h]
  split
  case h_1 hnil => cases hnil
  case h_2 hplus =>
    obtain ⟨rfl, -⟩ := List.cons.inj hplus
    cases hd
  case h_3 hminus =>
    obtain ⟨rfl, -⟩ := List.cons.inj hminus
    cases hd
  case h_4 hplus =>
    obtain ⟨rfl, -⟩ := List.cons.inj hplus
    cases hd
  case h_5 hminus =>
    obtain ⟨rfl, -⟩ := List.cons.inj hminus
    cases hd
  case h_6 => rfl

theorem parseI64_minus {text : String} {d : Char} {rest : List Char}
    (h : text.toList = '-' :: d :: rest) : parseI64 text = readDigits true (d :: rest) 0 := by
  unfold parseI64
  rw [h]
  split
  case h_1 hnil => cases hnil
  case h_2 hplus => exact absurd (List.cons.inj hplus).1 (by decide)
  case h_3 hminus => cases (List.cons.inj hminus).2
  case h_4 hplus => exact absurd (List.cons.inj hplus).1 (by decide)
  case h_5 hminus => rw [(List.cons.inj hminus).2]
  case h_6 hother => exact absurd rfl (hother _)

theorem parseI64_toString {i : Int} (hi : inI64 i = true) : parseI64 (toString i) = .ok i := by
  cases i with
  | ofNat n =>
      have htext : (toString (n : Int)).toList = Nat.toDigits 10 n := Spatial.toString_toList n
      have hsigned : Int.ofNat n = signed false n := rfl
      rw [hsigned] at hi
      have hread := readDigits_digits hi []
      obtain ⟨d, rest, hcons, hdigit⟩ := toDigits_cons n
      rw [List.append_nil, hcons] at hread
      exact (parseI64_digits (htext.trans hcons) hdigit).trans hread
  | negSucc n =>
      have htext : (toString (Int.negSucc n)).toList = '-' :: Nat.toDigits 10 (n + 1) := by
        show ("-" ++ Nat.repr (n + 1)).toList = _
        rw [String.toList_append, Nat.repr]
        exact congrArg ('-' :: ·) String.toList_ofList
      have hsigned : Int.negSucc n = signed true (n + 1) := rfl
      rw [hsigned] at hi
      have hread := readDigits_digits hi []
      obtain ⟨d, rest, hcons, hdigit⟩ := toDigits_cons (n + 1)
      rw [List.append_nil, hcons] at hread
      exact (parseI64_minus (htext.trans (congrArg ('-' :: ·) hcons))).trans hread

end Numeric

namespace Edge

variable {T : Type} {c : Crates T}

-- What a value is bound as in SQLite. An array has no class there.
def bound (c : Crates T) : Arrays.Value T → Option RusqliteValue
  | .null => some .null
  | .bool b => some (.integer (if b then 1 else 0))
  | .i32 i => some (.integer i.toInt)
  | .i64 i => some (.integer i.toInt)
  | .f64 (.value x) => some (.real x)
  | .f64 .nan => some .null
  | .str s => some (.text s)
  | .parsed ty x => some (.text (c.print ty x))
  | .json j => some (.text (c.json j))
  | .bytes b => some (.blob b)
  | .array _ => none

-- A value that JSON can carry.
def takes : Arrays.Value T → Bool
  | .f64 x => (finite x).isSome
  | .array _ => false
  | _ => true

def isBytes : Arrays.Value T → Bool
  | .bytes _ => true
  | _ => false

def Crates.Base64 (c : Crates T) : Prop := ∀ b, c.decode (c.encode b) = .ok b

section Codec

theorem finite_eq {x : Double} {y : F64} (h : finite x = some y) : x = .value y := by
  cases x with
  | nan => cases h
  | value z =>
      cases z with
      | finite negative mantissa exponent => exact congrArg Double.value (Option.some.inj h)
      | infinite negative => cases h

theorem toHrana_isOk (v : Arrays.Value T) : (∃ w, toHrana c v = .ok w) ↔ takes v = true := by
  cases v with
  | f64 x =>
      rw [toHrana, takes]
      cases finite x <;> simp
  | array values => exact iff_of_false (fun ⟨w, hw⟩ => by cases hw) Bool.false_ne_true
  | _ => exact iff_of_true ⟨_, rfl⟩ rfl

theorem toJson_isOk (v : Arrays.Value T) :
    (∃ w, toJson c v = .ok w) ↔ takes v = true ∧ isBytes v = false := by
  cases v with
  | f64 x =>
      rw [toJson, takes]
      cases finite x <;> simp [isBytes]
  | array values => exact iff_of_false (fun ⟨w, hw⟩ => by cases hw) fun h => Bool.false_ne_true h.1
  | bytes b => exact iff_of_false (fun ⟨w, hw⟩ => by cases hw) fun h => by cases h.2
  | _ => exact iff_of_true ⟨_, rfl⟩ ⟨rfl, rfl⟩

theorem inI64_of_i32 (i : Int32) : Numeric.inI64 i.toInt = true := by
  have hlow := i.le_toInt
  have hhigh := i.toInt_lt
  exact decide_eq_true ⟨by omega, by omega⟩

theorem inI64_of_i64 (i : Int64) : Numeric.inI64 i.toInt = true :=
  decide_eq_true ⟨i.le_toInt, i.toInt_lt⟩

theorem bound_integer {i : Int} (hi : Numeric.inI64 i = true) :
    bound c (.i64 (Int64.ofInt i)) = some (.integer i) := by
  obtain ⟨hlow, hhigh⟩ := of_decide_eq_true hi
  rw [bound, Int64.toInt_ofInt_of_le hlow hhigh]

theorem fromHrana_integer {i : Int} (hi : Numeric.inI64 i = true) :
    fromHrana c (.integer (toString i)) = .ok (.i64 (Int64.ofInt i)) := by
  rw [fromHrana, Numeric.parseI64_toString hi]

-- What is sent to Turso is read back as what it is bound as.
theorem fromHrana_toHrana (h : c.Base64) {v : Arrays.Value T} {w : HranaValue}
    (hw : toHrana c v = .ok w) : ∃ v', fromHrana c w = .ok v' ∧ bound c v' = bound c v := by
  cases v with
  | null =>
      obtain rfl := Except.ok.inj hw
      exact ⟨.null, rfl, rfl⟩
  | bool b =>
      obtain rfl := Except.ok.inj hw
      have hi : Numeric.inI64 (if b then 1 else 0) = true := by cases b <;> rfl
      exact ⟨_, fromHrana_integer hi, bound_integer hi⟩
  | i32 i =>
      obtain rfl := Except.ok.inj hw
      exact ⟨_, fromHrana_integer (inI64_of_i32 i), bound_integer (inI64_of_i32 i)⟩
  | i64 i =>
      obtain rfl := Except.ok.inj hw
      exact ⟨_, fromHrana_integer (inI64_of_i64 i), bound_integer (inI64_of_i64 i)⟩
  | f64 x =>
      rw [toHrana] at hw
      cases hfinite : finite x with
      | none =>
          rw [hfinite] at hw
          cases hw
      | some y =>
          rw [hfinite] at hw
          obtain rfl := Except.ok.inj hw
          exact ⟨.f64 (.value y), rfl, by rw [finite_eq hfinite]⟩
  | str s =>
      obtain rfl := Except.ok.inj hw
      exact ⟨.str s, rfl, rfl⟩
  | parsed ty x =>
      obtain rfl := Except.ok.inj hw
      exact ⟨.str (c.print ty x), rfl, rfl⟩
  | json j =>
      obtain rfl := Except.ok.inj hw
      exact ⟨.str (c.json j), rfl, rfl⟩
  | bytes b =>
      obtain rfl := Except.ok.inj hw
      exact ⟨.bytes b, by rw [fromHrana, h b], rfl⟩
  | array values => cases hw

-- What is sent to D1 is read back as what it is bound as.
theorem fromJson_toJson {v : Arrays.Value T} {w : Json} (hw : toJson c v = .ok w) :
    bound c (fromJson c w) = bound c v := by
  cases v with
  | bool b =>
      obtain rfl := Except.ok.inj hw
      cases b <;> exact bound_integer (by rfl)
  | i32 i =>
      obtain rfl := Except.ok.inj hw
      exact bound_integer (inI64_of_i32 i)
  | i64 i =>
      obtain rfl := Except.ok.inj hw
      exact bound_integer (inI64_of_i64 i)
  | f64 x =>
      rw [toJson] at hw
      cases hfinite : finite x with
      | none =>
          rw [hfinite] at hw
          cases hw
      | some y =>
          rw [hfinite] at hw
          obtain rfl := Except.ok.inj hw
          rw [finite_eq hfinite]
          rfl
  | bytes b => cases hw
  | array values => cases hw
  | _ =>
      obtain rfl := Except.ok.inj hw
      rfl

end Codec

end Edge

end Ruprizzle.Runtime
