import Mathlib.Data.Nat.Log
import Ruprizzle.Data.Text

namespace Ruprizzle

-- The binary64 values a decimal literal can parse to: no NaN among them.
-- A finite value is canonical, its magnitude is mantissa * 2 ^ exponent with
-- mantissa < 2 ^ 53, and mantissa below 2 ^ 52 only at the exponent -1074.
inductive F64
  | finite (negative : Bool) (mantissa : Nat) (exponent : Int)
  | infinite (negative : Bool)
  deriving DecidableEq, Repr

namespace F64

def zero : F64 := .finite false 0 (-1074)

-- IEEE equality, which tells no difference between the two zeros.
def canon : F64 → F64
  | .finite true 0 exponent => .finite false 0 exponent
  | value => value

def eq (a b : F64) : Bool := decide (a.canon = b.canon)

private def scaled (num den : Nat) (exponent : Int) : Nat × Nat :=
  if exponent ≥ 0 then (num, den * 2 ^ exponent.toNat) else (num * 2 ^ (-exponent).toNat, den)

private def roundHalfEven (num den : Nat) : Nat :=
  let quotient := num / den
  let remainder := num % den
  if 2 * remainder > den ∨ (2 * remainder = den ∧ quotient % 2 = 1) then quotient + 1 else quotient

-- The double closest to num / den, ties to even.
def ofRatio (negative : Bool) (num den : Nat) : F64 :=
  if num = 0 ∨ den = 0 then .finite negative 0 (-1074)
  else
    let guess : Int := (num.log2 : Int) - (den.log2 : Int) - 53
    let floorAt (exponent : Int) : Nat := let (a, b) := scaled num den exponent; a / b
    let exponent := if floorAt guess < 2 ^ 53 then guess
      else if floorAt (guess + 1) < 2 ^ 53 then guess + 1 else guess + 2
    let exponent := if exponent < -1074 then -1074 else exponent
    let (a, b) := scaled num den exponent
    let mantissa := roundHalfEven a b
    let (mantissa, exponent) :=
      if mantissa = 2 ^ 53 then (2 ^ 52, exponent + 1) else (mantissa, exponent)
    if exponent > 971 then .infinite negative else .finite negative mantissa exponent

-- Reads what the number rule of the grammar matches: a sign, digits, and
-- digits after a point. Any other text gives none.
def parse (text : String) : Option F64 :=
  let chars := text.toList
  let (negative, chars) := match chars with
    | '-' :: rest => (true, rest)
    | rest => (false, rest)
  let whole := chars.takeWhile (· ≠ '.')
  let fraction := (chars.dropWhile (· ≠ '.')).drop 1
  if whole.all Char.isDigit && fraction.all Char.isDigit && !(whole ++ fraction).isEmpty then
    some (ofRatio negative (Text.natOfDigits (whole ++ fraction)) (10 ^ fraction.length))
  else none

private def decimal (num den : Nat) (digits : Nat) : Nat × Int :=
  let magnitude : Int := (Nat.log 10 num : Int) - (Nat.log 10 den : Int) - digits
  let rec settle (fuel : Nat) (power : Int) : Nat × Int :=
    let rounded := if power ≥ 0 then roundHalfEven num (den * 10 ^ power.toNat)
      else roundHalfEven (num * 10 ^ (-power).toNat) den
    match fuel with
    | 0 => (rounded, power)
    | fuel + 1 => if rounded < 10 ^ digits then (rounded, power) else settle fuel (power + 1)
  settle 3 magnitude

private def positional (digits : Nat) (power : Int) : String :=
  if power ≥ 0 then toString (digits * 10 ^ power.toNat)
  else
    let places := (-power).toNat
    let text := (toString digits).toList
    let padded := List.replicate (places + 1 - text.length) '0' ++ text
    let whole := padded.take (padded.length - places)
    let fraction := (padded.drop (padded.length - places)).reverse.dropWhile (· = '0')
    if fraction.isEmpty then String.ofList whole
    else String.ofList whole ++ "." ++ String.ofList fraction.reverse

-- The shortest decimal that parses back, never in scientific notation.
def toText : F64 → String
  | .infinite negative => if negative then "-inf" else "inf"
  | .finite negative mantissa exponent =>
      let sign := if negative then "-" else ""
      if mantissa = 0 then sign ++ "0"
      else
        let (num, den) := if exponent ≥ 0 then (mantissa * 2 ^ exponent.toNat, 1)
          else (mantissa, 2 ^ (-exponent).toNat)
        let candidates := (List.range 17).map fun p => decimal num den (p + 1)
        let back (d : Nat × Int) : F64 := if d.2 ≥ 0 then ofRatio negative (d.1 * 10 ^ d.2.toNat) 1
          else ofRatio negative d.1 (10 ^ (-d.2).toNat)
        match candidates.find? (fun d => back d = .finite negative mantissa exponent) with
        | some (digits, power) => sign ++ positional digits power
        | none => sign ++ positional mantissa 0

end F64

end Ruprizzle
