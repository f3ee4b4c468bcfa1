import Ruprizzle.Runtime.Decoding

namespace Ruprizzle.Runtime

open Numeric

section

variable {ε α β : Type}

theorem toOption_bind (x : Except ε α) (f : α → Except ε β) :
    (x >>= f).toOption = x.toOption.bind fun a => (f a).toOption := by
  cases x <;> rfl

theorem toOption_map (x : Except ε α) (f : α → β) : (x.map f).toOption = x.toOption.map f := by
  cases x <;> rfl

theorem toOption_mapError (x : Except ε α) (f : ε → β) : (x.mapError f).toOption = x.toOption := by
  cases x <;> rfl

end

namespace RusqliteValue

def asInteger : RusqliteValue → Option Int
  | integer i => some i
  | _ => none

def asDouble : RusqliteValue → Option Double
  | real x => some (.value x)
  | integer i => some (.value (i64AsF64 i))
  | _ => none

def asText : RusqliteValue → Option String
  | text s => some s
  | _ => none

def asBlob : RusqliteValue → Option (List UInt8)
  | blob b => some b
  | _ => none

def asBool : RusqliteValue → Option Bool
  | integer i => if i = 0 then some false else if i = 1 then some true else none
  | text s =>
      if s = "0" || FromValue.eqIgnoreAsciiCase s "false" then some false
      else if s = "1" || FromValue.eqIgnoreAsciiCase s "true" then some true
      else none
  | _ => none

def printed : RusqliteValue → Option String
  | integer i => some (toString i)
  | real x => some x.toText
  | _ => none

end RusqliteValue

-- The getters of the driver take the storage classes of their own type alone.
structure Getter.Takes {α : Type} (g : Getter α) (read : RusqliteValue → Option α) : Prop where
  get : ∀ value, (g.get value).toOption = read value
  null : g.getOpt .null = .ok none
  getOpt : ∀ value, value ≠ .null → (g.getOpt value).toOption = (read value).map some

structure Driver.Documented (dr : Driver) : Prop where
  i64 : dr.i64.Takes RusqliteValue.asInteger
  f64 : dr.f64.Takes RusqliteValue.asDouble
  string : dr.string.Takes RusqliteValue.asText
  bytes : dr.bytes.Takes RusqliteValue.asBlob
  str : dr.str.Takes RusqliteValue.asText

section

variable {T : Type} (crates : Crates T)

namespace ColumnType

-- What a value stands for in a column of the type, if it is of the storage class that
-- values of the type are written in.
def written (ty : ColumnType) (value : RusqliteValue) : Option (RustValue T) :=
  match ty with
  | string => value.asText.map .string
  | bigInt => value.asInteger.map .i64
  | int => value.asInteger.bind fun i => (tryIntoI32 i).toOption.map .i32
  | float => value.asDouble.map .f64
  | boolean => value.asBool.map .bool
  | bytes => value.asBlob.map .bytes
  | json => value.asText.bind fun s => (crates.json s).toOption.map .foreign
  | parsed ty => value.asText.bind fun s => (crates.fromStr ty s).toOption.map .foreign
  | enum e => value.asText.bind fun s => (enumFromStr e s).toOption.map .variant
  | list inner => (value.asText.or value.printed).bind fun s =>
      (crates.jsonList inner s).toOption.map .foreign

-- Values of other storage classes that can be turned into the type: numbers that are
-- printed, reals that are cut off, and texts that are read as numbers.
def coerces (ty : ColumnType) (value : RusqliteValue) : Bool :=
  match ty, value with
  | string, value => value.printed.isSome
  | bigInt, .real _ => true
  | bigInt, .text s => (parseI64 s).toOption.isSome
  | int, .real x => inI32 (f64AsI64 x)
  | int, .text s => (parseI64 s).toOption.any inI32
  | float, .text s => (parseF64 s).toOption.isSome
  | json, value => value.printed.any fun s => (crates.json s).toOption.isSome
  | parsed ty, value => value.printed.any fun s => (crates.fromStr ty s).toOption.isSome
  | enum e, value => value.printed.any fun s => (fromDbStr e s).isSome
  | _, _ => false

end ColumnType

variable {dr : Driver} {ty : ColumnType} {optional : Bool} {value : RusqliteValue}

theorem Getter.Takes.column {α : Type} {g : Getter α} {read : RusqliteValue → Option α}
    (h : g.Takes read) (optional : Bool) (value : RusqliteValue) (f : α → Except String (RustValue T)) :
    (g.column optional value f).toOption = if optional = true ∧ value = .null then some none
      else ((read value).bind fun a => (f a).toOption).map some := by
  cases optional with
  | false =>
      rw [if_neg (by simp), Getter.column, if_neg (by simp), toOption_bind, h.get]
      simp only [toOption_map, Option.map_bind, Function.comp_def]
  | true =>
      rw [Getter.column, if_pos rfl]
      by_cases hnull : value = .null
      · rw [if_pos ⟨rfl, hnull⟩, hnull, h.null]
        rfl
      · rw [if_neg fun h => hnull h.2, toOption_bind, h.getOpt value hnull]
        cases read value with
        | none => rfl
        | some a => exact toOption_map _ _

theorem Getter.Takes.direct {α : Type} {g : Getter α} {read : RusqliteValue → Option α}
    (h : g.Takes read) (optional : Bool) (value : RusqliteValue) (f : α → RustValue T) :
    (g.column optional value fun a => .ok (f a)).toOption =
      if optional = true ∧ value = .null then some none else ((read value).map f).map some := by
  have hmap : ((read value).bind fun a => (Except.ok (f a) : Except String _).toOption)
      = (read value).map f := by
    cases read value <;> rfl
  rw [h.column, hmap]

theorem getBool_takes :
    (Getter.mk (getBool crates) (getBoolOpt crates)).Takes RusqliteValue.asBool := by
  have hget : ∀ value, (getBool crates value).toOption = value.asBool := by
    intro value
    cases value with
    | integer i =>
        simp only [getBool, RusqliteValue.asBool]
        split
        · rfl
        · split <;> rfl
    | text s =>
        simp only [getBool, RusqliteValue.asBool]
        split
        · rfl
        · split <;> rfl
    | _ => rfl
  refine ⟨hget, rfl, fun value hnull => ?_⟩
  have hopt : getBoolOpt crates value = (getBool crates value).map some := by
    cases value with
    | null => exact absurd rfl hnull
    | _ => rfl
  show (getBoolOpt crates value).toOption = value.asBool.map some
  rw [hopt, toOption_map, hget]

theorem FromValue.string_toOption (value : RusqliteValue) :
    (FromValue.string value).toOption = value.asText.or value.printed := by
  cases value <;> rfl

theorem RusqliteValue.read_of_not {β : Type} {read : String → Option β}
    (h : value.printed.any (fun s => (read s).isSome) = false) :
    (value.asText.or value.printed).bind read = value.asText.bind read := by
  cases value with
  | integer i => exact Option.isNone_iff_eq_none.mp (Option.isSome_eq_false_iff.mp h)
  | real x => exact Option.isNone_iff_eq_none.mp (Option.isSome_eq_false_iff.mp h)
  | _ => rfl

theorem RusqliteValue.read_of_printed {β : Type} {read : String → Option β}
    (h : value.printed.any (fun s => (read s).isSome) = true) :
    value.asText = none ∧ ((value.asText.or value.printed).bind read).isSome := by
  cases value with
  | integer i => exact ⟨rfl, h⟩
  | real x => exact ⟨rfl, h⟩
  | _ => exact absurd h (by simp [RusqliteValue.printed])

theorem FromValue.viaString_toOption {α : Type} (read : String → Except String α) (failed : String)
    (value : RusqliteValue) : (FromValue.viaString crates read failed value).toOption
      = (value.asText.or value.printed).bind fun s => (read s).toOption := by
  rw [FromValue.viaString, toOption_bind, FromValue.string_toOption]
  simp only [toOption_mapError]

theorem FromValue.option_toOption {α : Type} (fromValue : RusqliteValue → Except String α)
    (value : RusqliteValue) : (FromValue.option fromValue value).toOption =
      if value = .null then some none else (fromValue value).toOption.map some := by
  cases value with
  | null => rfl
  | _ => exact toOption_map _ _

theorem list_written (inner : FieldKind) (value : RusqliteValue) :
    (FromValue.list crates inner value).toOption.map .foreign
      = (ColumnType.list inner).written crates value := by
  rw [FromValue.list, FromValue.viaString_toOption, Option.map_bind]
  rfl

-- The fast path gives what is written in the storage class of the type.
theorem fast_toOption (hdr : dr.Documented) (idx : Nat) :
    (fromRusqliteRowField crates dr ty optional idx value).toOption =
      if optional = true ∧ value = .null then some none
        else (ty.written crates value).map some := by
  cases ty with
  | string => exact hdr.string.direct _ _ _
  | bigInt => exact hdr.i64.direct _ _ _
  | float => exact hdr.f64.direct _ _ _
  | boolean => exact (getBool_takes crates).direct _ _ _
  | bytes => exact hdr.bytes.direct _ _ _
  | int =>
      rw [fromRusqliteRowField, hdr.i64.column, ColumnType.written]
      simp only [readI32, toOption_map, toOption_mapError]
  | json =>
      rw [fromRusqliteRowField, hdr.str.column, ColumnType.written]
      simp only [readJson, toOption_map, toOption_mapError]
  | parsed ty =>
      rw [fromRusqliteRowField, hdr.str.column, ColumnType.written]
      simp only [parse, toOption_map, toOption_mapError]
  | enum e =>
      rw [fromRusqliteRowField, hdr.str.column, ColumnType.written]
      simp only [parse, toOption_map, toOption_mapError]
  | list inner =>
      rw [fromRusqliteRowField, ← list_written]
      cases optional with
      | false =>
          rw [if_neg (by simp), if_neg (by simp), toOption_map, Option.map_map]
          rfl
      | true =>
          rw [if_pos rfl, toOption_map, FromValue.option_toOption]
          by_cases hnull : value = .null
          · rw [if_pos hnull, if_pos ⟨rfl, hnull⟩]
            rfl
          · rw [if_neg hnull, if_neg fun h => hnull h.2, Option.map_map, Option.map_map]
            rfl

theorem owned_toOption : (fromOwnedRowField crates ty optional value).toOption =
    if optional = true ∧ value = .null then some none
      else (FromValue.column crates ty value).toOption.map some := by
  rw [fromOwnedRowField]
  cases optional with
  | false => rw [if_neg (by simp), if_neg (by simp), toOption_map]
  | true => simp only [if_true, true_and, FromValue.option_toOption]

theorem enumFromStr_toOption (e : EnumDef) (s : String) :
    (enumFromStr e s).toOption = fromDbStr e s := by
  rw [enumFromStr]
  split
  · next name hname => exact hname.symm
  · next hnone => exact hnone.symm

theorem i32_toOption (value : RusqliteValue) : (FromValue.i32 crates value).toOption
    = (FromValue.i64 crates value).toOption.bind fun i => (tryIntoI32 i).toOption := by
  rw [FromValue.i32, toOption_bind]
  simp only [toOption_mapError]

theorem tryIntoI32_toOption (i : Int) :
    (tryIntoI32 i).toOption = if inI32 i = true then some i else none := by
  rw [tryIntoI32]
  split <;> rfl

theorem bool_toOption (value : RusqliteValue) :
    (FromValue.bool crates value).toOption = value.asBool := by
  cases value with
  | integer i =>
      simp only [FromValue.bool, RusqliteValue.asBool]
      split
      · rfl
      · split <;> rfl
  | text s =>
      simp only [FromValue.bool, RusqliteValue.asBool]
      split
      · rfl
      · split <;> rfl
  | _ => rfl

-- The owned row gives the same where nothing has to be turned into the type.
theorem column_of_not_coerces (h : ty.coerces crates value = false) :
    (FromValue.column crates ty value).toOption = ty.written crates value := by
  cases ty with
  | list inner => exact (toOption_map _ _).trans (list_written crates inner value)
  | bytes => cases value <;> rfl
  | boolean =>
      have hbool := bool_toOption crates value
      exact (toOption_map _ _).trans (congrArg (Option.map RustValue.bool) hbool)
  | string =>
      rw [FromValue.column, toOption_map, FromValue.string_toOption, ColumnType.written]
      rw [ColumnType.coerces, Option.isSome_eq_false_iff, Option.isNone_iff_eq_none] at h
      rw [h, Option.or_none]
  | bigInt =>
      rw [FromValue.column, toOption_map, ColumnType.written]
      cases value with
      | real x => exact absurd h (by simp [ColumnType.coerces])
      | text s =>
          rw [ColumnType.coerces, Option.isSome_eq_false_iff, Option.isNone_iff_eq_none] at h
          rw [FromValue.i64, toOption_mapError, h]
          rfl
      | _ => rfl
  | int =>
      rw [FromValue.column, toOption_map, ColumnType.written, i32_toOption]
      cases value with
      | real x =>
          have hrange : ¬ inI32 (f64AsI64 x) = true := Bool.eq_false_iff.mp h
          show ((tryIntoI32 (f64AsI64 x)).toOption).map (RustValue.i32 : Int → RustValue T) = none
          rw [tryIntoI32_toOption, if_neg hrange]
          rfl
      | text s =>
          rw [FromValue.i64, toOption_mapError]
          rw [ColumnType.coerces] at h
          cases hparse : (parseI64 s).toOption with
          | none => rfl
          | some i =>
              rw [hparse] at h
              have hrange : ¬ inI32 i = true := Bool.eq_false_iff.mp h
              show ((tryIntoI32 i).toOption).map (RustValue.i32 : Int → RustValue T) = none
              rw [tryIntoI32_toOption, if_neg hrange]
              rfl
      | _ => rfl
  | float =>
      rw [FromValue.column, toOption_map, ColumnType.written]
      cases value with
      | text s =>
          rw [ColumnType.coerces, Option.isSome_eq_false_iff, Option.isNone_iff_eq_none] at h
          rw [FromValue.f64, toOption_mapError, h]
          rfl
      | _ => rfl
  | json =>
      rw [FromValue.column, toOption_map, FromValue.json, FromValue.viaString_toOption,
        ColumnType.written, RusqliteValue.read_of_not h, Option.map_bind]
      rfl
  | parsed ty =>
      rw [FromValue.column, toOption_map, FromValue.parsed, FromValue.viaString_toOption,
        ColumnType.written, RusqliteValue.read_of_not h, Option.map_bind]
      rfl
  | enum e =>
      have hread : value.printed.any (fun s => (enumFromStr e s).toOption.isSome) = false := by
        simp only [enumFromStr_toOption]
        exact h
      rw [FromValue.column, toOption_map, FromValue.enum, FromValue.viaString_toOption,
        ColumnType.written, RusqliteValue.read_of_not hread, Option.map_bind]
      rfl

theorem column_of_coerces (h : ty.coerces crates value = true) :
    ty.written crates value = none ∧ (FromValue.column crates ty value).toOption.isSome := by
  cases ty with
  | list inner => exact absurd h (by simp [ColumnType.coerces])
  | bytes => exact absurd h (by simp [ColumnType.coerces])
  | boolean => exact absurd h (by simp [ColumnType.coerces])
  | string =>
      rw [FromValue.column, toOption_map, FromValue.string_toOption, ColumnType.written,
        Option.isSome_map]
      cases value with
      | integer i => exact ⟨rfl, rfl⟩
      | real x => exact ⟨rfl, rfl⟩
      | _ => exact absurd h (by simp [ColumnType.coerces, RusqliteValue.printed])
  | bigInt =>
      rw [FromValue.column, toOption_map, ColumnType.written, Option.isSome_map]
      cases value with
      | real x => exact ⟨rfl, rfl⟩
      | text s =>
          rw [FromValue.i64, toOption_mapError]
          exact ⟨rfl, h⟩
      | _ => exact absurd h (by simp [ColumnType.coerces])
  | int =>
      rw [FromValue.column, toOption_map, ColumnType.written, i32_toOption, Option.isSome_map]
      cases value with
      | real x =>
          have hrange : inI32 (f64AsI64 x) = true := h
          refine ⟨rfl, ?_⟩
          show (tryIntoI32 (f64AsI64 x)).toOption.isSome = true
          rw [tryIntoI32_toOption, if_pos hrange]
          rfl
      | text s =>
          refine ⟨rfl, ?_⟩
          obtain ⟨i, hparse, hrange⟩ := (Option.any_eq_true _ _).mp h
          rw [FromValue.i64, toOption_mapError, hparse, Option.bind_some, tryIntoI32_toOption,
            if_pos hrange]
          rfl
      | _ => exact absurd h (by simp [ColumnType.coerces])
  | float =>
      rw [FromValue.column, toOption_map, ColumnType.written, Option.isSome_map]
      cases value with
      | text s =>
          rw [FromValue.f64, toOption_mapError]
          exact ⟨rfl, h⟩
      | _ => exact absurd h (by simp [ColumnType.coerces])
  | json =>
      obtain ⟨hnot, hread⟩ := RusqliteValue.read_of_printed h
      rw [FromValue.column, toOption_map, FromValue.json, FromValue.viaString_toOption,
        ColumnType.written, hnot, Option.isSome_map]
      rw [hnot] at hread
      exact ⟨rfl, hread⟩
  | parsed ty =>
      obtain ⟨hnot, hread⟩ := RusqliteValue.read_of_printed h
      rw [FromValue.column, toOption_map, FromValue.parsed, FromValue.viaString_toOption,
        ColumnType.written, hnot, Option.isSome_map]
      rw [hnot] at hread
      exact ⟨rfl, hread⟩
  | enum e =>
      have hany : value.printed.any (fun s => (enumFromStr e s).toOption.isSome) = true := by
        simp only [enumFromStr_toOption]
        exact h
      obtain ⟨hnot, hread⟩ := RusqliteValue.read_of_printed hany
      rw [FromValue.column, toOption_map, FromValue.enum, FromValue.viaString_toOption,
        ColumnType.written, hnot, Option.isSome_map]
      rw [hnot] at hread
      exact ⟨rfl, hread⟩

-- The columns of a struct, with their indexes.
def columnsOf : List RowField → Nat → List (ColumnType × Bool × Nat)
  | [], _ => []
  | f :: rest, next =>
      match f.column with
      | none => columnsOf rest next
      | some (ty, optional) => (ty, optional, next) :: columnsOf rest (next + 1)

-- The value in a column is of a storage class that only the owned row turns into the
-- type of the column.
def Coerced (row : List RusqliteValue) (c : ColumnType × Bool × Nat) : Prop :=
  ∃ value, row[c.2.2]? = some value ∧ c.1.coerces crates value = true

-- The value in a column is none that the type can be read from in any way.
def Unreadable (row : List RusqliteValue) (c : ColumnType × Bool × Nat) : Prop :=
  ∀ value, row[c.2.2]? = some value → ¬(c.2.1 = true ∧ value = .null) ∧
    c.1.written crates value = none ∧ c.1.coerces crates value = false

section

variable {decode decode' : ColumnType → Bool → Nat → Except String (Option (RustValue T))}

theorem decodeFields_congr {fields : List RowField} {next : Nat}
    (h : ∀ c ∈ columnsOf fields next,
      (decode c.1 c.2.1 c.2.2).toOption = (decode' c.1 c.2.1 c.2.2).toOption) :
    (decodeFields decode fields next).toOption = (decodeFields decode' fields next).toOption := by
  induction fields generalizing next with
  | nil => rfl
  | cons f rest ih =>
      rw [columnsOf] at h
      rw [decodeFields, decodeFields]
      cases hcolumn : f.column with
      | none =>
          rw [hcolumn] at h
          simp only [toOption_bind, ih h]
      | some c =>
          obtain ⟨ty, optional⟩ := c
          rw [hcolumn] at h
          obtain ⟨hfirst, hrest⟩ := List.forall_mem_cons.mp h
          simp only [toOption_bind, ih hrest, hfirst]

-- A struct is there if every column of it is.
theorem decodeFields_isSome {fields : List RowField} {next : Nat} :
    (decodeFields decode fields next).toOption.isSome = true ↔
      ∀ c ∈ columnsOf fields next, (decode c.1 c.2.1 c.2.2).toOption.isSome = true := by
  induction fields generalizing next with
  | nil => simp [decodeFields, columnsOf, Except.toOption]
  | cons f rest ih =>
      rw [columnsOf, decodeFields]
      cases hcolumn : f.column with
      | none =>
          simp only [toOption_bind, ← ih]
          cases (decodeFields decode rest next).toOption <;> simp [Except.toOption]
      | some c =>
          obtain ⟨ty, optional⟩ := c
          simp only [toOption_bind, List.forall_mem_cons, ← ih]
          cases (decode ty optional next).toOption <;>
            cases (decodeFields decode rest (next + 1)).toOption <;> simp [Except.toOption]

end

section

variable {row : List RusqliteValue} {c : ColumnType × Bool × Nat}

def fastColumn (dr : Driver) (row : List RusqliteValue) (ty : ColumnType) (optional : Bool)
    (idx : Nat) : Except String (Option (RustValue T)) :=
  match row[idx]? with
  | none => .error (dr.outOfRange idx)
  | some value => fromRusqliteRowField crates dr ty optional idx value

def ownedColumn (row : List RusqliteValue) (ty : ColumnType) (optional : Bool) (idx : Nat) :
    Except String (Option (RustValue T)) :=
  match row[idx]? with
  | none => .error ("column index " ++ toString idx ++ " out of bounds")
  | some value => fromOwnedRowField crates ty optional value

theorem columns_of_not_coerced (hdr : dr.Documented) (h : ¬ Coerced crates row c) :
    (fastColumn crates dr row c.1 c.2.1 c.2.2).toOption
      = (ownedColumn crates row c.1 c.2.1 c.2.2).toOption := by
  rw [fastColumn, ownedColumn]
  split
  · rfl
  · next value hvalue =>
      have hnot : c.1.coerces crates value = false :=
        Bool.eq_false_iff.mpr fun hcoerces => h ⟨value, hvalue, hcoerces⟩
      rw [fast_toOption crates hdr, owned_toOption, column_of_not_coerces crates hnot]

theorem columns_of_coerced (hdr : dr.Documented) (h : Coerced crates row c) :
    (fastColumn crates dr row c.1 c.2.1 c.2.2).toOption = none ∧
      (ownedColumn crates row c.1 c.2.1 c.2.2).toOption.isSome := by
  obtain ⟨value, hvalue, hcoerces⟩ := h
  obtain ⟨hwritten, hcolumn⟩ := column_of_coerces crates hcoerces
  have hnull : ¬(c.2.1 = true ∧ value = .null) := by
    rintro ⟨-, rfl⟩
    have hnot : c.1.coerces crates .null = false := by
      cases c.1 <;> rfl
    exact absurd hcoerces (by simp [hnot])
  rw [fastColumn, ownedColumn, hvalue]
  refine ⟨?_, ?_⟩
  · show (fromRusqliteRowField crates dr c.1 c.2.1 c.2.2 value).toOption = none
    rw [fast_toOption crates hdr, if_neg hnull, hwritten]
    rfl
  · show (fromOwnedRowField crates c.1 c.2.1 value).toOption.isSome = true
    rw [owned_toOption, if_neg hnull, Option.isSome_map]
    exact hcolumn

theorem ownedColumn_isSome :
    (ownedColumn crates row c.1 c.2.1 c.2.2).toOption.isSome = true ↔
      ¬ Unreadable crates row c := by
  rw [ownedColumn]
  cases hvalue : row[c.2.2]? with
  | none =>
      refine iff_of_false (by simp [Except.toOption]) (not_not.mpr ?_)
      intro value hsome
      rw [hvalue] at hsome
      cases hsome
  | some value =>
      simp only [owned_toOption, Unreadable, hvalue, Option.some.injEq, forall_eq']
      by_cases hnull : c.2.1 = true ∧ value = .null
      · simp [hnull]
      · rw [if_neg hnull, Option.isSome_map]
        cases hcoerces : c.1.coerces crates value with
        | true => simp [(column_of_coerces crates hcoerces).2]
        | false =>
            rw [column_of_not_coerces crates hcoerces, Option.isSome_iff_ne_none]
            simp [hnull]

end

-- The two ways of reading a row agree if nothing in it has to be turned into the type
-- of its column, and if something cannot be read at all: then both give an error.
theorem decoders_agree_iff (hdr : dr.Documented) (fields : List RowField)
    (row : List RusqliteValue) :
    (fromRusqliteRow crates dr fields row).toOption = (fromOwnedRow crates fields row).toOption ↔
      (∀ c ∈ columnsOf fields 0, ¬ Coerced crates row c) ∨
        ∃ c ∈ columnsOf fields 0, Unreadable crates row c := by
  have hfast : fromRusqliteRow crates dr fields row
      = decodeFields (fastColumn crates dr row) fields 0 := rfl
  have howned : fromOwnedRow crates fields row
      = decodeFields (ownedColumn crates row) fields 0 := rfl
  rw [hfast, howned]
  constructor
  · intro hagree
    by_contra hnot
    obtain ⟨hcoerced, hreadable⟩ := not_or.mp hnot
    push Not at hcoerced hreadable
    obtain ⟨c, hc, hsome⟩ := hcoerced
    have hread : (decodeFields (ownedColumn crates row) fields 0).toOption.isSome = true :=
      decodeFields_isSome.mpr fun c hc => (ownedColumn_isSome crates).mpr (hreadable c hc)
    rw [← hagree] at hread
    have hcolumn := decodeFields_isSome.mp hread c hc
    rw [(columns_of_coerced crates hdr hsome).1] at hcolumn
    cases hcolumn
  · rintro (hnone | ⟨c, hc, hunreadable⟩)
    · exact decodeFields_congr fun c hc => columns_of_not_coerced crates hdr (hnone c hc)
    · have hcoerced : ¬ Coerced crates row c := by
        rintro ⟨value, hvalue, hcoerces⟩
        exact Bool.false_ne_true ((hunreadable value hvalue).2.2.symm.trans hcoerces)
      have howned : ¬ (ownedColumn crates row c.1 c.2.1 c.2.2).toOption.isSome = true :=
        fun hsome => (ownedColumn_isSome crates).mp hsome hunreadable
      have hfast := howned
      rw [← columns_of_not_coerced crates hdr hcoerced] at hfast
      have hnoOwned := fun hsome => howned (decodeFields_isSome.mp hsome c hc)
      have hnoFast := fun hsome => hfast (decodeFields_isSome.mp hsome c hc)
      rw [Option.not_isSome_iff_eq_none.mp hnoOwned, Option.not_isSome_iff_eq_none.mp hnoFast]

end

section Example

def orInvalid {α : Type} : Option α → Except String α
  | some a => .ok a
  | none => .error "Invalid column type"

theorem orInvalid_toOption {α : Type} (a : Option α) : (orInvalid a).toOption = a := by
  cases a <;> rfl

def exactly {α : Type} (read : RusqliteValue → Option α) : Getter α where
  get value := orInvalid (read value)
  getOpt value := if value = .null then .ok none else orInvalid ((read value).map some)

theorem exactly_takes {α : Type} (read : RusqliteValue → Option α) : (exactly read).Takes read := by
  refine ⟨fun value => orInvalid_toOption _, rfl, fun value hnull => ?_⟩
  show (if value = .null then .ok none else orInvalid ((read value).map some)).toOption = _
  rw [if_neg hnull, orInvalid_toOption]

def driver : Driver where
  i64 := exactly RusqliteValue.asInteger
  f64 := exactly RusqliteValue.asDouble
  string := exactly RusqliteValue.asText
  bytes := exactly RusqliteValue.asBlob
  str := exactly RusqliteValue.asText
  outOfRange idx := "Invalid column index: " ++ toString idx

theorem driver_documented : driver.Documented :=
  ⟨exactly_takes _, exactly_takes _, exactly_takes _, exactly_takes _, exactly_takes _⟩

-- No field of the struct has a type of another crate.
def noCrates : Crates Empty where
  fromStr _ _ := .error "unused"
  json _ := .error "unused"
  jsonList _ _ := .error "unused"
  debug _ := "value"
  debugStr s := s

theorem decoders_agree_written :
    (fromRusqliteRow noCrates driver [⟨"id", some (.bigInt, false)⟩, ⟨"name", some (.string, true)⟩]
        [.integer 7, .null]).toOption
      = (fromOwnedRow noCrates [⟨"id", some (.bigInt, false)⟩, ⟨"name", some (.string, true)⟩]
        [.integer 7, .null]).toOption := by
  refine (decoders_agree_iff noCrates driver_documented _ _).mpr (.inl ?_)
  rintro c hc ⟨value, hvalue, hcoerces⟩
  simp only [columnsOf, List.mem_cons, List.not_mem_nil, or_false] at hc
  rcases hc with rfl | rfl
  · cases hvalue
    cases hcoerces
  · cases hvalue
    cases hcoerces

-- A number in a column of texts, and a real in a column of integers.
theorem decoders_differ :
    (fromRusqliteRow noCrates driver [⟨"code", some (.string, false)⟩] [.integer 5]).toOption
      ≠ (fromOwnedRow noCrates [⟨"code", some (.string, false)⟩] [.integer 5]).toOption ∧
    (fromRusqliteRow noCrates driver [⟨"total", some (.bigInt, false)⟩]
        [.real (F64.ofRatio false 5 2)]).toOption
      ≠ (fromOwnedRow noCrates [⟨"total", some (.bigInt, false)⟩]
        [.real (F64.ofRatio false 5 2)]).toOption :=
  ⟨nofun, nofun⟩

end Example

end Ruprizzle.Runtime
