import Ruprizzle.Dialect.Common
import Ruprizzle.Runtime.Filters
import Ruprizzle.Runtime.Times

namespace Ruprizzle.Runtime

-- The types with an order, and what SQLite makes of their values.

-- All but decimals, whose order there is that of their texts by design.
inductive OrderedType
  | bool | i32 | i64 | uuid | dateTime | date | time
  | option (inner : OrderedType)
  deriving DecidableEq, Repr

namespace OrderedType

def Carrier : OrderedType → Type
  | bool => Bool
  | i32 => Int
  | i64 => Int
  | uuid => Uuid
  | dateTime => Timestamp
  | date => Date
  | time => ClockTime
  | option inner => Option inner.Carrier

def order : (t : OrderedType) → t.Carrier → t.Carrier → Ordering
  | bool, a, b => compare a.toNat b.toNat
  | i32, a, b => @compare Int _ a b
  | i64, a, b => @compare Int _ a b
  | uuid, a, b => Uuid.order a b
  | dateTime, a, b => Timestamp.order a b
  | date, a, b => Date.order a b
  | time, a, b => ClockTime.order a b
  | option _, none, none => .eq
  | option _, none, some _ => .lt
  | option _, some _, none => .gt
  | option inner, some a, some b => inner.order a b

def toValue (texts : Texts) : (t : OrderedType) → t.Carrier → Value
  | bool, b => .bool b
  | i32, i => .i32 i
  | i64, i => .i64 i
  | uuid, u => .uuid (texts.uuid u)
  | dateTime, dt => .dateTime (texts.timestamp dt)
  | date, d => .date (texts.date d)
  | time, t => .time (texts.time t)
  | option _, none => .null
  | option inner, some v => inner.toValue texts v

def Regular : (t : OrderedType) → t.Carrier → Prop
  | dateTime, dt => ClockTime.Regular (Timestamp.time dt)
  | time, t => ClockTime.Regular t
  | option inner, some v => inner.Regular v
  | _, _ => True

def scalar : OrderedType → ScalarType
  | bool => .boolean
  | i32 => .int
  | i64 => .bigInt
  | uuid => .uuid
  | dateTime => .dateTime
  | date => .date
  | time => .time
  | option inner => inner.scalar

-- An option of an option has two values that are NULL.
def plain : OrderedType → Bool
  | option (option _) => false
  | _ => true

end OrderedType

inductive Stored
  | null
  | integer (i : Int)
  | text (s : List Char)
  deriving DecidableEq, Repr

-- NULL comes first, then numbers, then texts.
def Stored.order : Stored → Stored → Ordering
  | null, null => .eq
  | null, _ => .lt
  | _, null => .gt
  | integer i, integer j => compare i j
  | integer _, text _ => .lt
  | text _, integer _ => .gt
  | text a, text b => TextOrder.order a b

-- What both drivers bind. Floats, blobs and documents are of no type above.
def Value.stored : Value → Option Stored
  | null => some .null
  | bool b => some (.integer (if b then 1 else 0))
  | i32 i => some (.integer i)
  | i64 i => some (.integer i)
  | decimal text => some (.text text.toList)
  | str s => some (.text s.toList)
  | uuid text => some (.text text.toList)
  | dateTime text => some (.text text.toList)
  | date text => some (.text text.toList)
  | time text => some (.text text.toList)
  | _ => none

-- The columns that store a value as it is bound.
def Stored.Fits (type : SqlType) : Stored → Prop
  | null => True
  | integer _ => type = .builtin "INTEGER"
  | text _ => type = .builtin "TEXT"

namespace CmpOp

def orders (op : CmpOp) : Bool := op ≠ .like && op ≠ .ilike

-- What an operator says of two values that compare so.
def admits : CmpOp → Ordering → Bool
  | eq, o => o = .eq
  | ne, o => o ≠ .eq
  | gt, o => o = .gt
  | gte, o => o ≠ .lt
  | lt, o => o = .lt
  | lte, o => o ≠ .gt
  | like, _ => false
  | ilike, _ => false

end CmpOp

def Engine.ComparesStored (engine : Engine) : Prop :=
  ∀ (op : CmpOp) (v w : Value) (s s' : Stored), op.orders = true →
    v.stored = some s → w.stored = some s' → v.isNull = false → w.isNull = false →
      engine.compare op v w = Truth.ofBool (op.admits (s.order s'))

namespace OrderedType

variable {texts : Texts}

theorem stored_order {t : OrderedType} {a b : t.Carrier} (ha : t.Regular a) (hb : t.Regular b)
    (hnull : (t.toValue texts a).isNull = false) (hnull' : (t.toValue texts b).isNull = false) :
    ∃ s s', (t.toValue texts a).stored = some s ∧ (t.toValue texts b).stored = some s' ∧
      s.order s' = t.order a b := by
  induction t with
  | bool =>
      refine ⟨_, _, rfl, rfl, ?_⟩
      cases a <;> cases b <;> rfl
  | i32 => exact ⟨_, _, rfl, rfl, rfl⟩
  | i64 => exact ⟨_, _, rfl, rfl, rfl⟩
  | uuid => exact ⟨_, _, rfl, rfl, texts.order_uuid a b⟩
  | dateTime => exact ⟨_, _, rfl, rfl, texts.order_timestamp ha hb⟩
  | date => exact ⟨_, _, rfl, rfl, texts.order_date a b⟩
  | time => exact ⟨_, _, rfl, rfl, texts.order_time ha hb⟩
  | option inner ih =>
      cases a with
      | none => simp [toValue, Value.isNull] at hnull
      | some v =>
          cases b with
          | none => simp [toValue, Value.isNull] at hnull'
          | some w => exact ih ha hb hnull hnull'

theorem stored_isSome (texts : Texts) (t : OrderedType) (a : t.Carrier) :
    ∃ s, (t.toValue texts a).stored = some s ∧
      ((t.toValue texts a).isNull = false → s ≠ .null) ∧
      s.Fits (Dialect.sqliteKindType (.scalar t.scalar)) := by
  induction t with
  | option inner ih =>
      cases a with
      | none => exact ⟨.null, rfl, fun hnull => by simp [toValue, Value.isNull] at hnull, trivial⟩
      | some v => exact ih v
  | _ => exact ⟨_, rfl, fun _ => by simp, rfl⟩

theorem isNull_plain {t : OrderedType} (h : (option t).plain = true) (a : t.Carrier) :
    (t.toValue texts a).isNull = false := by
  cases t with
  | option inner => simp [plain] at h
  | _ => rfl

-- ORDER BY, with None before everything else on both sides.
theorem stored_order_plain {t : OrderedType} (h : t.plain = true) {a b : t.Carrier}
    (ha : t.Regular a) (hb : t.Regular b) :
    ∃ s s', (t.toValue texts a).stored = some s ∧ (t.toValue texts b).stored = some s' ∧
      s.order s' = t.order a b := by
  cases t with
  | option inner =>
      cases a with
      | none =>
          cases b with
          | none => exact ⟨_, _, rfl, rfl, rfl⟩
          | some w =>
              obtain ⟨s, hs, hsome, -⟩ := stored_isSome texts inner w
              refine ⟨_, s, rfl, hs, ?_⟩
              cases s with
              | null => exact absurd rfl (hsome (isNull_plain h w))
              | _ => rfl
      | some v =>
          obtain ⟨s, hs, hsome, -⟩ := stored_isSome texts inner v
          cases b with
          | none =>
              refine ⟨s, _, hs, rfl, ?_⟩
              cases s with
              | null => exact absurd rfl (hsome (isNull_plain h v))
              | _ => rfl
          | some w => exact stored_order ha hb (isNull_plain h v) (isNull_plain h w)
  | _ => exact stored_order ha hb rfl rfl

variable {S : Type} {engine : Engine} {db : Database} {reading : S → List Word} {env : Env}
  {t : OrderedType} {a b c : t.Carrier} {table column : String}

theorem compare_stored (hengine : engine.ComparesStored) {op : CmpOp} (hop : op.orders = true)
    (ha : t.Regular a) (hb : t.Regular b) (hnull : (t.toValue texts a).isNull = false)
    (hnull' : (t.toValue texts b).isNull = false) :
    engine.compare op (t.toValue texts a) (t.toValue texts b)
      = Truth.ofBool (op.admits (t.order a b)) := by
  obtain ⟨s, s', hs, hs', horder⟩ := stored_order ha hb hnull hnull'
  rw [hengine op _ _ s s' hop hs hs' hnull hnull', horder]

theorem truth_cmp {op : CmpOp} {v : Value} (hop : op.orders = true)
    (hnone : ¬ (v.isNull = true ∧ (op = .eq ∨ op = .ne))) :
    engine.truth db .sqlite env ((FilterNode.cmp table column op v : FilterNode S).words .sqlite reading)
      = engine.compare op (env table column) v := by
  have hilike : op = .ilike → Dialect.sqlite = .postgres := by
    rintro rfl
    simp [CmpOp.orders] at hop
  rw [truth_compared hnone hilike, Engine.compareTo, if_neg fun h => hnone ⟨h.1, Or.inl h.2⟩,
    if_neg fun h => hnone ⟨h.1, Or.inr h.2⟩]

theorem truth_between (lo hi : Value) :
    engine.truth db .sqlite env
        ((FilterNode.between table column lo hi : FilterNode S).words .sqlite reading)
      = engine.isBetween (env table column) lo hi :=
  truth_words (.between table column lo hi) env

theorem eq_null_of_isNull {v : Value} (h : v.isNull = true) : v = .null := by
  cases v <;> first | rfl | simp [Value.isNull] at h

end OrderedType

-- A database that compares as SQLite does, and the texts as they are printed: as
-- many places as there are digits, by threes.

def storedEngine : Engine where
  compare op v w :=
    match v.stored, w.stored with
    | some s, some s' =>
        if v.isNull || w.isNull then .unknown else Truth.ofBool (op.admits (s.order s'))
    | _, _ => .unknown
  other _ _ := .unknown
  compare_null op v := by cases v <;> rfl
  null_compare op v := by cases v <;> rfl

theorem storedEngine_compares : storedEngine.ComparesStored := by
  intro op v w s s' _ hs hs' hnull hnull'
  simp [storedEngine, hs, hs', hnull, hnull']

def shownPlaces (n : Nat) : Nat :=
  if n = 0 then 0 else if n % 1000000 = 0 then 3 else if n % 1000 = 0 then 6 else 9

theorem exact_shownPlaces (n : Nat) : TextOrder.Exact (shownPlaces n) n := by
  unfold shownPlaces TextOrder.Exact
  split
  · next h => subst h; simp
  split
  · next h => exact ⟨by omega, Nat.dvd_of_mod_eq_zero h⟩
  split
  · next h => exact ⟨by omega, Nat.dvd_of_mod_eq_zero h⟩
  · exact ⟨le_rfl, by simp⟩

def printed : Texts where
  date d := String.ofList d.text
  time t := String.ofList (t.clock ++
    TextOrder.fraction (shownPlaces (t.nanos % 1000000000)) (t.nanos % 1000000000))
  timestamp t := String.ofList (t.date.text ++ ('T' :: t.time.clock ++
    (TextOrder.fraction (shownPlaces (t.time.nanos % 1000000000)) (t.time.nanos % 1000000000) ++
      ['+', '0', '0', ':', '0', '0'])))
  uuid u := String.ofList (hyphenated 0 u.bytes)
  date_eq _ := String.toList_ofList
  time_eq _ := ⟨_, exact_shownPlaces _, String.toList_ofList⟩
  timestamp_eq _ := ⟨_, exact_shownPlaces _, String.toList_ofList⟩
  uuid_eq _ := String.toList_ofList

def atSecond (secs nanos : Nat) (h : secs < 86400) (h' : nanos < 2000000000) : ClockTime :=
  ⟨secs, nanos, h, h'⟩

def lastSecond (nanos : Nat) (h : nanos < 2000000000) : ClockTime :=
  atSecond 86399 nanos (by decide) h

theorem lastSecond_regular (nanos : Nat) (h : nanos < 2000000000) :
    OrderedType.time.Regular (lastSecond nanos h) := by
  have hsecs : 86399 % 60 = 59 := rfl
  exact fun _ => hsecs

end Ruprizzle.Runtime
