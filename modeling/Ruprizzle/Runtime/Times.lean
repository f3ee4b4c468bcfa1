import Ruprizzle.Data.TextOrder

namespace Ruprizzle.Runtime

open TextOrder

-- Values of other crates as they are bound to SQLite, by their texts.

-- A calendar date of the years that have four digits.
structure Date where
  year : Nat
  month : Nat
  day : Nat
  year_lt : year < 10000
  month_lt : month < 100
  day_lt : day < 100

-- A leap second runs on from its second, with more than 10 ^ 9 nanoseconds.
structure ClockTime where
  secs : Nat
  nanos : Nat
  secs_lt : secs < 86400
  nanos_lt : nanos < 2000000000

structure Timestamp where
  date : Date
  time : ClockTime

structure Uuid where
  bytes : List UInt8
  length_bytes : bytes.length = 16

-- The orders of the crates: by calendar, by clock and byte by byte.

def Date.order (a b : Date) : Ordering :=
  (compare a.year b.year).then ((compare a.month b.month).then (compare a.day b.day))

def ClockTime.order (a b : ClockTime) : Ordering :=
  (compare a.secs b.secs).then (compare a.nanos b.nanos)

def Timestamp.order (a b : Timestamp) : Ordering :=
  (a.date.order b.date).then (a.time.order b.time)

def bytesOrder : List UInt8 → List UInt8 → Ordering
  | [], [] => .eq
  | [], _ :: _ => .lt
  | _ :: _, [] => .gt
  | a :: as, b :: bs => (compare a.toNat b.toNat).then (bytesOrder as bs)

def Uuid.order (a b : Uuid) : Ordering := bytesOrder a.bytes b.bytes

-- A leap second is at the end of its minute, as the constructors of a time want it.
def ClockTime.Regular (t : ClockTime) : Prop := 1000000000 ≤ t.nanos → t.secs % 60 = 59

def Date.text (d : Date) : List Char :=
  padded 4 d.year ++ ('-' :: padded 2 d.month ++ ('-' :: padded 2 d.day))

-- The second 60 is a leap second.
def ClockTime.clock (t : ClockTime) : List Char :=
  padded 2 (t.secs / 3600) ++ (':' :: padded 2 (t.secs / 60 % 60) ++
    (':' :: padded 2 (t.secs % 60 + t.nanos / 1000000000)))

def hexByte (b : UInt8) : List Char :=
  [Nat.digitChar (b.toNat / 16), Nat.digitChar (b.toNat % 16)]

-- The bytes from some place on, hyphens before four of them.
def hyphenated : Nat → List UInt8 → List Char
  | _, [] => []
  | i, b :: rest =>
      (if i = 4 ∨ i = 6 ∨ i = 8 ∨ i = 10 then ['-'] else []) ++ (hexByte b ++ hyphenated (i + 1) rest)

-- What the crates print. Fractions of a second are shown in as many places as
-- the crate sees fit, none of those left out having a digit.
structure Texts where
  date : Date → String
  time : ClockTime → String
  timestamp : Timestamp → String
  uuid : Uuid → String
  date_eq : ∀ d, (date d).toList = d.text
  time_eq : ∀ t, ∃ places, Exact places (t.nanos % 1000000000) ∧
    (time t).toList = t.clock ++ fraction places (t.nanos % 1000000000)
  timestamp_eq : ∀ t, ∃ places, Exact places (t.time.nanos % 1000000000) ∧
    (timestamp t).toList = t.date.text ++ ('T' :: t.time.clock ++
      (fraction places (t.time.nanos % 1000000000) ++ ['+', '0', '0', ':', '0', '0']))
  uuid_eq : ∀ u, (uuid u).toList = hyphenated 0 u.bytes

theorem compare_then_eq_lt {a b : Nat} {o : Ordering} :
    (compare a b).then o = .lt ↔ a < b ∨ a = b ∧ o = .lt := by
  rw [Ordering.then_eq_lt, Nat.compare_eq_lt, Nat.compare_eq_eq]

theorem padded_before {places m n : Nat} (h : m < n) (hn : n < 10 ^ places) (x y : List Char) :
    order (padded places m ++ x) (padded places n ++ y) = .lt :=
  order_before (by rw [length_padded, length_padded]) (padded_lt h hn) x y

namespace Date

theorem text_before {a b : Date} (h : a.order b = .lt) (x y : List Char) :
    TextOrder.order (a.text ++ x) (b.text ++ y) = .lt := by
  have hyear := b.year_lt
  have hmonth := b.month_lt
  have hday := b.day_lt
  simp only [text, List.append_assoc, List.cons_append]
  rw [order, compare_then_eq_lt, compare_then_eq_lt, Nat.compare_eq_lt] at h
  rcases h with hlt | ⟨heq, hlt | ⟨heq', hlt⟩⟩
  · exact padded_before hlt (by omega) _ _
  · rw [heq, order_same, order_cons]
    exact padded_before hlt (by omega) _ _
  · rw [heq, heq', order_same, order_cons, order_same, order_cons]
    exact padded_before hlt (by omega) _ _

theorem eq_of_order {a b : Date} (h : a.order b = .eq) : a = b := by
  simp only [order, Ordering.then_eq_eq, Nat.compare_eq_eq] at h
  cases a
  cases b
  simp_all

theorem order_swap (a b : Date) : (a.order b).swap = b.order a := by
  simp only [order, Ordering.swap_then, Nat.compare_swap]

end Date

namespace ClockTime

theorem clock_before {a b : ClockTime} (ha : a.Regular) (hb : b.Regular) (h : a.order b = .lt)
    {places places' : Nat} (hplaces : Exact places (a.nanos % 1000000000))
    (hplaces' : Exact places' (b.nanos % 1000000000)) {tail : List Char} (htail : Low tail) :
    TextOrder.order (a.clock ++ (fraction places (a.nanos % 1000000000) ++ tail))
      (b.clock ++ (fraction places' (b.nanos % 1000000000) ++ tail)) = .lt := by
  have hnanos := a.nanos_lt
  have hnanos' := b.nanos_lt
  have hsecs := b.secs_lt
  unfold Regular at ha hb
  rw [order, compare_then_eq_lt, Nat.compare_eq_lt] at h
  simp only [clock, List.append_assoc, List.cons_append]
  by_cases hhour : a.secs / 3600 < b.secs / 3600
  · exact padded_before hhour (by omega) _ _
  have hhour' : a.secs / 3600 = b.secs / 3600 := by omega
  rw [hhour', order_same, order_cons]
  by_cases hminute : a.secs / 60 % 60 < b.secs / 60 % 60
  · exact padded_before hminute (by omega) _ _
  have hminute' : a.secs / 60 % 60 = b.secs / 60 % 60 := by omega
  rw [hminute', order_same, order_cons]
  by_cases hsecond : a.secs % 60 + a.nanos / 1000000000 < b.secs % 60 + b.nanos / 1000000000
  · exact padded_before hsecond (by omega) _ _
  have hsecond' : a.secs % 60 + a.nanos / 1000000000 = b.secs % 60 + b.nanos / 1000000000 := by
    omega
  rw [hsecond', order_same]
  exact fraction_lt htail hplaces hplaces' (by omega) (by omega)

theorem eq_of_order {a b : ClockTime} (h : a.order b = .eq) : a = b := by
  simp only [order, Ordering.then_eq_eq, Nat.compare_eq_eq] at h
  cases a
  cases b
  simp_all

theorem order_swap (a b : ClockTime) : (a.order b).swap = b.order a := by
  simp only [order, Ordering.swap_then, Nat.compare_swap]

end ClockTime

theorem hexByte_lt {a b : UInt8} (h : a.toNat < b.toNat) :
    order (hexByte a) (hexByte b) = .lt := by
  have hdigits : ∀ i j : Fin 16, i < j →
      compare (Nat.digitChar i.val).toNat (Nat.digitChar j.val).toNat = .lt := by decide
  have hb := b.toNat_lt
  rw [hexByte, hexByte]
  by_cases hlead : a.toNat / 16 < b.toNat / 16
  · have hfirst := hdigits ⟨a.toNat / 16, by omega⟩ ⟨b.toNat / 16, by omega⟩ hlead
    rw [order, hfirst]
    rfl
  · have hsame : a.toNat / 16 = b.toNat / 16 := by omega
    have hlast := hdigits ⟨a.toNat % 16, by omega⟩ ⟨b.toNat % 16, by omega⟩
      (Fin.mk_lt_mk.mpr (by omega))
    rw [hsame, order_cons, order, hlast]
    rfl

theorem hyphenated_lt {a b : List UInt8} (hlength : a.length = b.length)
    (h : bytesOrder a b = .lt) (i : Nat) :
    order (hyphenated i a) (hyphenated i b) = .lt := by
  induction a generalizing b i with
  | nil =>
      obtain rfl := List.length_eq_zero_iff.mp hlength.symm
      simp [bytesOrder] at h
  | cons first rest ih =>
      cases b with
      | nil => simp at hlength
      | cons first' rest' =>
          rw [bytesOrder, compare_then_eq_lt] at h
          rw [hyphenated, hyphenated, order_same]
          rcases h with hlt | ⟨heq, hlt⟩
          · exact order_before (a := hexByte first) (b := hexByte first') rfl (hexByte_lt hlt) _ _
          · rw [UInt8.toNat_inj.mp heq, order_same]
            exact ih (by simpa using hlength) hlt (i + 1)

theorem bytesOrder_swap (a b : List UInt8) : (bytesOrder a b).swap = bytesOrder b a := by
  induction a generalizing b with
  | nil => cases b <;> rfl
  | cons first rest ih =>
      cases b with
      | nil => rfl
      | cons first' rest' => rw [bytesOrder, bytesOrder, Ordering.swap_then, ih, Nat.compare_swap]

theorem eq_of_bytesOrder {a b : List UInt8} (h : bytesOrder a b = .eq) : a = b := by
  induction a generalizing b with
  | nil => cases b <;> simp_all [bytesOrder]
  | cons first rest ih =>
      cases b with
      | nil => simp [bytesOrder] at h
      | cons first' rest' =>
          rw [bytesOrder, Ordering.then_eq_eq, Nat.compare_eq_eq] at h
          rw [UInt8.toNat_inj.mp h.1, ih h.2]

namespace Texts

variable (texts : Texts)

-- The texts stand as the values do.

theorem order_date (a b : Date) :
    order (texts.date a).toList (texts.date b).toList = a.order b := by
  rw [texts.date_eq, texts.date_eq]
  refine order_eq Date.order_swap (fun a b h => by rw [Date.eq_of_order h]) (fun a b h => ?_) a b
  simpa using Date.text_before h [] []

theorem order_time {a b : ClockTime} (ha : a.Regular) (hb : b.Regular) :
    order (texts.time a).toList (texts.time b).toList = a.order b := by
  have hlt : ∀ a b : {t : ClockTime // t.Regular}, a.val.order b.val = .lt →
      order (texts.time a.val).toList (texts.time b.val).toList = .lt := by
    intro a b h
    obtain ⟨places, hplaces, htext⟩ := texts.time_eq a.val
    obtain ⟨places', hplaces', htext'⟩ := texts.time_eq b.val
    have hnil : Low [] := fun c rest hnil => by simp at hnil
    have hbefore := ClockTime.clock_before a.property b.property h hplaces hplaces' hnil
    rw [htext, htext']
    simpa using hbefore
  exact order_eq (fun a b => ClockTime.order_swap a.val b.val)
    (fun a b h => by rw [ClockTime.eq_of_order h]) hlt ⟨a, ha⟩ ⟨b, hb⟩

theorem order_timestamp {a b : Timestamp} (ha : a.time.Regular) (hb : b.time.Regular) :
    order (texts.timestamp a).toList (texts.timestamp b).toList = a.order b := by
  have hlt : ∀ a b : {t : Timestamp // t.time.Regular}, a.val.order b.val = .lt →
      order (texts.timestamp a.val).toList (texts.timestamp b.val).toList = .lt := by
    intro a b h
    obtain ⟨places, hplaces, htext⟩ := texts.timestamp_eq a.val
    obtain ⟨places', hplaces', htext'⟩ := texts.timestamp_eq b.val
    rw [htext, htext']
    rw [Timestamp.order, Ordering.then_eq_lt] at h
    rcases h with hdate | ⟨hdate, htime⟩
    · exact Date.text_before hdate _ _
    · rw [Date.eq_of_order hdate, order_same, List.cons_append, List.cons_append, order_cons]
      refine ClockTime.clock_before a.property b.property htime hplaces hplaces' fun c rest htail => ?_
      obtain ⟨rfl, -⟩ := List.cons.inj htail
      decide
  have hswap : ∀ a b : Timestamp, (a.order b).swap = b.order a := fun a b => by
    rw [Timestamp.order, Ordering.swap_then, Date.order_swap, ClockTime.order_swap]
    rfl
  have heq : ∀ a b : Timestamp, a.order b = .eq → a = b := fun a b h => by
    obtain ⟨hdate, htime⟩ := Ordering.then_eq_eq.mp h
    cases a
    cases b
    exact congrArg₂ Timestamp.mk (Date.eq_of_order hdate) (ClockTime.eq_of_order htime)
  exact order_eq (fun a b => hswap a.val b.val) (fun a b h => by rw [heq _ _ h]) hlt ⟨a, ha⟩ ⟨b, hb⟩

theorem order_uuid (a b : Uuid) :
    order (texts.uuid a).toList (texts.uuid b).toList = a.order b := by
  have heq : ∀ a b : Uuid, a.order b = .eq → hyphenated 0 a.bytes = hyphenated 0 b.bytes :=
    fun a b h => by rw [eq_of_bytesOrder h]
  have hlt : ∀ a b : Uuid, a.order b = .lt →
      order (hyphenated 0 a.bytes) (hyphenated 0 b.bytes) = .lt :=
    fun a b h => hyphenated_lt (a.length_bytes.trans b.length_bytes.symm) h 0
  rw [texts.uuid_eq, texts.uuid_eq]
  exact order_eq (fun a b => bytesOrder_swap a.bytes b.bytes) heq hlt a b

end Texts

end Ruprizzle.Runtime
