import Ruprizzle.Cli.StudioLaw
import Ruprizzle.Parser.Build

namespace Ruprizzle.Studio

open Fallible
open Ruprizzle.Runtime (RusqliteValue)

section OnSqlite

variable {q : Sqlite} {state : AppState} {db : Database RusqliteValue} {m : Model}
  {idField field : Field} {row : Row RusqliteValue} {info : RowInfo} {v : RusqliteValue}
  {text : String}

def castClass (f : Field) : String := ((scalarOf f).map sqliteTypeName).getD "TEXT"

-- A value of the class that the column is declared with.
def OfClass (f : Field) : RusqliteValue → Prop
  | .null => True
  | .integer i => castClass f = "INTEGER" ∧ -(2 ^ 63) ≤ i ∧ i < 2 ^ 63
  | .real _ => castClass f = "REAL"
  | .text _ => castClass f = "TEXT"
  | .blob _ => castClass f = "BLOB"

-- Only a real may come back from its text as another value.
def reread (q : Sqlite) : RusqliteValue → RusqliteValue
  | .real x => .real (q.readReal (q.printReal x))
  | v => v

theorem bindExpr_eq (f : Field) (text : String) :
    bindExpr q.engine f text = .ok (q.cast (castClass f) text) := by
  unfold bindExpr castClass
  cases scalarOf f with
  | none => rfl
  | some ty => cases ty <;> rfl

theorem natOfDigits_toDigits (n : Nat) : Text.natOfDigits (Nat.toDigits 10 n) = n := by
  rw [Text.natOfDigits, ← Nat.ofDigitChars_eq_foldl]
  exact Nat.ofDigitChars_toDigits (by omega) (by omega)

theorem takeWhile_toDigits (n : Nat) :
    (Nat.toDigits 10 n).takeWhile Char.isDigit = Nat.toDigits 10 n :=
  List.takeWhile_eq_self_iff.mpr fun _ hc => Nat.isDigit_of_mem_toDigits (by omega) (by omega) hc

theorem intPrefix_digits {c : Char} {rest : List Char} {text : String}
    (h : text.toList = c :: rest) (hc : c.isDigit = true) :
    intPrefix text =
      min (2 ^ 63 - 1) (Text.natOfDigits ((c :: rest).takeWhile Char.isDigit) : Int) := by
  have hblank : (c = ' ' || ('\t' ≤ c && c ≤ '\r')) = false := by
    rw [Bool.or_eq_false_iff, Bool.and_eq_false_iff]
    refine ⟨decide_eq_false fun hspace => ?_, Or.inr (decide_eq_false fun hle => ?_)⟩
    · rw [hspace] at hc
      cases hc
    · have hlow := (Char.isDigit_iff_toNat.mp hc).1
      have hhigh : c.toNat ≤ '\r'.toNat := UInt32.le_iff_toNat_le.mp hle
      exact absurd (Nat.le_trans hlow hhigh) (by decide)
  unfold intPrefix
  rw [h, List.dropWhile_cons_of_neg (by rw [hblank]; exact Bool.false_ne_true)]
  dsimp only
  split
  · rename_i hminus
    obtain ⟨rfl, -⟩ := List.cons.inj hminus
    cases hc
  · rename_i hplus
    obtain ⟨rfl, -⟩ := List.cons.inj hplus
    cases hc
  · rfl

theorem intPrefix_toString {i : Int} (hlow : -(2 ^ 63) ≤ i) (hhigh : i < 2 ^ 63) :
    intPrefix (toString i) = i := by
  cases i with
  | ofNat n =>
      have htext : (toString (Int.ofNat n)).toList = Nat.toDigits 10 n := by
        show (Nat.repr n).toList = _
        rw [Nat.repr, String.toList_ofList]
      obtain ⟨c, rest, hcons⟩ := List.exists_cons_of_ne_nil (Nat.toDigits_ne_nil (b := 10) (n := n))
      have hdigit : c.isDigit = true :=
        Nat.isDigit_of_mem_toDigits (by omega) (by omega) (hcons ▸ List.mem_cons_self)
      rw [intPrefix_digits (htext.trans hcons) hdigit, ← hcons, takeWhile_toDigits,
        natOfDigits_toDigits]
      have hn : (n : Int) < 2 ^ 63 := hhigh
      show min (2 ^ 63 - 1) (n : Int) = n
      omega
  | negSucc n =>
      have htext : (toString (Int.negSucc n)).toList = '-' :: Nat.toDigits 10 (n + 1) := by
        show ("-" ++ Nat.repr (n + 1)).toList = _
        rw [String.toList_append, Nat.repr]
        exact congrArg ('-' :: ·) String.toList_ofList
      unfold intPrefix
      rw [htext, List.dropWhile_cons_of_neg (by decide)]
      simp only [takeWhile_toDigits, natOfDigits_toDigits, if_true]
      omega

-- The text that is shown, cast back.
theorem bindExpr_toText {f : Field} (hclass : OfClass f v) (htext : q.toText v = .ok (some text)) :
    bindExpr q.engine f text = .ok (reread q v) := by
  rw [bindExpr_eq]
  cases v with
  | null => simp [Sqlite.toText] at htext
  | integer i =>
      obtain rfl := Option.some.inj (Except.ok.inj htext)
      obtain ⟨hname, hlow, hhigh⟩ := hclass
      rw [hname]
      exact congrArg (fun i => Except.ok (RusqliteValue.integer i)) (intPrefix_toString hlow hhigh)
  | real x =>
      obtain rfl := Option.some.inj (Except.ok.inj htext)
      rw [show castClass f = "REAL" from hclass]
      rfl
  | text t =>
      obtain rfl := Option.some.inj (Except.ok.inj htext)
      rw [show castClass f = "TEXT" from hclass]
      rfl
  | blob b =>
      rw [show castClass f = "BLOB" from hclass]
      simp only [Sqlite.toText] at htext
      split at htext
      · rename_i t hdecode
        obtain rfl := Option.some.inj (Except.ok.inj htext)
        exact congrArg (fun b => Except.ok (RusqliteValue.blob b)) (q.encode_decode b t hdecode)
      · cases htext

theorem toText_none (h : q.toText v = .ok none) : v = .null := by
  cases v with
  | null => rfl
  | blob b =>
      simp only [Sqlite.toText] at h
      split at h <;> cases h
  | _ => cases h

theorem reread_eq (h : ∀ x, v ≠ .real x) : reread q v = v := by
  cases v with
  | real x => exact absurd rfl (h x)
  | _ => rfl

-- What the column keeps of a value, where the constraints let it be.
def lets (q : Sqlite) (db : Database RusqliteValue) (m : Model) (idField field : Field)
    (row : Row RusqliteValue) (v kept : RusqliteValue) : Prop :=
  q.keeps field v = .ok kept ∧ q.checks (changed q.engine db m idField field row kept) = none

-- On SQLite nothing is refused by a cast, and it is the reals that may not come back.
structure HoldsOnSqlite (q : Sqlite) (db : Database RusqliteValue) (m : Model)
    (idField field : Field) (row : Row RusqliteValue) (value : Field → String → Bool)
    (text : String) : Prop where
  key : row idField.column ≠ .null
  keyReal : ∀ x, row idField.column = .real x →
    q.same idField (.real x) (.real (q.readReal (q.printReal x))) = true
  cellReal : ∀ x, text ≠ "" → row field.column = .real x → text = q.printReal x → ∀ kept,
    lets q db m idField field row (.real (q.readReal (q.printReal x))) kept → kept = .real x
  refuses : text ≠ "" → value field text = false → ∀ kept,
    ¬ lets q db m idField field row (q.cast (castClass field) text) kept

theorem stored_iff {kept : RusqliteValue} :
    stored q.engine db m idField field row text = .ok kept ↔
      lets q db m idField field row (q.cast (castClass field) text) kept := by
  unfold stored lets
  rw [bindExpr_eq]
  constructor
  · intro hstored
    obtain ⟨kept', hkeep, hstored⟩ :=
      bind_eq_ok.mp (show (q.keeps field _).bind _ = _ from hstored)
    obtain ⟨next, hnext, rfl⟩ := map_eq_ok.mp hstored
    exact ⟨hkeep, (guarded_iff.mp hnext).1⟩
  · intro ⟨hkeep, hchecks⟩
    show (q.keeps field _).bind _ = _
    exact bind_eq_ok.mpr ⟨kept, hkeep, map_eq_ok.mpr ⟨_, guarded_iff.mpr ⟨hchecks, rfl⟩, rfl⟩⟩

theorem holds_iff_sqlite (h : Shown q.engine state db m idField field row info)
    (hid : OfClass idField (row idField.column)) (hfield : OfClass field (row field.column))
    (hkept : q.keeps field (row field.column) = .ok (row field.column))
    (value : Field → String → Bool) (text : String) :
    Holds q.engine db m idField field row info value text ↔
      HoldsOnSqlite q db m idField field row value text := by
  obtain ⟨shown, hshown, hinfo⟩ := h.id
  constructor
  · intro hholds
    obtain ⟨k, hbind, hkey⟩ := hholds.key
    refine ⟨fun hnull => ?_, fun x hx => ?_, fun x ht hx htext kept hkept => ?_,
      fun ht hvalue kept hlets => hholds.refuses ht hvalue kept (stored_iff.mpr hlets)⟩
    · rw [hnull] at hkey
      exact Bool.false_ne_true ((q.same_null idField k).symm.trans hkey)
    · rw [hx] at hshown hkey hid
      obtain rfl := Except.ok.inj hshown
      rw [hinfo, Option.getD_some, bindExpr_toText hid rfl] at hbind
      obtain rfl := Except.ok.inj hbind
      exact hkey
    · rw [← hx]
      have hreal : castClass field = "REAL" := by rwa [hx] at hfield
      refine hholds.again ht (by rw [hx, htext]; rfl) kept (stored_iff.mpr ?_)
      rw [hreal, htext]
      exact hkept
  · intro hholds
    refine ⟨?_, fun ht htext v hv => ?_,
      fun ht hvalue kept hstored => hholds.refuses ht hvalue kept (stored_iff.mp hstored)⟩
    · cases shown with
      | none => exact absurd (toText_none hshown) hholds.key
      | some t =>
          refine ⟨_, by rw [hinfo, Option.getD_some]; exact bindExpr_toText hid hshown, ?_⟩
          by_cases hreal : ∃ x, row idField.column = .real x
          · obtain ⟨x, hx⟩ := hreal
            rw [hx]
            exact hholds.keyReal x hx
          · rw [reread_eq fun x hx => hreal ⟨x, hx⟩]
            exact q.same_self idField _ hholds.key
    · have hlets := stored_iff.mp hv
      have hcast := bindExpr_toText hfield htext
      rw [bindExpr_eq] at hcast
      by_cases hreal : ∃ x, row field.column = .real x
      · obtain ⟨x, hx⟩ := hreal
        rw [Except.ok.inj hcast, hx] at hlets
        rw [hx] at htext ⊢
        exact hholds.cellReal x ht hx (Option.some.inj (Except.ok.inj htext)).symm v hlets
      · rw [Except.ok.inj hcast, reread_eq fun x hx => hreal ⟨x, hx⟩] at hlets
        exact Except.ok.inj (hlets.1.symm.trans hkept)

end OnSqlite

theorem edits_iff {V : Type} {s : Engine V} {state : AppState} {db : Database V} {m : Model}
    {idField field : Field} {row : Row V} {info : RowInfo}
    (h : Shown s state db m idField field row info) (value : Field → String → Bool)
    (text : String) :
    (Faithful s state db m idField field row info value text ↔
      Holds s db m idField field row info value text) ∧
    ∀ {q : Sqlite} {db : Database RusqliteValue} {row : Row RusqliteValue} {info : RowInfo},
      Shown q.engine state db m idField field row info →
      OfClass idField (row idField.column) → OfClass field (row field.column) →
      q.keeps field (row field.column) = .ok (row field.column) →
      (Faithful q.engine state db m idField field row info value text ↔
        HoldsOnSqlite q db m idField field row value text) := by
  refine ⟨edits_iff_holds h value text, fun hq hid hfield hkept => ?_⟩
  rw [edits_iff_holds hq value text]
  exact holds_iff_sqlite hq hid hfield hkept value text

-- A user with an age, in a SQLite that keeps what it is given.

def userSchema : Schema :=
  (Build.schema "sqlite" [Build.model "User" [Build.idField,
    Build.field "age" "Int" .required []] []]).lowered

theorem accepted_user : Accepted userSchema := accepted_lowered (by decide +kernel)

def userModel : Model := userSchema.models.values.headD ⟨⟨""⟩, "", .empty, ⟨[], none, Span.EMPTY⟩,
  [], [], none, Span.EMPTY⟩

def noField : Field := ⟨⟨""⟩, "", .scalar .int, false, none, {}, none, none, Span.EMPTY⟩

def idOf : Field := (userModel.fields.get? ⟨"id"⟩).getD noField

def ageOf : Field := (userModel.fields.get? ⟨"age"⟩).getD noField

def studio : AppState := ⟨userSchema, true, true⟩

def sqlite : Sqlite where
  printReal := F64.toText
  readReal _ := .zero
  decode _ := none
  encode_decode _ _ h := by cases h
  keeps _ v := .ok v
  same _ v w := v = w && v ≠ .null
  same_self _ v hv := by simp [hv]
  same_null _ _ := by simp
  same_symm _ v w h := by
    simp only [Bool.and_eq_true, decide_eq_true_eq] at h ⊢
    exact ⟨h.1.symm, h.1 ▸ h.2⟩
  same_trans _ v w x h h' := by
    simp only [Bool.and_eq_true, decide_eq_true_eq] at h h' ⊢
    exact ⟨h.1.trans h'.1, h.2⟩
  checks _ := none

def ada : Row RusqliteValue := fun c => if c = "id" then .integer 1 else .integer 30

def users : Database RusqliteValue := fun t => if t = "users" then [ada] else []

def adaInfo : RowInfo :=
  ⟨"1", [⟨"id", "1", true, false, false, "", false, false⟩,
    ⟨"age", "30", false, false, false, "", true, false⟩]⟩

-- What an integer column takes for one.
def isInt (_ : Field) (text : String) : Bool :=
  match (Runtime.Numeric.parseI64 text).bind Runtime.Numeric.tryIntoI32 with
  | .ok _ => true
  | .error _ => false

theorem shown_ada : Shown sqlite.engine studio users userModel idOf ageOf ada adaInfo where
  accepted := accepted_user
  modelled := by decide +kernel
  writable := rfl
  key := by decide +kernel
  listed := by decide +kernel
  editable := by decide +kernel
  notKey := by decide +kernel
  member := List.mem_singleton.mpr rfl
  shows := by rfl
  unique := List.pairwise_singleton _ _

theorem edits_age :
    Faithful sqlite.engine studio users userModel idOf ageOf ada adaInfo isInt "30" := by
  have hid : castClass idOf = "INTEGER" := by decide +kernel
  have hage : castClass ageOf = "INTEGER" := by decide +kernel
  have hone : ada idOf.column = .integer 1 := by rfl
  have hthirty : ada ageOf.column = .integer 30 := by rfl
  refine ((edits_iff shown_ada isInt "30").2 shown_ada ?_ ?_ rfl).mpr ⟨?_, ?_, ?_, ?_⟩
  · rw [hone]
    exact ⟨hid, by omega, by omega⟩
  · rw [hthirty]
    exact ⟨hage, by omega, by omega⟩
  · rw [hone]
    exact RusqliteValue.noConfusion
  · intro x hx
    rw [hone] at hx
    cases hx
  · intro x _ hx
    rw [hthirty] at hx
    cases hx
  · intro _ hvalue
    exact absurd hvalue (by decide +kernel)

-- What follows the digits of a number is cut off, and the rest is stored.
theorem letters_stored : Shown sqlite.engine studio users userModel idOf ageOf ada adaInfo ∧
    isInt ageOf "12abc" = false ∧
    ¬ Faithful sqlite.engine studio users userModel idOf ageOf ada adaInfo isInt "12abc" := by
  refine ⟨shown_ada, by decide +kernel, fun h => ?_⟩
  obtain ⟨e, hrefused⟩ := h.refused (by decide) (by decide +kernel)
  have hcell : (patchCell sqlite.engine studio users userModel.name.str adaInfo.id ageOf.name.str
      (some "12abc")).1 = .cell "1" ⟨"age", "12", false, false, false, "", true, false⟩ := by
    decide +kernel
  rw [hrefused] at hcell
  cases hcell

end Ruprizzle.Studio
