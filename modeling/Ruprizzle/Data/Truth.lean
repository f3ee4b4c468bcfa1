import Mathlib.Data.List.Basic

namespace Ruprizzle

-- Three-valued logic, as SQL and Kleene have it.
inductive Truth
  | yes | no | unknown
  deriving DecidableEq, Repr

namespace Truth

def ofBool : Bool → Truth
  | true => yes
  | false => no

def not : Truth → Truth
  | yes => no
  | no => yes
  | unknown => unknown

def and : Truth → Truth → Truth
  | no, _ | _, no => no
  | yes, yes => yes
  | _, _ => unknown

def or : Truth → Truth → Truth
  | yes, _ | _, yes => yes
  | no, no => no
  | _, _ => unknown

def xor : Truth → Truth → Truth
  | unknown, _ | _, unknown => unknown
  | yes, yes | no, no => no
  | _, _ => yes

def all (ts : List Truth) : Truth := ts.foldr and yes

def any (ts : List Truth) : Truth := ts.foldr or no

def odd (ts : List Truth) : Truth := ts.foldr xor no

@[simp] theorem all_nil : all [] = yes := rfl

@[simp] theorem any_nil : any [] = no := rfl

@[simp] theorem all_cons (t : Truth) (ts : List Truth) : all (t :: ts) = t.and (all ts) := rfl

@[simp] theorem any_cons (t : Truth) (ts : List Truth) : any (t :: ts) = t.or (any ts) := rfl

@[simp] theorem and_yes (t : Truth) : t.and yes = t := by cases t <;> rfl

@[simp] theorem or_no (t : Truth) : t.or no = t := by cases t <;> rfl

@[simp] theorem xor_no (t : Truth) : t.xor no = t := by cases t <;> rfl

@[simp] theorem ofBool_eq_yes (b : Bool) : ofBool b = yes ↔ b = true := by cases b <;> simp [ofBool]

theorem and_assoc (a b c : Truth) : (a.and b).and c = a.and (b.and c) := by
  cases a <;> cases b <;> cases c <;> rfl

theorem or_assoc (a b c : Truth) : (a.or b).or c = a.or (b.or c) := by
  cases a <;> cases b <;> cases c <;> rfl

theorem all_append (a b : List Truth) : all (a ++ b) = (all a).and (all b) := by
  induction a with
  | nil => cases h : all b <;> simp [h, and]
  | cons t rest ih => rw [List.cons_append, all_cons, all_cons, ih, and_assoc]

theorem any_append (a b : List Truth) : any (a ++ b) = (any a).or (any b) := by
  induction a with
  | nil => cases h : any b <;> simp [h, or]
  | cons t rest ih => rw [List.cons_append, any_cons, any_cons, ih, or_assoc]

theorem all_flatMap {α : Type} (f : α → List Truth) (as : List α) :
    all (as.flatMap f) = all (as.map fun a => all (f a)) := by
  induction as with
  | nil => rfl
  | cons a rest ih => rw [List.flatMap_cons, all_append, ih, List.map_cons, all_cons]

theorem any_flatMap {α : Type} (f : α → List Truth) (as : List α) :
    any (as.flatMap f) = any (as.map fun a => any (f a)) := by
  induction as with
  | nil => rfl
  | cons a rest ih => rw [List.flatMap_cons, any_append, ih, List.map_cons, any_cons]

@[simp] theorem all_eq_yes {ts : List Truth} : all ts = yes ↔ ∀ t ∈ ts, t = yes := by
  induction ts with
  | nil => simp
  | cons t rest ih =>
      rw [all_cons, List.forall_mem_cons, ← ih]
      cases t <;> cases all rest <;> simp [and]

@[simp] theorem any_eq_yes {ts : List Truth} : any ts = yes ↔ ∃ t ∈ ts, t = yes := by
  induction ts with
  | nil => simp
  | cons t rest ih =>
      rw [any_cons, List.exists_mem_cons_iff, ← ih]
      cases t <;> cases any rest <;> simp [or]

@[simp] theorem all_eq_no {ts : List Truth} : all ts = no ↔ ∃ t ∈ ts, t = no := by
  induction ts with
  | nil => simp
  | cons t rest ih =>
      rw [all_cons, List.exists_mem_cons_iff, ← ih]
      cases t <;> cases all rest <;> simp [and]

@[simp] theorem any_eq_no {ts : List Truth} : any ts = no ↔ ∀ t ∈ ts, t = no := by
  induction ts with
  | nil => simp
  | cons t rest ih =>
      rw [any_cons, List.forall_mem_cons, ← ih]
      cases t <;> cases any rest <;> simp [or]

end Truth

end Ruprizzle
