import Mathlib.Data.List.Basic

namespace Ruprizzle.Scan

-- A scanner reads a text one symbol at a time. Of every symbol it says whether
-- a token starts there, goes on there, or the symbol belongs to no token.

inductive Mark (K : Type)
  | start (kind : K)
  | cont
  | skip
  deriving DecidableEq

structure Token (K α : Type) where
  kind : K
  text : List α
  deriving DecidableEq, Repr

variable {K M α : Type} (step : M → α → Mark K × M)

def modeAfter (m : M) (text : List α) : M := text.foldl (fun m c => (step m c).2) m

-- The symbols that go on with a token begun before the text, and the tokens
-- that start in it.
def read : M → List α → List α × List (Token K α)
  | _, [] => ([], [])
  | m, c :: rest =>
      let later := read (step m c).2 rest
      match (step m c).1 with
      | .start kind => ([], ⟨kind, c :: later.1⟩ :: later.2)
      | .cont => (c :: later.1, later.2)
      | .skip => ([], later.2)

variable {step}

@[simp] theorem modeAfter_nil (m : M) : modeAfter step m [] = m := rfl

@[simp] theorem modeAfter_cons (m : M) (c : α) (rest : List α) :
    modeAfter step m (c :: rest) = modeAfter step (step m c).2 rest := rfl

theorem modeAfter_append (m : M) (a b : List α) :
    modeAfter step m (a ++ b) = modeAfter step (modeAfter step m a) b := List.foldl_append

@[simp] theorem read_nil (m : M) : read step m [] = ([], []) := rfl

theorem read_start {m m' : M} {c : α} {kind : K} (h : step m c = (.start kind, m'))
    (rest : List α) :
    read step m (c :: rest)
      = ([], ⟨kind, c :: (read step m' rest).1⟩ :: (read step m' rest).2) := by
  simp [read, h]

theorem read_cont {m m' : M} {c : α} (h : step m c = (.cont, m')) (rest : List α) :
    read step m (c :: rest) = (c :: (read step m' rest).1, (read step m' rest).2) := by
  simp [read, h]

theorem read_skip {m m' : M} {c : α} (h : step m c = (.skip, m')) (rest : List α) :
    read step m (c :: rest) = ([], (read step m' rest).2) := by
  simp [read, h]

-- A text that no token of the text before runs into adds its own tokens.
theorem read_append {a b : List α} (m : M) (h : (read step (modeAfter step m a) b).1 = []) :
    read step m (a ++ b)
      = ((read step m a).1, (read step m a).2 ++ (read step (modeAfter step m a) b).2) := by
  induction a generalizing m with
  | nil =>
      have hfresh : (read step m b).1 = [] := h
      exact Prod.ext hfresh rfl
  | cons c rest ih =>
      have hrest := ih (step m c).2 h
      simp only [List.cons_append, read, hrest]
      cases hmark : (step m c).1 <;> simp [modeAfter_cons]

-- Two modes that treat the first symbol alike read the text alike.
theorem read_congr {m m' : M} {text : List α}
    (h : ∀ c ∈ text.head?, step m c = step m' c) : read step m text = read step m' text := by
  cases text with
  | nil => rfl
  | cons c rest =>
      have hc := h c rfl
      simp only [read, hc]

theorem modeAfter_congr {m m' : M} {text : List α} (hne : text ≠ [])
    (h : ∀ c ∈ text.head?, step m c = step m' c) :
    modeAfter step m text = modeAfter step m' text := by
  cases text with
  | nil => exact absurd rfl hne
  | cons c rest => simp only [modeAfter_cons, h c rfl]

-- A text that stays in one mode, with every symbol going on with the token.
theorem read_stays {m : M} {text : List α} (h : ∀ c ∈ text, step m c = (.cont, m)) :
    read step m text = (text, []) ∧ modeAfter step m text = m := by
  induction text with
  | nil => exact ⟨rfl, rfl⟩
  | cons c rest ih =>
      have hc := h c (by simp)
      obtain ⟨hread, hmode⟩ := ih (fun d hd => h d (List.mem_cons_of_mem c hd))
      rw [read_cont hc, hread, modeAfter_cons, hc]
      exact ⟨rfl, hmode⟩

-- A unit of symbols that the scanner takes as one: the first decides, the
-- others go on with it.
def Mark.apply (mark : Mark K) (chars : List α) (later : List α × List (Token K α)) :
    List α × List (Token K α) :=
  match mark with
  | .start kind => ([], ⟨kind, chars ++ later.1⟩ :: later.2)
  | .cont => (chars ++ later.1, later.2)
  | .skip => ([], later.2)

theorem read_cons (m : M) (c : α) (rest : List α) :
    read step m (c :: rest) = (step m c).1.apply [c] (read step (step m c).2 rest) := by
  simp only [read, Mark.apply]
  cases (step m c).1 <;> rfl

theorem read_run {m m' : M} {first : α} {more : List α} (hfirst : step m first = (.cont, m'))
    (hmore : ∀ c ∈ more, step m' c = (.cont, m')) (rest : List α) :
    read step m (first :: more ++ rest)
      = (first :: more ++ (read step m' rest).1, (read step m' rest).2) ∧
    modeAfter step m (first :: more) = m' := by
  obtain ⟨hstays, hmode⟩ := read_stays hmore
  have hrun : read step m' (more ++ rest)
      = (more ++ (read step m' rest).1, (read step m' rest).2) := by
    clear hstays hmode
    induction more with
    | nil => rfl
    | cons c more ih =>
        have hc := hmore c (by simp)
        rw [List.cons_append, read_cont hc, ih (fun e he => hmore e (List.mem_cons_of_mem c he))]
        rfl
  constructor
  · rw [List.cons_append, read_cont hfirst, hrun]
    rfl
  · rw [modeAfter_cons, hfirst]
    exact hmode

theorem read_unit {m m' m'' : M} {mark : Mark K} {c first : α} {more : List α}
    (hc : step m c = (mark, m')) (hfirst : step m' first = (.cont, m''))
    (hmore : ∀ e ∈ more, step m'' e = (.cont, m'')) (rest : List α) :
    read step m (c :: first :: more ++ rest)
      = mark.apply (c :: first :: more) (read step m'' rest) := by
  rw [List.cons_append, read_cons, hc, (read_run hfirst hmore rest).1]
  cases mark <;> rfl

-- What goes on with an earlier token is the start of the text.
variable (step) in
theorem read_pending (m : M) (text : List α) :
    (read step m text).1 = [] ∨ (read step m text).1.head? = text.head? := by
  cases text with
  | nil => exact Or.inl rfl
  | cons c rest =>
      rw [read_cons]
      cases (step m c).1 with
      | start kind => exact Or.inl rfl
      | cont => exact Or.inr rfl
      | skip => exact Or.inl rfl

-- The symbols of the tokens are symbols of the text.
theorem mem_read {m : M} {text : List α} {t : Token K α} {c : α} (ht : t ∈ (read step m text).2)
    (hc : c ∈ t.text) : c ∈ text := by
  have hall : (∀ e ∈ (read step m text).1, e ∈ text) ∧
      ∀ t ∈ (read step m text).2, ∀ e ∈ t.text, e ∈ text := by
    clear ht
    induction text generalizing m with
    | nil => simp
    | cons first rest ih =>
        obtain ⟨hpending, htokens⟩ := ih (m := (step m first).2)
        rw [read_cons]
        cases (step m first).1 with
        | start kind =>
            refine ⟨by simp [Mark.apply], fun t ht e he => ?_⟩
            simp only [Mark.apply, List.mem_cons] at ht
            rcases ht with rfl | ht
            · rcases List.mem_append.mp he with he | he
              · exact List.mem_cons.mpr (Or.inl (by simpa using he))
              · exact List.mem_cons_of_mem first (hpending e he)
            · exact List.mem_cons_of_mem first (htokens t ht e he)
        | cont =>
            refine ⟨fun e he => ?_, fun t ht e he => List.mem_cons_of_mem first (htokens t ht e he)⟩
            rcases List.mem_append.mp he with he | he
            · exact List.mem_cons.mpr (Or.inl (by simpa using he))
            · exact List.mem_cons_of_mem first (hpending e he)
        | skip =>
            exact ⟨by simp [Mark.apply],
              fun t ht e he => List.mem_cons_of_mem first (htokens t ht e he)⟩
  exact hall.2 t ht c hc

end Ruprizzle.Scan
