import Mathlib.Data.List.Basic

namespace Ruprizzle

-- Texts with brackets: the open ones are a stack, and what a letter does to the
-- stack depends on no more than its top. B is a kind of brackets.
namespace Nesting

inductive Move (B : Type)
  | push (b : B)
  | pop
  | stay

variable {α B : Type}

-- A letter that may not stand where it does has no move.
abbrev Turn (α B : Type) := Option B → α → Option (Move B)

def Move.apply : Move B → List B → List B
  | push b, open_ => b :: open_
  | pop, open_ => open_.tail
  | stay, open_ => open_

def run (turn : Turn α B) : List B → List α → Option (List B)
  | open_, [] => some open_
  | open_, a :: rest => (turn open_.head? a).bind fun m => run turn (m.apply open_) rest

-- A text that opens what it closes and closes what it opens.
def Whole (turn : Turn α B) (text : List α) : Prop := run turn [] text = some []

instance [DecidableEq B] (turn : Turn α B) (text : List α) : Decidable (Whole turn text) := by
  unfold Whole
  infer_instance

-- Nothing is closed that is not open.
def Guarded (turn : Turn α B) : Prop := ∀ a, turn none a ≠ some .pop

-- A letter of the outermost level does the same right inside of the bracket b.
def Sheltered (turn : Turn α B) (b : B) : Prop :=
  ∀ a m, turn none a = some m → turn (some b) a = some m

variable {turn : Turn α B}

@[simp] theorem run_nil (open_ : List B) : run turn open_ [] = some open_ := rfl

theorem run_cons (open_ : List B) (a : α) (rest : List α) :
    run turn open_ (a :: rest) = (turn open_.head? a).bind fun m => run turn (m.apply open_) rest :=
  rfl

theorem run_append (open_ : List B) (a b : List α) :
    run turn open_ (a ++ b) = (run turn open_ a).bind fun open' => run turn open' b := by
  induction a generalizing open_ with
  | nil => rfl
  | cons x rest ih =>
      rw [List.cons_append, run_cons, run_cons]
      cases turn open_.head? x with
      | none => rfl
      | some m => exact ih _

theorem Whole.nil : Whole turn [] := rfl

theorem Whole.append {a b : List α} (ha : Whole turn a) (hb : Whole turn b) :
    Whole turn (a ++ b) := by
  unfold Whole at *
  rw [run_append, ha]
  exact hb

theorem Whole.cons {a : α} {rest : List α} (ha : turn none a = some .stay)
    (hrest : Whole turn rest) : Whole turn (a :: rest) := by
  unfold Whole at *
  rw [run_cons]
  simpa [ha, Move.apply] using hrest

-- The same text where some letters may not stand at the outermost level.
def bar (sep : α → Bool) (turn : Turn α B) : Turn α B
  | none, a => if sep a then none else turn none a
  | some b, a => turn (some b) a

theorem bar_none {sep : α → Bool} {a : α} {m : Move B} (h : bar sep turn none a = some m) :
    sep a = false ∧ turn none a = some m := by
  unfold bar at h
  cases hsep : sep a <;> simp_all

-- A whole text leaves the brackets around it alone, and is never outermost there.
theorem run_sheltered (hguard : Guarded turn) {b : B} (hb : Sheltered turn b) (sep : α → Bool)
    {text : List α} {above left : List B} (outer : List B) (h : run turn above text = some left) :
    run (bar sep turn) (above ++ b :: outer) text = some (left ++ b :: outer) := by
  induction text generalizing above with
  | nil =>
      obtain rfl : above = left := by simpa using h
      rfl
  | cons a rest ih =>
      rw [run_cons] at h ⊢
      obtain ⟨m, hm, hrest⟩ := Option.bind_eq_some_iff.mp h
      have hsame : bar sep turn (above ++ b :: outer).head? a = some m := by
        cases above with
        | nil => exact hb a m hm
        | cons x above => exact hm
      have happly : m.apply (above ++ b :: outer) = m.apply above ++ b :: outer := by
        cases m with
        | push x => rfl
        | stay => rfl
        | pop =>
            cases above with
            | nil => exact absurd hm (hguard a)
            | cons x above => rfl
      rw [hsame, Option.bind_some, happly]
      exact ih hrest

-- A whole text in a pair of brackets, after what opens them.
theorem Whole.bracketed (hguard : Guarded turn) {b : B} (hb : Sheltered turn b) {sep : α → Bool}
    {opening text : List α} {close : α} (hopen : run (bar sep turn) [] opening = some [b])
    (h : Whole turn text) (hclose : turn (some b) close = some .pop) :
    Whole (bar sep turn) (opening ++ text ++ [close]) := by
  have hinner : run (bar sep turn) [b] text = some [b] := run_sheltered hguard hb sep [] h
  unfold Whole
  rw [run_append, run_append, hopen, Option.bind_some, hinner, Option.bind_some, run_cons]
  simp [bar, hclose, Move.apply]

theorem run_bar_mono {sep sep' : α → Bool} (h : ∀ a, sep' a = true → sep a = true) {text : List α}
    {open_ left : List B} (hrun : run (bar sep turn) open_ text = some left) :
    run (bar sep' turn) open_ text = some left := by
  induction text generalizing open_ with
  | nil => exact hrun
  | cons a rest ih =>
      rw [run_cons] at hrun ⊢
      obtain ⟨m, hm, hrest⟩ := Option.bind_eq_some_iff.mp hrun
      have hsame : bar sep' turn open_.head? a = some m := by
        cases open_ with
        | nil =>
            obtain ⟨hsep, hturn⟩ := bar_none hm
            have hsep' : sep' a ≠ true := fun ha => by simp [h a ha] at hsep
            simpa [bar, hsep'] using hturn
        | cons b above => exact hm
      rw [hsame]
      exact ih hrest

theorem bar_false (turn : Turn α B) : bar (fun _ => false) turn = turn := by
  funext b a
  cases b <;> rfl

theorem Whole.mono {sep sep' : α → Bool} {text : List α} (h : Whole (bar sep turn) text)
    (hsep : ∀ a, sep' a = true → sep a = true) : Whole (bar sep' turn) text :=
  run_bar_mono hsep h

theorem Whole.of_bar {sep : α → Bool} {text : List α} (h : Whole (bar sep turn) text) :
    Whole turn text := by
  rw [← bar_false turn]
  exact h.mono (by simp)

-- The parts of a text between the separators of the outermost level.
def cut (turn : Turn α B) (sep : α → Bool) : List B → List α → List (List α)
  | _, [] => [[]]
  | open_, a :: rest =>
      if open_.isEmpty ∧ sep a then [] :: cut turn sep [] rest
      else
        (cut turn sep ((turn open_.head? a).elim open_ (Move.apply · open_)) rest).modifyHead (a :: ·)

variable {sep : α → Bool}

theorem cut_ne_nil (turn : Turn α B) (sep : α → Bool) (open_ : List B) (text : List α) : cut turn sep open_ text ≠ [] := by
  induction text generalizing open_ with
  | nil => simp [cut]
  | cons a rest ih =>
      rw [cut]
      split
      · simp
      · simp [ih]

-- What runs without a separator stays in one part.
theorem cut_run {open_ left : List B} {a : List α} (b : List α)
    (h : run (bar sep turn) open_ a = some left) :
    cut turn sep open_ (a ++ b) = (cut turn sep left b).modifyHead (a ++ ·) := by
  induction a generalizing open_ with
  | nil =>
      obtain rfl : open_ = left := by simpa using h
      rw [List.nil_append]
      cases cut turn sep open_ b <;> rfl
  | cons x rest ih =>
      rw [run_cons] at h
      obtain ⟨m, hm, hrest⟩ := Option.bind_eq_some_iff.mp h
      have hstay : ¬ (open_.isEmpty ∧ sep x) ∧ turn open_.head? x = some m := by
        cases open_ with
        | nil =>
            obtain ⟨hsep, hturn⟩ := bar_none hm
            simp [hsep, hturn]
        | cons y above => exact ⟨by simp, hm⟩
      rw [List.cons_append, cut, if_neg hstay.1, hstay.2]
      simp only [Option.elim_some]
      rw [ih hrest, List.modifyHead_modifyHead]
      rfl

theorem cut_whole {text : List α} (h : Whole (bar sep turn) text) :
    cut turn sep [] text = [text] := by
  have hcut := cut_run [] h
  simpa [cut] using hcut

theorem cut_append {a b : List α} {s : α} (h : Whole (bar sep turn) a) (hs : sep s = true) :
    cut turn sep [] (a ++ s :: b) = a :: cut turn sep [] b := by
  rw [cut_run _ h, cut]
  simp [hs]

-- Separators open and close nothing.
def Flat (turn : Turn α B) (sep : α → Bool) : Prop := ∀ a, sep a = true → turn none a = some .stay

-- Of two texts with a separator between, each falls into its own parts.
theorem cut_between (hflat : Flat turn sep) {a : List α} (b : List α) {s : α} (ha : Whole turn a)
    (hs : sep s = true) :
    cut turn sep [] (a ++ s :: b) = cut turn sep [] a ++ cut turn sep [] b := by
  suffices h : ∀ open_, run turn open_ a = some [] →
      cut turn sep open_ (a ++ s :: b) = cut turn sep open_ a ++ cut turn sep [] b from h [] ha
  clear ha
  induction a with
  | nil =>
      intro open_ h
      obtain rfl : open_ = [] := by simpa using h
      simp [cut, hs]
  | cons x rest ih =>
      intro open_ h
      rw [run_cons] at h
      obtain ⟨m, hm, hrest⟩ := Option.bind_eq_some_iff.mp h
      rw [List.cons_append, cut, cut]
      by_cases hx : open_.isEmpty ∧ sep x
      · obtain rfl : open_ = [] := List.isEmpty_iff.mp hx.1
        obtain rfl : Move.stay = m := Option.some.inj ((hflat x hx.2).symm.trans hm)
        rw [if_pos hx, if_pos hx, ih [] hrest, List.cons_append]
      · rw [if_neg hx, if_neg hx, hm, Option.elim_some, ih _ hrest]
        obtain ⟨first, more, hcut⟩ := List.exists_cons_of_ne_nil
          (cut_ne_nil turn sep (m.apply open_) rest)
        rw [hcut]
        rfl

theorem length_cut (turn : Turn α B) (sep : α → Bool) (open_ : List B) (text : List α) :
    (cut turn sep open_ text).flatten.length + (cut turn sep open_ text).length
      = text.length + 1 := by
  induction text generalizing open_ with
  | nil => rfl
  | cons a rest ih =>
      rw [cut]
      split
      · have hrest := ih []
        simp only [List.flatten_cons, List.nil_append, List.length_cons]
        omega
      · have hrest := ih ((turn open_.head? a).elim open_ (Move.apply · open_))
        obtain ⟨first, more, hcut⟩ := List.exists_cons_of_ne_nil
          (cut_ne_nil turn sep
            ((turn open_.head? a).elim open_ (Move.apply · open_)) rest)
        rw [hcut] at hrest ⊢
        simp only [List.modifyHead_cons, List.flatten_cons, List.length_append,
          List.length_cons] at hrest ⊢
        omega

-- A text that falls into several parts is longer than each of them.
theorem cut_shorter {open_ : List B} {text part : List α}
    (h : 1 < (cut turn sep open_ text).length) (hpart : part ∈ cut turn sep open_ text) :
    part.length < text.length := by
  have hsum := length_cut turn sep open_ text
  have hle : part.length ≤ (cut turn sep open_ text).flatten.length :=
    (List.sublist_flatten_of_mem hpart).length_le
  omega

-- A text without a separator to fall apart at is its only part.
theorem cut_single {open_ : List B} {text : List α} (h : (cut turn sep open_ text).length ≤ 1) :
    cut turn sep open_ text = [text] := by
  induction text generalizing open_ with
  | nil => rfl
  | cons a rest ih =>
      rw [cut] at h ⊢
      split at h
      · have hne := cut_ne_nil turn sep [] rest
        have hpos := List.length_pos_iff.mpr hne
        rw [List.length_cons] at h
        omega
      · next hstay =>
          rw [if_neg hstay, ih (by simpa using h)]
          rfl

-- Texts with a letter between each two.
def joined (s : α) : List (List α) → List α
  | [] => []
  | [item] => item
  | item :: rest => item ++ s :: joined s rest

theorem Whole.joined {s : α} (hs : turn none s = some .stay) {items : List (List α)}
    (h : ∀ item ∈ items, Whole turn item) : Whole turn (joined s items) := by
  induction items with
  | nil => exact .nil
  | cons item rest ih =>
      have hitem := h item (by simp)
      cases rest with
      | nil => exact hitem
      | cons next rest =>
          exact hitem.append (.cons hs (ih fun later hlater => h later (List.mem_cons_of_mem _ hlater)))

theorem cut_joined (hflat : Flat turn sep) {s : α} (hs : sep s = true) {items : List (List α)}
    (hne : items ≠ []) (h : ∀ item ∈ items, Whole turn item) :
    cut turn sep [] (Nesting.joined s items) = items.flatMap (cut turn sep []) := by
  induction items with
  | nil => exact absurd rfl hne
  | cons item rest ih =>
      cases rest with
      | nil => simp [Nesting.joined]
      | cons next rest =>
          have hrest := ih (by simp) fun later hlater => h later (List.mem_cons_of_mem _ hlater)
          have hcut := cut_between hflat (Nesting.joined s (next :: rest)) (h item (by simp)) hs
          rw [hrest] at hcut
          exact hcut

end Nesting

end Ruprizzle
