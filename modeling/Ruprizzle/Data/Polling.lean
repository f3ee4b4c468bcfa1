import Mathlib.Data.List.Basic

namespace Ruprizzle

-- Futures and streams, by what one poll of them gives.

inductive Poll (α : Type)
  | pending
  | ready (value : α)

-- A future that is pending for some polls and then has its output.
structure Future (α : Type) where
  waits : Nat
  output : α

namespace Future

variable {α β : Type}

def now (output : α) : Future α := ⟨0, output⟩

-- What a poll leaves of a future, and what it gives. Nothing is left of one whose
-- output is taken.
def poll (f : Future α) : Option (Future α) × Poll α :=
  match f.waits with
  | 0 => (none, .ready f.output)
  | n + 1 => (some ⟨n, f.output⟩, .pending)

-- One await after another.
def andThen (f : Future α) (next : α → Future β) : Future β :=
  ⟨f.waits + (next f.output).waits, (next f.output).output⟩

end Future

-- A stream, as a state that a poll changes. There is no next state where the poll
-- panics.
abbrev PollNext (σ α : Type) := σ → Option (σ × Poll (Option α))

namespace Polling

variable {σ α : Type}

-- A stream that is polled until it ends, the items it gave and the state it is left in.
inductive Ends (pollNext : PollNext σ α) : σ → List α → σ → Prop
  | stop {s t : σ} : pollNext s = some (t, .ready none) → Ends pollNext s [] t
  | wait {s t u : σ} {items : List α} : pollNext s = some (t, .pending) →
      Ends pollNext t items u → Ends pollNext s items u
  | item {s t u : σ} {x : α} {items : List α} : pollNext s = some (t, .ready (some x)) →
      Ends pollNext t items u → Ends pollNext s (x :: items) u

variable {pollNext : PollNext σ α} {s t u : σ} {items : List α}

theorem ends_stop (h : pollNext s = some (t, .ready none)) :
    Ends pollNext s items u ↔ items = [] ∧ u = t := by
  constructor
  · intro hends
    cases hends with
    | stop hs => simp_all
    | wait hs _ => simp_all
    | item hs _ => simp_all
  · rintro ⟨rfl, rfl⟩
    exact .stop h

theorem ends_wait (h : pollNext s = some (t, .pending)) :
    Ends pollNext s items u ↔ Ends pollNext t items u := by
  constructor
  · intro hends
    cases hends with
    | stop hs => simp_all
    | wait hs hrest =>
        rw [h] at hs
        obtain rfl : t = _ := by simpa using hs
        exact hrest
    | item hs _ => simp_all
  · exact .wait h

theorem ends_item {x : α} (h : pollNext s = some (t, .ready (some x))) :
    Ends pollNext s items u ↔ ∃ rest, items = x :: rest ∧ Ends pollNext t rest u := by
  constructor
  · intro hends
    cases hends with
    | stop hs => simp_all
    | wait hs _ => simp_all
    | item hs hrest =>
        rw [h] at hs
        obtain ⟨rfl, rfl⟩ : t = _ ∧ x = _ := by simpa using hs
        exact ⟨_, rfl, hrest⟩
  · rintro ⟨rest, rfl, hrest⟩
    exact .item h hrest

end Polling

-- The stream of a closure from a seed: each item is made by a future of its own, which
-- says how the stream goes on. What is outside changes when the future is made.
inductive Unfold (S α : Type)
  | value (seed : S)
  | future (item : Future (Option (α × S)))
  | empty

namespace Unfold

variable {S W α : Type} (f : S → W → W × Future (Option (α × S)))

def pollFuture (item : Future (Option (α × S))) (w : W) : (Unfold S α × W) × Poll (Option α) :=
  match item.poll with
  | (some rest, _) => ((.future rest, w), .pending)
  | (none, .ready (some (x, seed))) => ((.value seed, w), .ready (some x))
  | (none, _) => ((.empty, w), .ready none)

def pollNext : PollNext (Unfold S α × W) α
  | (.value seed, w) => some (pollFuture (f seed w).2 (f seed w).1)
  | (.future item, w) => some (pollFuture item w)
  -- Not to be polled after it ended.
  | (.empty, _) => none

open Polling

variable {w : W} {items : List α} {u : Unfold S α × W}

-- How the stream goes on after a future's output.
def After (output : Option (α × S)) (w : W) (items : List α) (u : Unfold S α × W) : Prop :=
  match output with
  | none => items = [] ∧ u = (.empty, w)
  | some (x, seed) => ∃ rest, items = x :: rest ∧ Ends (pollNext f) (.value seed, w) rest u

theorem ends_polled {s : Unfold S α × W} {item : Future (Option (α × S))}
    (h : pollNext f s = some (pollFuture item w)) :
    Ends (pollNext f) s items u ↔ After f item.output w items u := by
  obtain ⟨waits, output⟩ := item
  induction waits generalizing s with
  | zero =>
      cases output with
      | none => exact ends_stop h
      | some next => exact ends_item h
  | succ n ih => exact (ends_wait h).trans (ih rfl)

theorem ends_value {seed : S} : Ends (pollNext f) (.value seed, w) items u ↔
    After f (f seed w).2.output (f seed w).1 items u := ends_polled f rfl

end Unfold

end Ruprizzle
