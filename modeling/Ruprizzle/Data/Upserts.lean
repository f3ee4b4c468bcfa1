import Mathlib.Data.List.Forall2
import Ruprizzle.Data.Fallible

namespace Ruprizzle.Upserts

-- Rows that are written by their keys: the row that has the key takes what is listed
-- for it, and where there is none a row is added.

variable {C V : Type} {keys : List C} {w w' : C → Option V} {ws done rest : List (C → Option V)}
  {row row' : C → V} {rows rows' next : List (C → V)} {c : C} {v : V}

-- The listing gives a value to some of the columns, and its key is that of the row.
def Keyed (keys : List C) (w : C → Option V) (row : C → V) : Prop := ∀ c ∈ keys, w c = some (row c)

def put [DecidableEq C] (keys : List C) (w : C → Option V) (row : C → V) : C → V := fun c =>
  if c ∈ keys then row c else (w c).getD (row c)

inductive Writes [DecidableEq C] (keys : List C) (w : C → Option V) :
    List (C → V) → List (C → V) → Prop
  | updates {before after : List (C → V)} {row : C → V} : Keyed keys w row →
      (∀ other ∈ before ++ after, ¬ Keyed keys w other) →
      Writes keys w (before ++ row :: after) (before ++ put keys w row :: after)
  | inserts {rows : List (C → V)} {new : C → V} : (∀ row ∈ rows, ¬ Keyed keys w row) →
      Keyed keys w new → (∀ c v, w c = some v → new c = v) → Writes keys w rows (rows ++ [new])

inductive Written [DecidableEq C] (keys : List C) :
    List (C → Option V) → List (C → V) → List (C → V) → Prop
  | nil {rows : List (C → V)} : Written keys [] rows rows
  | cons {w : C → Option V} {ws : List (C → Option V)} {rows mid rows' : List (C → V)} :
      Writes keys w rows mid → Written keys ws mid rows' → Written keys (w :: ws) rows rows'

-- Of the listings with the key of the row, the last that gives a value to the column
-- gives this one.
def LastFor (keys : List C) (ws : List (C → Option V)) (row : C → V) (c : C) (v : V) : Prop :=
  ∃ before w after, ws = before ++ w :: after ∧ Keyed keys w row ∧ w c = some v ∧
    ∀ later ∈ after, Keyed keys later row → later c = none

-- Every listed key has its row, and the row stores what was listed for it last.
structure Stored (keys : List C) (ws : List (C → Option V)) (rows : List (C → V)) : Prop where
  found : ∀ w ∈ ws, ∃ row ∈ rows, Keyed keys w row
  last : ∀ row ∈ rows, ∀ c v, LastFor keys ws row c v → row c = v

open Classical in
-- The rows whose key is not listed.
noncomputable def unlisted (keys : List C) (ws : List (C → Option V)) (rows : List (C → V)) :
    List (C → V) :=
  rows.filter fun row => ∀ w ∈ ws, ¬ Keyed keys w row

theorem keyed_congr (h : ∀ c ∈ keys, row' c = row c) : Keyed keys w row' ↔ Keyed keys w row :=
  forall₂_congr fun c hc => by rw [h c hc]

-- Two rows with the key of one listing have the same key.
theorem Keyed.agree (h : Keyed keys w row) (h' : Keyed keys w row') : ∀ c ∈ keys, row' c = row c :=
  fun c hc => (Option.some.inj ((h c hc).symm.trans (h' c hc))).symm

theorem LastFor.congr (h : ∀ c ∈ keys, row' c = row c) :
    LastFor keys ws row' c v ↔ LastFor keys ws row c v := by
  unfold LastFor
  simp only [keyed_congr h]

theorem not_lastFor_nil : ¬ LastFor keys [] row c v := by
  intro ⟨before, w, after, heq, _⟩
  simp at heq

theorem lastFor_concat : LastFor keys (ws ++ [w]) row c v ↔
    (Keyed keys w row ∧ w c = some v) ∨
      ((Keyed keys w row → w c = none) ∧ LastFor keys ws row c v) := by
  constructor
  · intro ⟨before, w', after, heq, hkey, hv, hlater⟩
    rcases List.eq_nil_or_concat after with rfl | ⟨after, last, rfl⟩
    · obtain ⟨-, heq⟩ := List.append_inj' heq rfl
      obtain rfl := List.singleton_inj.mp heq
      exact Or.inl ⟨hkey, hv⟩
    · rw [List.concat_eq_append, ← List.cons_append, ← List.append_assoc] at heq
      obtain ⟨rfl, hlast⟩ := List.append_inj' heq rfl
      obtain rfl := List.singleton_inj.mp hlast
      rw [List.concat_eq_append] at hlater
      have hnone := hlater w (List.mem_append_right _ (List.mem_singleton.mpr rfl))
      exact Or.inr ⟨hnone, before, w', after, rfl, hkey, hv,
        fun later hl => hlater later (List.mem_append_left _ hl)⟩
  · intro h
    rcases h with ⟨hkey, hv⟩ | ⟨hnone, before, w', after, rfl, hkey, hv, hlater⟩
    · exact ⟨ws, w, [], rfl, hkey, hv, fun _ h => absurd h List.not_mem_nil⟩
    · refine ⟨before, w', after ++ [w], by rw [List.append_assoc, List.cons_append], hkey, hv, ?_⟩
      intro later hl
      rcases List.mem_append.mp hl with hl | hl
      · exact hlater later hl
      · exact List.mem_singleton.mp hl ▸ hnone

-- What is listed for a column of the key is what the row has there.
theorem LastFor.key (h : LastFor keys ws row c v) (hc : c ∈ keys) : v = row c := by
  obtain ⟨_, _, _, _, hkey, hv, _⟩ := h
  exact Option.some.inj (hv.symm.trans (hkey c hc))

theorem Stored.nil : Stored keys [] rows where
  found _ hw := absurd hw List.not_mem_nil
  last _ _ _ _ h := absurd h not_lastFor_nil

-- What a row has become after some of the listings, all others having left it alone.
structure Became (keys : List C) (done : List (C → Option V)) (old new : C → V) : Prop where
  last : ∀ c v, LastFor keys done old c v → new c = v
  other : ∀ c, (∀ v, ¬ LastFor keys done old c v) → new c = old c

theorem Became.key (h : Became keys done row row') : ∀ c ∈ keys, row' c = row c := by
  intro c hc
  by_cases hlast : ∃ v, LastFor keys done row c v
  · obtain ⟨v, hlast⟩ := hlast
    rw [h.last c v hlast, hlast.key hc]
  · exact h.other c fun v hv => hlast ⟨v, hv⟩

theorem Became.step_other (h : Became keys done row row') (hkey : ¬ Keyed keys w row) :
    Became keys (done ++ [w]) row row' where
  last c v hlast := by
    rcases lastFor_concat.mp hlast with ⟨hkeyed, _⟩ | ⟨_, hlast⟩
    · exact absurd hkeyed hkey
    · exact h.last c v hlast
  other c hnone := h.other c fun v hlast =>
    hnone v (lastFor_concat.mpr (Or.inr ⟨fun hkeyed => absurd hkeyed hkey, hlast⟩))

theorem became_others (h : List.Forall₂ (Became keys done) rows rows')
    (hothers : ∀ new ∈ rows', ¬ Keyed keys w new) :
    List.Forall₂ (Became keys (done ++ [w])) rows rows' := by
  induction h with
  | nil => exact .nil
  | @cons old new _ _ hbecame _ ih =>
      have hnew : ¬ Keyed keys w old := fun hkey =>
        hothers new List.mem_cons_self ((keyed_congr hbecame.key).mpr hkey)
      refine .cons (hbecame.step_other hnew) (ih fun other hother => ?_)
      exact hothers other (List.mem_cons_of_mem _ hother)

variable [DecidableEq C]

theorem put_key (hc : c ∈ keys) : put keys w row c = row c := if_pos hc

theorem keyed_put : Keyed keys w' (put keys w row) ↔ Keyed keys w' row :=
  keyed_congr fun _ hc => put_key hc

theorem put_listed (hkey : Keyed keys w row) (hv : w c = some v) : put keys w row c = v := by
  by_cases hc : c ∈ keys
  · rw [put_key hc]
    exact Option.some.inj ((hkey c hc).symm.trans hv)
  · rw [put, if_neg hc, hv, Option.getD_some]

theorem put_unlisted (hnone : w c = none) : put keys w row c = row c := by
  unfold put
  rw [hnone, Option.getD_none, ite_self]

theorem Stored.step (h : Stored keys done rows) (hw : Writes keys w rows rows') :
    Stored keys (done ++ [w]) rows' := by
  cases hw with
  | @updates before after row hkey hothers =>
      constructor
      · intro w' hw'
        rcases List.mem_append.mp hw' with hw' | hw'
        · obtain ⟨old, hold, hkeyed⟩ := h.found w' hw'
          rcases List.mem_append.mp hold with hold | hold
          · exact ⟨old, List.mem_append_left _ hold, hkeyed⟩
          · rcases List.mem_cons.mp hold with rfl | hold
            · exact ⟨put keys w old, by simp, keyed_put.mpr hkeyed⟩
            · exact ⟨old, by simp [hold], hkeyed⟩
        · exact ⟨put keys w row, by simp, keyed_put.mpr (List.mem_singleton.mp hw' ▸ hkey)⟩
      · intro new hnew c v hlast
        have hcases : new = put keys w row ∨ new ∈ before ++ after := by
          simp only [List.mem_append, List.mem_cons] at hnew ⊢
          tauto
        rcases hcases with rfl | hnew
        · rw [LastFor.congr fun _ hc => put_key hc, lastFor_concat] at hlast
          rcases hlast with ⟨_, hv⟩ | ⟨hnone, hlast⟩
          · exact put_listed hkey hv
          · rw [put_unlisted (hnone hkey)]
            exact h.last row (by simp) c v hlast
        · rw [lastFor_concat] at hlast
          rcases hlast with ⟨hkeyed, _⟩ | ⟨_, hlast⟩
          · exact absurd hkeyed (hothers new hnew)
          · refine h.last new ?_ c v hlast
            rcases List.mem_append.mp hnew with hnew | hnew
            · exact List.mem_append_left _ hnew
            · exact List.mem_append_right _ (List.mem_cons_of_mem row hnew)
  | @inserts _ new hnone hkey hlisted =>
      constructor
      · intro w' hw'
        rcases List.mem_append.mp hw' with hw' | hw'
        · obtain ⟨old, hold, hkeyed⟩ := h.found w' hw'
          exact ⟨old, List.mem_append_left _ hold, hkeyed⟩
        · exact ⟨new, by simp, List.mem_singleton.mp hw' ▸ hkey⟩
      · intro row hrow c v hlast
        rw [lastFor_concat] at hlast
        rcases List.mem_append.mp hrow with hrow | hrow
        · rcases hlast with ⟨hkeyed, _⟩ | ⟨_, hlast⟩
          · exact absurd hkeyed (hnone row hrow)
          · exact h.last row hrow c v hlast
        · obtain rfl := List.mem_singleton.mp hrow
          rcases hlast with ⟨_, hv⟩ | ⟨_, ⟨_, w', _, rfl, hkeyed, _⟩⟩
          · exact hlisted c v hv
          -- A row with this key has been there since it was listed before.
          · obtain ⟨old, hold, hkeyedOld⟩ := h.found w' (by simp)
            exact absurd ((keyed_congr (hkeyed.agree hkeyedOld)).mpr hkey) (hnone old hold)

theorem Written.stored (hrun : Written keys ws rows rows') (h : Stored keys done rows) :
    Stored keys (done ++ ws) rows' := by
  induction hrun generalizing done with
  | nil => rwa [List.append_nil]
  | @cons w ws rows mid rows' hw _ ih =>
      rw [List.append_cons]
      exact ih (h.step hw)

-- Rows whose key is not listed stay as they are.
theorem Writes.unlisted_eq (hw : Writes keys w rows rows') (hmem : w ∈ ws) :
    unlisted keys ws rows' = unlisted keys ws rows := by
  have hout : ∀ row, Keyed keys w row → ¬ ∀ w ∈ ws, ¬ Keyed keys w row :=
    fun _ hkey h => h w hmem hkey
  unfold unlisted
  cases hw with
  | @updates before after row hkey _ =>
      rw [List.filter_append, List.filter_append, List.filter_cons_of_neg, List.filter_cons_of_neg]
      · simpa using hout row hkey
      · simpa using hout _ (keyed_put.mpr hkey)
  | @inserts _ new _ hkey _ =>
      rw [List.filter_append, List.filter_cons_of_neg, List.filter_nil, List.append_nil]
      simpa using hout new hkey

theorem Written.unlisted_eq (hrun : Written keys rest rows rows') (hmem : ∀ w ∈ rest, w ∈ ws) :
    unlisted keys ws rows' = unlisted keys ws rows := by
  induction hrun with
  | nil => rfl
  | cons hw _ ih =>
      exact (ih fun w hw => hmem w (List.mem_cons_of_mem _ hw)).trans
        (hw.unlisted_eq (hmem _ List.mem_cons_self))

theorem Became.step_put (h : Became keys done row row') (hkey : Keyed keys w row) :
    Became keys (done ++ [w]) row (put keys w row') where
  last c v hlast := by
    rcases lastFor_concat.mp hlast with ⟨_, hv⟩ | ⟨hnone, hlast⟩
    · exact put_listed ((keyed_congr h.key).mpr hkey) hv
    · rw [put_unlisted (hnone hkey)]
      exact h.last c v hlast
  other c hnone := by
    have hw : w c = none := by
      rw [Option.eq_none_iff_forall_ne_some]
      intro v hv
      exact hnone v (lastFor_concat.mpr (Or.inl ⟨hkey, hv⟩))
    rw [put_unlisted hw]
    exact h.other c fun v hlast => hnone v (lastFor_concat.mpr (Or.inr ⟨fun _ => hw, hlast⟩))

theorem Writes.became (hw : Writes keys w rows' next) (hfound : ∃ row ∈ rows, Keyed keys w row)
    (h : List.Forall₂ (Became keys done) rows rows') :
    List.Forall₂ (Became keys (done ++ [w])) rows next := by
  cases hw with
  | @updates before after new hkey hothers =>
      have hbefore := List.forall₂_take_append _ _ _ h
      have hafter := List.forall₂_drop_append _ _ _ h
      rw [← List.take_append_drop before.length rows]
      obtain ⟨old, olds, hbecame, holds, heq⟩ := List.forall₂_cons_right_iff.mp hafter
      rw [heq]
      refine List.rel_append (became_others hbefore fun other hother => ?_) (.cons ?_ ?_)
      · exact hothers other (List.mem_append_left _ hother)
      · exact hbecame.step_put ((keyed_congr hbecame.key).mp hkey)
      · exact became_others holds fun other hother => hothers other (List.mem_append_right _ hother)
  | @inserts _ new hnone _ _ =>
      obtain ⟨row, hrow, hkey⟩ := hfound
      obtain ⟨other, hother, hbecame⟩ := Fallible.exists_given h hrow
      exact absurd ((keyed_congr hbecame.key).mpr hkey) (hnone other hother)

theorem Written.became (hrun : Written keys ws rows' next)
    (hfound : ∀ w ∈ ws, ∃ row ∈ rows, Keyed keys w row)
    (h : List.Forall₂ (Became keys done) rows rows') :
    List.Forall₂ (Became keys (done ++ ws)) rows next := by
  induction hrun generalizing done with
  | nil => rwa [List.append_nil]
  | @cons w ws _ _ _ hw _ ih =>
      rw [List.append_cons]
      refine ih (fun w hw => hfound w (List.mem_cons_of_mem _ hw)) ?_
      exact hw.became (hfound w List.mem_cons_self) h

-- Rows that store what is listed are not changed by writing it again.
theorem Written.again (hrun : Written keys ws rows next) (h : Stored keys ws rows) :
    next = rows := by
  have hstart : List.Forall₂ (Became keys []) rows rows :=
    List.forall₂_same.mpr fun _ _ => ⟨fun _ _ hlast => absurd hlast not_lastFor_nil, fun _ _ => rfl⟩
  have hbecame : List.Forall₂ (Became keys ws) rows next := hrun.became h.found hstart
  have hsame : ∀ old ∈ rows, ∀ new, Became keys ws old new → new = old := by
    intro old hold new hnew
    funext c
    by_cases hlast : ∃ v, LastFor keys ws old c v
    · obtain ⟨v, hlast⟩ := hlast
      rw [hnew.last c v hlast, h.last old hold c v hlast]
    · exact hnew.other c fun v hv => hlast ⟨v, hv⟩
  clear hstart hrun h
  induction hbecame with
  | nil => rfl
  | @cons old new _ _ hnew _ ih =>
      rw [hsame old List.mem_cons_self new hnew,
        ih fun other hother => hsame other (List.mem_cons_of_mem _ hother)]

end Ruprizzle.Upserts
