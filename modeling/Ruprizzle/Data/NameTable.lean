import Mathlib.Data.List.Nodup
import Ruprizzle.Data.Run

namespace Ruprizzle

-- What a collection of named things holds under each name, and the operations
-- that change the names. An operation fails on a name that is missing or taken.
abbrev NameTable (κ : Type) := String → Option κ

inductive NameOp (κ : Type)
  | add (name : String) (content : κ)
  | drop (name : String)
  | rename (name newName : String)
  | touch (name : String)
  deriving DecidableEq, Repr

namespace NameTable

variable {κ : Type} {t u : NameTable κ}

def has (t : NameTable κ) (name : String) : Prop := (t name).isSome = true

instance (t : NameTable κ) (name : String) : Decidable (t.has name) :=
  inferInstanceAs (Decidable (_ = _))

theorem not_has {n : String} : ¬ t.has n ↔ t n = none := by
  simp [has]

theorem has_iff {n : String} : t.has n ↔ ∃ k, t n = some k :=
  Option.isSome_iff_exists

def put (t : NameTable κ) (name : String) (content : κ) : NameTable κ :=
  fun n => if n = name then some content else t n

def move (t : NameTable κ) (name newName : String) : NameTable κ :=
  fun n => if n = newName then t name else if n = name then none else t n

def without (t : NameTable κ) (names : List String) : NameTable κ :=
  fun n => if n ∈ names then none else t n

@[simp] theorem without_nil : t.without [] = t := by
  funext n
  simp [without]

def apply (t : NameTable κ) : NameOp κ → Option (NameTable κ)
  | .add n k => if t.has n then none else some (t.put n k)
  | .drop n => if t.has n then some (t.without [n]) else none
  | .rename a b => if t.has a ∧ ¬ t.has b then some (t.move a b) else none
  | .touch n => if t.has n then some t else none

def run (t : NameTable κ) (ops : List (NameOp κ)) : Option (NameTable κ) := ops.foldlM apply t

@[simp] theorem run_nil : t.run [] = some t := rfl

theorem run_cons (op : NameOp κ) (ops : List (NameOp κ)) :
    t.run (op :: ops) = (t.apply op).bind (fun s => s.run ops) := rfl

theorem run_append (ops ops' : List (NameOp κ)) :
    t.run (ops ++ ops') = (t.run ops).bind (fun s => s.run ops') :=
  Run.foldlM_append t ops ops'

theorem run_append_eq_some {ops ops' : List (NameOp κ)} :
    t.run (ops ++ ops') = some u ↔ ∃ s, t.run ops = some s ∧ s.run ops' = some u := by
  rw [run_append]
  exact Option.bind_eq_some_iff

theorem run_touches {names : List String} :
    t.run (names.map .touch) = some u ↔ (∀ n ∈ names, t.has n) ∧ u = t := by
  induction names with
  | nil => simp [eq_comm]
  | cons n rest ih =>
      rw [List.map_cons, run_cons, List.forall_mem_cons]
      by_cases h : t.has n
      · simp only [apply, h, ite_true, Option.bind_some, ih, true_and]
      · simp [apply, h]

theorem run_drops {names : List String} (hnodup : names.Nodup) :
    t.run (names.map .drop) = some u ↔ (∀ n ∈ names, t.has n) ∧ u = t.without names := by
  induction names generalizing t with
  | nil => simp [eq_comm]
  | cons n rest ih =>
      obtain ⟨hn, hrest⟩ := List.nodup_cons.mp hnodup
      rw [List.map_cons, run_cons, List.forall_mem_cons]
      by_cases h : t.has n
      · have hhas : (∀ k ∈ rest, (t.without [n]).has k) ↔ ∀ k ∈ rest, t.has k := by
          refine forall₂_congr fun k hk => ?_
          have hne : k ≠ n := fun heq => hn (heq ▸ hk)
          simp [has, without, hne]
        have hwithout : (t.without [n]).without rest = t.without (n :: rest) := by
          funext k
          simp only [without, List.mem_cons]
          by_cases hk : k = n <;> simp [hk]
        simp only [apply, h, ite_true, Option.bind_some, ih hrest, hhas, hwithout, true_and]
      · simp [apply, h]

-- What is found after a list of renames, each from a name of its own to a name
-- of its own.
def renamed (t : NameTable κ) (renames : List (String × String)) : NameTable κ := fun n =>
  match renames.find? (fun r => r.2 = n) with
  | some r => t r.1
  | none => if n ∈ renames.map Prod.fst then none else t n

@[simp] theorem renamed_nil : t.renamed [] = t := by
  funext n
  simp [renamed]

theorem renamed_of_mem {renames : List (String × String)} (hto : (renames.map Prod.snd).Nodup)
    {r : String × String} (hr : r ∈ renames) : t.renamed renames r.2 = t r.1 := by
  unfold renamed
  cases hf : renames.find? (fun q => q.2 = r.2) with
  | none =>
      have := List.find?_eq_none.mp hf r hr
      simp at this
  | some q =>
      have hq : q.2 = r.2 := by simpa using List.find?_some hf
      have := List.inj_on_of_nodup_map hto (List.mem_of_find?_eq_some hf) hr hq
      rw [this]

theorem renamed_of_notMem {renames : List (String × String)} {n : String}
    (h : n ∉ renames.map Prod.snd) :
    t.renamed renames n = if n ∈ renames.map Prod.fst then none else t n := by
  unfold renamed
  have hnone : renames.find? (fun r => r.2 = n) = none := by
    refine List.find?_eq_none.mpr fun r hr => ?_
    simp only [decide_eq_true_eq]
    rintro rfl
    exact h (List.mem_map_of_mem hr)
  rw [hnone]

-- Renames succeed when no target is still in use: not by a name that stays,
-- nor by one that is renamed later.
theorem run_renames {renames : List (String × String)} (hfrom : (renames.map Prod.fst).Nodup)
    (hto : (renames.map Prod.snd).Nodup) (hne : ∀ r ∈ renames, r.1 ≠ r.2)
    (hall : ∀ r ∈ renames, t.has r.1) :
    t.run (renames.map fun r => .rename r.1 r.2) = some u ↔
      (renames.Pairwise (fun e l => e.2 ≠ l.1) ∧
        ∀ r ∈ renames, r.2 ∉ renames.map Prod.fst → ¬ t.has r.2) ∧ u = t.renamed renames := by
  induction renames generalizing t with
  | nil => simp [eq_comm]
  | cons r rest ih =>
      obtain ⟨a, b⟩ := r
      have hto' := hto
      rw [List.map_cons] at hfrom hto
      obtain ⟨ha, hfrom⟩ := List.nodup_cons.mp hfrom
      obtain ⟨hb, hto⟩ := List.nodup_cons.mp hto
      rw [List.forall_mem_cons] at hne hall
      have hab : a ≠ b := hne.1
      have hta : t.has a := hall.1
      have hfst : ∀ r ∈ rest, r.1 ≠ a := fun r hr heq => ha (List.mem_map.mpr ⟨r, hr, heq⟩)
      have hsnd : ∀ r ∈ rest, r.2 ≠ b := fun r hr heq => hb (List.mem_map.mpr ⟨r, hr, heq⟩)
      have hmove : ∀ n, n ≠ a → (t.move a b n = if n = b then t a else t n) := by
        intro n hn
        simp [move, hn]
      have hall' : ∀ r ∈ rest, (t.move a b).has r.1 := by
        intro r hr
        unfold has
        rw [hmove r.1 (hfst r hr)]
        split
        · exact hta
        · exact hall.2 r hr
      rw [List.map_cons, run_cons]
      by_cases htb : t.has b
      · simp only [apply, htb, not_true_eq_false, and_false, ite_false, Option.bind_none]
        constructor
        · intro h
          cases h
        · rintro ⟨⟨hpair, hfree⟩, _⟩
          rw [List.forall_mem_cons] at hfree
          refine absurd htb (hfree.1 ?_)
          rw [List.map_cons, List.mem_cons, not_or]
          refine ⟨Ne.symm hab, fun hmem => ?_⟩
          obtain ⟨l, hl, hlb⟩ := List.mem_map.mp hmem
          exact (List.pairwise_cons.mp hpair).1 l hl hlb.symm
      · simp only [apply, hta, htb, not_false_eq_true, and_self, ite_true, Option.bind_some]
        rw [ih hfrom hto hne.2 hall']
        have hlater : ∀ l ∈ rest, b ≠ l.1 := by
          rintro l hl rfl
          exact htb (hall.2 l hl)
        have hb' : b ∉ rest.map Prod.fst := by
          intro hmem
          obtain ⟨l, hl, hlb⟩ := List.mem_map.mp hmem
          exact hlater l hl hlb.symm
        have hsame : (t.move a b).renamed rest = t.renamed ((a, b) :: rest) := by
          funext n
          by_cases hn : n ∈ rest.map Prod.snd
          · obtain ⟨r, hr, rfl⟩ := List.mem_map.mp hn
            rw [renamed_of_mem hto hr, renamed_of_mem hto' (List.mem_cons_of_mem _ hr), hmove r.1 (hfst r hr), if_neg]
            intro heq
            exact hlater r hr heq.symm
          · rw [renamed_of_notMem hn]
            by_cases hnb : n = b
            · subst hnb
              rw [renamed_of_mem hto' (List.mem_cons_self : (a, n) ∈ (a, n) :: rest), if_neg hb']
              simp [move]
            · rw [renamed_of_notMem (by
                rw [List.map_cons, List.mem_cons, not_or]
                exact ⟨hnb, hn⟩)]
              by_cases hna : n = a
              · subst hna
                simp [move, hnb]
              · have hmem : n ∈ ((a, b) :: rest).map Prod.fst ↔ n ∈ rest.map Prod.fst := by
                  rw [List.map_cons, List.mem_cons]
                  exact or_iff_right hna
                simp only [hmove n hna, hnb, ite_false, hmem]
        rw [hsame]
        refine and_congr_left fun _ => ?_
        rw [List.pairwise_cons, List.forall_mem_cons]
        constructor
        · rintro ⟨hpair, hfree⟩
          refine ⟨⟨hlater, hpair⟩, fun _ => htb, fun r hr hmem => ?_⟩
          rw [List.map_cons, List.mem_cons, not_or] at hmem
          have := hfree r hr hmem.2
          unfold has at this ⊢
          rwa [hmove r.2 hmem.1, if_neg (hsnd r hr)] at this
        · rintro ⟨⟨_, hpair⟩, _, hfree⟩
          refine ⟨hpair, fun r hr hmem => ?_⟩
          by_cases hra : r.2 = a
          · rw [not_has, hra]
            simp [move, hab]
          · have := hfree r hr (by
              rw [List.map_cons, List.mem_cons, not_or]
              exact ⟨hra, hmem⟩)
            unfold has at this ⊢
            rwa [hmove r.2 hra, if_neg (hsnd r hr)]

-- A content under one name only stays so.
def Owned (t : NameTable κ) (k : κ) : Prop := ∀ a b, t a = some k → t b = some k → a = b

theorem Owned.apply {k : κ} (h : t.Owned k) {op : NameOp κ} (hop : ∀ n, op ≠ .add n k)
    (hs : t.apply op = some u) : u.Owned k := by
  cases op with
  | add n c =>
      simp only [NameTable.apply] at hs
      split at hs
      · cases hs
      · cases hs
        have hc : c ≠ k := fun heq => hop n (heq ▸ rfl)
        intro x y hx hy
        simp only [put] at hx hy
        split at hx
        · exact absurd (Option.some.inj hx) hc
        · split at hy
          · exact absurd (Option.some.inj hy) hc
          · exact h x y hx hy
  | drop n =>
      simp only [NameTable.apply] at hs
      split at hs
      · cases hs
        intro x y hx hy
        simp only [without] at hx hy
        split at hx
        · cases hx
        · split at hy
          · cases hy
          · exact h x y hx hy
      · cases hs
  | rename a b =>
      simp only [NameTable.apply] at hs
      split at hs
      · cases hs
        intro x y hx hy
        simp only [move] at hx hy
        by_cases hxb : x = b
        · by_cases hyb : y = b
          · rw [hxb, hyb]
          · rw [if_pos hxb] at hx
            rw [if_neg hyb] at hy
            split at hy
            · cases hy
            · rename_i hya
              exact absurd (h y a hy hx) hya
        · rw [if_neg hxb] at hx
          split at hx
          · cases hx
          · rename_i hxa
            by_cases hyb : y = b
            · rw [if_pos hyb] at hy
              exact absurd (h x a hx hy) hxa
            · rw [if_neg hyb] at hy
              split at hy
              · cases hy
              · exact h x y hx hy
      · cases hs
  | touch n =>
      simp only [NameTable.apply] at hs
      split at hs
      · cases hs
        exact h
      · cases hs

theorem Owned.run {k : κ} (h : t.Owned k) {ops : List (NameOp κ)}
    (hops : ∀ n, NameOp.add n k ∉ ops) (hs : t.run ops = some u) : u.Owned k := by
  refine Run.foldlM_invariant (P := fun s => s.Owned k) h hs fun op hop s s' hown hstep => ?_
  exact hown.apply (fun n heq => hops n (heq ▸ hop)) hstep

end NameTable

end Ruprizzle
