import Ruprizzle.Cli.SeedLaw
import Ruprizzle.Parser.Build

namespace Ruprizzle.Seed

open Runtime hiding Model
open Fallible Upserts

-- The statements of a document, one after another, and then once more.

section Runs

variable {s : Server} {readers : Readers} {schema : Schema} {m : Model} {root : Object}
  {l l' : List (Model × Object)} {db mid next : Database}

-- The row objects are written one after another.
inductive Ran (s : Server) (readers : Readers) : List (Model × Object) → Database → Database → Prop
  | nil {db : Database} : Ran s readers [] db db
  | cons {m : Model} {row : Object} {u : Upsert} {rest : List (Model × Object)}
      {db mid next : Database} : compileRow readers m row = .ok u → u.execute s db = .ok mid →
      Ran s readers rest mid next → Ran s readers ((m, row) :: rest) db next

theorem Ran.append (h : Ran s readers l db mid) (h' : Ran s readers l' mid next) :
    Ran s readers (l ++ l') db next := by
  induction h with
  | nil => exact h'
  | cons hu hexecute _ ih => exact .cons hu hexecute (ih h')

theorem Steady.append (h : Steady s readers (l ++ l') db) (hrun : Ran s readers l db mid) :
    Steady s readers l db ∧ Steady s readers l' mid := by
  induction hrun with
  | nil => exact ⟨trivial, h⟩
  | @cons m row u rest db first last hu hexecute _ ih =>
      obtain ⟨given, new, indexes, hexecuted⟩ := execute_ok hexecute
      refine ⟨fun v given new indexes other hv hother => ?_,
        (ih (h u _ _ _ first hu hexecuted).2).2⟩
      obtain rfl := Except.ok.inj (hu.symm.trans hv)
      obtain ⟨hplain, hrest⟩ := h u _ _ _ other hu hother
      obtain rfl := Except.ok.inj (hexecute.symm.trans hother.execute)
      exact ⟨hplain, (ih hrest).1⟩

theorem applyRows_ok {rows : List Json} {n n' : Nat}
    (h : rows.foldlM (applyRow s readers m) (n, db) = .ok (n', next)) :
    Ran s readers ((rows.filterMap objectOf).map (Prod.mk m)) db next ∧
      n' = n + (rows.filterMap objectOf).length := by
  induction rows generalizing n db with
  | nil =>
      obtain ⟨rfl, rfl⟩ := Prod.mk.inj (Except.ok.inj h)
      exact ⟨.nil, rfl⟩
  | cons row rows ih =>
      rw [List.foldlM_cons] at h
      obtain ⟨⟨n₁, mid⟩, hrow, h⟩ := bind_eq_ok.mp h
      obtain ⟨hrun, hn⟩ := ih h
      cases row with
      | object members =>
          obtain ⟨u, hu, hrow⟩ := bind_eq_ok.mp hrow
          obtain ⟨first, hexecute, heq⟩ := map_eq_ok.mp hrow
          obtain ⟨rfl, rfl⟩ := Prod.mk.inj heq
          have hobject : objectOf (.object members) = some members := rfl
          rw [List.filterMap_cons_some hobject, List.map_cons, List.length_cons]
          refine ⟨.cons hu hexecute hrun, ?_⟩
          dsimp only at hn
          omega
      | _ => cases hrow

def found (root : Object) (m : Model) : List Object := ((findRows root m).map objects).getD []

theorem applyModels_ok {models : List Model} {n n' : Nat}
    (h : models.foldlM (applyModel s readers root) (n, db) = .ok (n', next)) :
    Ran s readers (models.flatMap fun m => (found root m).map (Prod.mk m)) db next ∧
      n' = n + (models.flatMap fun m => (found root m).map (Prod.mk m)).length := by
  induction models generalizing n db with
  | nil =>
      obtain ⟨rfl, rfl⟩ := Prod.mk.inj (Except.ok.inj h)
      exact ⟨.nil, rfl⟩
  | cons m models ih =>
      rw [List.foldlM_cons] at h
      obtain ⟨⟨n₁, mid⟩, hmodel, h⟩ := bind_eq_ok.mp h
      obtain ⟨hrun, hn⟩ := ih h
      have hfirst : Ran s readers ((found root m).map (Prod.mk m)) db mid ∧
          n₁ = n + (found root m).length := by
        unfold applyModel at hmodel
        unfold found
        split at hmodel
        · rename_i hnone
          obtain ⟨rfl, rfl⟩ := Prod.mk.inj (Except.ok.inj hmodel)
          rw [hnone]
          exact ⟨.nil, rfl⟩
        · rename_i rows hrows
          rw [hrows]
          exact applyRows_ok hmodel
        · cases hmodel
      rw [List.flatMap_cons, List.length_append, List.length_map]
      exact ⟨hfirst.1.append hrun, by omega⟩

-- What is found for a model is all that is listed for it.
theorem found_eq (hclear : Clear schema root) (hm : m ∈ schema.models.values) :
    found root m = rowsOf root m := by
  have honce : root.Pairwise fun a b => ¬ (named m a.1 = true ∧ named m b.1 = true) :=
    hclear.once.imp fun h => h m hm
  have hfind : findRows root m =
      (root.reverse.find? fun e => m.name.str = e.1 || m.table = e.1).map Prod.snd := by
    refine get_or_get (honce.imp fun {a b} h hab => h ?_)
    simp [named, hab.1, hab.2.1]
  have hlast : (root.reverse.find? fun e => m.name.str = e.1 || m.table = e.1) =
      (root.filter fun e => named m e.1).getLast? := by
    rw [← List.head?_filter, List.filter_reverse, List.head?_reverse]
    rfl
  have hpairs : (root.filter fun e => named m e.1).Pairwise fun _ _ => False := by
    rw [List.pairwise_filter]
    exact honce.imp fun h ha hb => h ⟨ha, hb⟩
  unfold found rowsOf rowObjects
  rw [hfind, hlast]
  generalize (root.filter fun e => named m e.1) = entries at hpairs
  cases hpairs with
  | nil => rfl
  | @cons e rest hnone _ =>
      cases rest with
      | nil => simp
      | cons other _ => exact (hnone other List.mem_cons_self).elim

theorem plan_found (hclear : Clear schema root) :
    (schema.models.values.flatMap fun m => (found root m).map (Prod.mk m)) = plan schema root :=
  List.flatMap_congr fun _ hm => by rw [found_eq hclear hm]

theorem length_rowObjects (p : String × Json → Bool) (l : Object) :
    (rowObjects l).length =
      (rowObjects (l.filter p)).length + (rowObjects (l.filter fun e => !p e)).length := by
  unfold rowObjects
  induction l with
  | nil => rfl
  | cons e l ih =>
      cases hp : p e <;>
        simp only [List.flatMap_cons, List.filter_cons, hp, Bool.not_true, Bool.not_false, if_true,
          Bool.false_eq_true, if_false, List.length_append, ih] <;> omega

-- Each row object is listed for one model.
theorem length_planned {models : List Model}
    (hnamed : ∀ e ∈ root, ∃ m ∈ models, named m e.1 = true)
    (honce : ∀ e ∈ root, models.Pairwise fun m m' =>
      ¬ (named m e.1 = true ∧ named m' e.1 = true)) :
    (models.flatMap fun m => (rowsOf root m).map (Prod.mk m)).length =
      (rowObjects root).length := by
  induction models generalizing root with
  | nil =>
      cases root with
      | nil => rfl
      | cons e _ =>
          obtain ⟨m, hm, _⟩ := hnamed e List.mem_cons_self
          exact absurd hm List.not_mem_nil
  | cons m models ih =>
      have hothers : ∀ m' ∈ models,
          rowsOf root m' = rowsOf (root.filter fun e => !named m e.1) m' := by
        intro m' hm'
        unfold rowsOf
        rw [List.filter_filter]
        refine congrArg rowObjects (List.filter_congr fun e he => ?_)
        have hapart := (List.pairwise_cons.mp (honce e he)).1 m' hm'
        cases hm : named m e.1 <;> simp_all
      have hrest : ∀ e ∈ root.filter (fun e => !named m e.1),
          ∃ m' ∈ models, named m' e.1 = true := by
        intro e he
        obtain ⟨he, hm⟩ := List.mem_filter.mp he
        obtain ⟨m', hm', hname⟩ := hnamed e he
        rcases List.mem_cons.mp hm' with rfl | hm'
        · simp [hname] at hm
        · exact ⟨m', hm', hname⟩
      have hmore := ih hrest fun e he =>
        (List.pairwise_cons.mp (honce e (List.mem_filter.mp he).1)).2
      rw [List.flatMap_cons, List.length_append, List.length_map,
        length_rowObjects fun e => named m e.1, ← hmore, List.flatMap_congr fun m' hm' => by
          rw [hothers m' hm']]
      rfl

theorem mem_plan {p : Model × Object} (hp : p ∈ plan schema root) :
    p.1 ∈ schema.models.values ∧ p.2 ∈ rowsOf root p.1 := by
  obtain ⟨m, hm, hp⟩ := List.mem_flatMap.mp hp
  obtain ⟨row, hrow, rfl⟩ := List.mem_map.mp hp
  exact ⟨hm, hrow⟩

theorem filter_plan (hnodup : schema.models.values.Nodup) (hm : m ∈ schema.models.values) :
    (plan schema root).filter (fun p => p.1 = m) = (rowsOf root m).map (Prod.mk m) := by
  unfold plan
  generalize schema.models.values = models at hnodup hm
  have hself : ∀ m', ((rowsOf root m').map (Prod.mk m')).filter (fun p => p.1 = m) =
      if m' = m then (rowsOf root m').map (Prod.mk m') else [] := by
    intro m'
    by_cases h : m' = m <;> simp [List.filter_map, Function.comp_def, h]
  induction models with
  | nil => exact absurd hm List.not_mem_nil
  | cons m' models ih =>
      obtain ⟨hnot, hnodup⟩ := List.nodup_cons.mp hnodup
      rw [List.flatMap_cons, List.filter_append, hself]
      rcases List.mem_cons.mp hm with rfl | hm
      · have hnone : (models.flatMap fun m => (rowsOf root m).map (Prod.mk m)).filter
            (fun p => p.1 = m) = [] := by
          rw [List.filter_eq_nil_iff]
          intro p hp
          obtain ⟨other, hother, hp⟩ := List.mem_flatMap.mp hp
          obtain ⟨row, -, rfl⟩ := List.mem_map.mp hp
          simpa using fun heq : other = m => hnot (heq ▸ hother)
        rw [if_pos rfl, hnone, List.append_nil]
      · rw [if_neg fun heq : m' = m => hnot (heq ▸ hm), List.nil_append]
        exact ih hnodup hm

-- A run whose statements are plain writes to each table what is listed for its model.
theorem Ran.written (hrun : Ran s readers l db next) (hs : schema.WellFormed)
    (hserves : ∀ m ∈ schema.models.values, keyColumns m ∈ s.indexes m.table)
    (hl : ∀ p ∈ l, p.1 ∈ schema.models.values ∧ ∀ f ∈ p.1.scalarFields,
      p.2.Pairwise fun a b => ¬ (a.1 = f.name.str ∧ b.1 = f.column ∧ a.1 ≠ b.1))
    (hsteady : Steady s readers l db) (hdb : s.checks db = none) :
    s.checks next = none ∧ (∀ t, (∀ m ∈ schema.models.values, m.table ≠ t) → next t = db t) ∧
      ∀ m ∈ schema.models.values, Written (keyColumns m)
        ((l.filter fun p => p.1 = m).map fun p => listing s readers p.1 p.2)
        (db m.table) (next m.table) := by
  induction hrun with
  | nil => exact ⟨hdb, fun _ _ => rfl, fun _ _ => .nil⟩
  | @cons m' row u rest db mid next hu hexecute _ ih =>
      obtain ⟨hm', hrow⟩ := hl (m', row) List.mem_cons_self
      obtain ⟨given, new, indexes, hexecuted⟩ := execute_ok hexecute
      obtain ⟨hplain, hsteady⟩ := hsteady u _ _ _ mid hu hexecuted
      obtain ⟨helsewhere, hwrites⟩ := hexecuted.writes (compileRow_ok hu) hplain hdb
        (hserves m' hm') (hs.columns m' hm') hrow
      obtain ⟨hnext, hrest, hwritten⟩ := ih (fun p hp => hl p (List.mem_cons_of_mem _ hp))
        hsteady hexecuted.checks
      refine ⟨hnext, fun t ht => ?_, fun m hm => ?_⟩
      · rw [hrest t ht, helsewhere t (Ne.symm (ht m' hm'))]
      · by_cases heq : m' = m
        · subst heq
          rw [List.filter_cons_of_pos (by simp), List.map_cons]
          exact .cons hwrites (hwritten m' hm)
        · have htable : m.table ≠ m'.table := fun h =>
            heq (List.inj_on_of_nodup_map hs.tables hm hm' h).symm
          rw [List.filter_cons_of_neg (by simpa using heq), ← helsewhere m.table htable]
          exact hwritten m hm

theorem applyTo_cases (s : Server) (readers : Readers) (schema : Schema) (root : Object)
    (db : Database) : (∃ e, applyTo s readers schema root db = (.error e, db)) ∨
      ∃ n next, applyTo s readers schema root db = (.ok n, next) ∧
        (∀ e ∈ root, ∃ m ∈ schema.models.values, named m e.1 = true) ∧
        schema.models.values.foldlM (applyModel s readers root) (0, db) = .ok (n, next) := by
  unfold applyTo
  split
  · exact Or.inl ⟨_, rfl⟩
  · rename_i hnames
    split
    · exact Or.inl ⟨_, rfl⟩
    · split
      · exact Or.inl ⟨_, rfl⟩
      · rename_i n next hrun
        split
        · exact Or.inl ⟨_, rfl⟩
        · refine Or.inr ⟨n, next, rfl, fun e he => ?_, hrun⟩
          have hkey : e.1 ∈ keys root :=
            (List.perm_insertionSort _ _).mem_iff.mpr (List.mem_map_of_mem he)
          simpa using List.find?_eq_none.mp hnames e.1 hkey

end Runs

def userSchema : Schema :=
  (Build.schema "sqlite" [Build.model "User" [Build.idField,
    Build.field "name" "String" .required []] []]).lowered

theorem accepted_user : Accepted userSchema := accepted_lowered (by decide +kernel)

def alike : Value → Value → Bool
  | .i32 a, .i32 b => a = b
  | .str a, .str b => a = b
  | v, w => !v.isNull && !w.isNull

def idsApart (rows : List Row) : Prop := rows.Pairwise fun a b => ¬ alike (a "id") (b "id") = true

instance (rows : List Row) : Decidable (idsApart rows) :=
  inferInstanceAs (Decidable (rows.Pairwise _))

def sqliteUsers : Server where
  d := .sqlite
  begins := none
  commits _ := none
  stores _ _ v := .ok v
  generates _ c v := c = "id" && v.isNull
  fill _ _ given := .ok fun c => (given c).getD .null
  fills db t given new h c v hv _ := by
    obtain rfl := Except.ok.inj h
    simp [hv]
  indexes t := if t = "users" then [["id"]] else []
  noIndex := "ON CONFLICT clause does not match any PRIMARY KEY or UNIQUE constraint"
  same _ _ := alike
  same_self _ _ v hv := by
    cases v <;> simp [alike, hv]
  picks rows p := rows.findIdx? p
  picks_some rows p i h := by
    obtain ⟨hi, hp, -⟩ := List.findIdx?_eq_some_iff_getElem.mp h
    exact ⟨rows[i], List.getElem?_eq_getElem hi, hp⟩
  picks_none rows p h := by simpa using List.findIdx?_eq_none_iff.mp h
  acts db _ _ _ := db
  checks db := if idsApart (db "users") then none else some "UNIQUE constraint failed: users.id"
  enforces db h t index hindex := by
    by_cases ht : t = "users"
    · subst ht
      rw [if_pos rfl, List.mem_singleton] at hindex
      subst hindex
      split at h
      · rename_i hids
        exact hids.imp fun h hall => h (hall "id" (List.mem_singleton.mpr rfl))
      · cases h
    · rw [if_neg ht] at hindex
      exact absurd hindex List.not_mem_nil

def readers : Readers := ⟨.ok, .ok, .ok, .ok, .ok⟩

def userRow (id : Int) (name : String) : Json :=
  .object [("id", .number ⟨some id, none⟩), ("name", .string name)]

theorem user_keys : ∀ m ∈ userSchema.models.values, keyColumns m ∈ sqliteUsers.indexes m.table := by
  decide +kernel

-- A user that is listed on its own, and the statement for it.

def adaRow : Object := [("id", .number ⟨some 1, none⟩), ("name", .string "Ada")]

def adaDocument : Object := [("User", .array [.object adaRow])]

def adaUpsert : Upsert := ⟨"users", [("id", .i32 1), ("name", .str "Ada")], ["id"], ["name"]⟩

def userModel : Model := userSchema.models.values.headD ⟨⟨""⟩, "", .empty, ⟨[], none, Span.EMPTY⟩,
  [], [], none, Span.EMPTY⟩

theorem userModels : userSchema.models.values = [userModel] := by decide +kernel

theorem ada_compiled : compileRow readers userModel adaRow = .ok adaUpsert := by rfl

theorem ada_plain {db next : Database} {given : String → Option Value} {new : Row}
    {indexes : List (List String)} (h : adaUpsert.Executed sqliteUsers db given new indexes next)
    (hdb : ∀ old ∈ db "users", old "id" = .i32 1) :
    adaUpsert.Plain sqliteUsers db given new indexes ∧ ∀ old ∈ next "users", old "id" = .i32 1 := by
  obtain ⟨⟨values, hvalues, rfl⟩, hnew, hindexes, rfl, -⟩ := h
  obtain rfl := Except.ok.inj hvalues
  obtain rfl := Except.ok.inj hnew
  have hid : ∀ v, cell [("id", .i32 1), ("name", .str "Ada")] "id" = some v → v = .i32 1 :=
    fun v hv => (Option.some.inj hv).symm
  refine ⟨⟨fun c hc v hv => ?_, fun c v hv => ?_, fun old hold _ c hc => ?_,
    fun _ _ _ _ => rfl⟩, ?_⟩
  · obtain rfl := List.mem_singleton.mp hc
    rw [hid v hv]
    rfl
  · by_cases hc : c = "id"
    · subst hc
      rw [hid v hv]
      rfl
    · exact (congrArg (· && v.isNull) (decide_eq_false hc)).trans (Bool.false_and _)
  · obtain rfl := List.mem_singleton.mp hc
    exact hdb old hold
  · intro row hrow
    unfold Upsert.write at hrow
    cases hpick : sqliteUsers.picks (db adaUpsert.table) _ with
    | none =>
        rw [hpick] at hrow
        rcases List.mem_append.mp hrow with hrow | hrow
        · exact hdb row hrow
        · rw [List.mem_singleton.mp hrow]
          rfl
    | some i =>
        obtain ⟨old, hold, -⟩ := sqliteUsers.picks_some _ _ _ hpick
        obtain ⟨hi, hget⟩ := List.getElem?_eq_some_iff.mp hold
        have hmem : old ∈ db "users" := hget ▸ List.getElem_mem hi
        rw [hpick] at hrow
        dsimp only at hrow
        rw [hold] at hrow
        have hmodify : row ∈ (db "users").modify i (adaUpsert.put _) := hrow
        have hlength : i < (db "users").length := hi
        rw [List.modify_eq_take_cons_drop hlength, List.mem_append, List.mem_cons] at hmodify
        rcases hmodify with hrow | rfl | hrow
        · exact hdb row (List.mem_of_mem_take hrow)
        · exact (show adaUpsert.put _ _ "id" = (db "users")[i] "id" from rfl).trans
            (hdb _ (List.getElem_mem hlength))
        · exact hdb row (List.mem_of_mem_drop hrow)

theorem ada_steady {l : List (Model × Object)} {db : Database}
    (hl : ∀ p ∈ l, compileRow readers p.1 p.2 = .ok adaUpsert)
    (hdb : ∀ old ∈ db "users", old "id" = .i32 1) : Steady sqliteUsers readers l db := by
  induction l generalizing db with
  | nil => trivial
  | cons p l ih =>
      intro u given new indexes next hu hexecuted
      obtain rfl := Except.ok.inj ((hl p List.mem_cons_self).symm.trans hu)
      obtain ⟨hplain, hnext⟩ := ada_plain hexecuted hdb
      exact ⟨hplain, ih (fun q hq => hl q (List.mem_cons_of_mem p hq)) hnext⟩

end Ruprizzle.Seed
