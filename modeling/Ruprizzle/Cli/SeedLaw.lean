import Ruprizzle.Cli.Seed
import Ruprizzle.Data.Fallible
import Ruprizzle.Data.Upserts
import Ruprizzle.Parser.Accepted

namespace Ruprizzle.Seed

open Runtime hiding Model
open Fallible Upserts

-- What a document lists, and what has been done when every row object of it is stored.

def objectOf : Json → Option Object
  | .object members => some members
  | _ => none

def objects : Json → List Object
  | .array rows => rows.filterMap objectOf
  | _ => []

def rowObjects (root : Object) : List Object := root.flatMap fun e => objects e.2

-- Under the name of the model or of its table.
def rowsOf (root : Object) (model : Model) : List Object :=
  rowObjects (root.filter fun e => named model e.1)

def keyColumns (model : Model) : List String :=
  model.primaryKey.fields.filterMap fun name => (model.fields.get? name).map Field.column

section Law

variable (s : Server) (readers : Readers) (schema : Schema)

-- What is listed for a column last, under the name of its field or its own, as it is stored.
def listing (model : Model) (row : Object) : String → Option Value := fun column =>
  (model.scalarFields.find? fun field => field.column = column).bind fun field =>
    (row.reverse.find? fun e => fieldNamed field e.1).bind fun e =>
      ((jsonToValue readers e.2 field).bind (s.stores model.table column)).toOption

def listings (root : Object) (model : Model) : List (String → Option Value) :=
  (rowsOf root model).map (listing s readers model)

structure Exact (root : Object) (n : Nat) (db next : Database) : Prop where
  counted : n = (rowObjects root).length
  stored : ∀ m ∈ schema.models.values,
    Stored (keyColumns m) (listings s readers root m) (next m.table)
  unlisted : ∀ m ∈ schema.models.values,
    unlisted (keyColumns m) (listings s readers root m) (next m.table) =
      unlisted (keyColumns m) (listings s readers root m) (db m.table)
  elsewhere : ∀ t, (∀ m ∈ schema.models.values, m.table ≠ t) → next t = db t
  again : (applyTo s readers schema root next).2 = next

-- The law: the document is stored exactly, or the database is as it was.
def Faithful (document : Except String Object) (db : Database) : Prop :=
  match apply s readers schema document db with
  | (.error _, next) => next = db
  | (.ok n, next) => ∃ root, document = .ok root ∧ Exact s readers schema root n db next

-- No name of the document stands for two things, and nothing is listed under two names,
-- but for a field whose own name comes last.
structure Clear (root : Object) : Prop where
  model : ∀ e ∈ root, ∀ m ∈ schema.models.values, ∀ m' ∈ schema.models.values,
    named m e.1 = true → named m' e.1 = true → m = m'
  once : root.Pairwise fun a b => ∀ m ∈ schema.models.values,
    ¬ (named m a.1 = true ∧ named m b.1 = true)
  field : ∀ m ∈ schema.models.values, ∀ row ∈ rowsOf root m, ∀ f ∈ m.scalarFields,
    row.Pairwise fun a b => ¬ (a.1 = f.name.str ∧ b.1 = f.column ∧ a.1 ≠ b.1)

-- What a statement that is not refused gives, the row it would insert, the indexes that
-- count for it, and the database after it.
structure Upsert.Executed (u : Upsert) (db : Database) (given : String → Option Value) (new : Row)
    (indexes : List (List String)) (next : Database) : Prop where
  values : ∃ values, u.given s = .ok values ∧ given = cell values
  fill : s.fill db u.table given = .ok new
  targets : u.targets s = .ok indexes
  write : u.write s db given indexes new = next
  checks : s.checks next = none

-- A statement is plain where the key has no NULL in it, nothing is generated in the place
-- of what is listed, the rows it conflicts with have its key, and no foreign key answers
-- what it changes.
structure Upsert.Plain (u : Upsert) (db : Database) (given : String → Option Value) (new : Row)
    (indexes : List (List String)) : Prop where
  key : ∀ c ∈ u.primaryKey, ∀ v, given c = some v → v.isNull = false
  asListed : ∀ c v, given c = some v → s.generates u.table c v = false
  alone : ∀ old ∈ db u.table, conflicts s u.table indexes new old = true →
    ∀ c ∈ u.primaryKey, old c = new c
  still : ∀ i old, (db u.table)[i]? = some old → conflicts s u.table indexes new old = true →
    u.change s db given old i = db.set u.table ((db u.table).modify i (u.put given))

-- The rows in the order they are written, by model.
def plan (root : Object) : List (Model × Object) :=
  schema.models.values.flatMap fun m => (rowsOf root m).map (Prod.mk m)

-- Each statement is refused or plain on the database that it finds.
def Steady : List (Model × Object) → Database → Prop
  | [], _ => True
  | (m, row) :: rest, db => ∀ u given new indexes next, compileRow readers m row = .ok u →
      u.Executed s db given new indexes next → u.Plain s db given new indexes ∧ Steady rest next

end Law

section Steps

variable {s : Server} {readers : Readers} {schema : Schema} {m : Model} {row : Object}
  {root : Object} {u : Upsert} {db next : Database} {given : List (String × Value)}

-- What is taken under the first name, or else the second, is what is listed last under
-- either, where the second does not come after the first.
theorem get_or_get {l : Object} {name other : String}
    (h : l.Pairwise fun a b => ¬ (a.1 = name ∧ b.1 = other ∧ a.1 ≠ b.1)) :
    (get l name).or (get l other) =
      (l.reverse.find? fun e => name = e.1 || other = e.1).map Prod.snd := by
  unfold get
  have h := List.pairwise_reverse.mpr h
  generalize l.reverse = l at h
  induction l with
  | nil => rfl
  | cons e l ih =>
      have ih := ih (List.pairwise_cons.mp h).2
      have hafter := (List.pairwise_cons.mp h).1
      by_cases hname : e.1 = name
      · simp [hname]
      · by_cases hother : e.1 = other
        · have hnone : l.find? (fun e => e.1 = name) = none := by
            rw [List.find?_eq_none]
            intro a ha
            have hne := hafter a ha
            simp only [hother, decide_eq_true_eq] at hne ⊢
            intro heq
            exact hne ⟨heq, trivial, fun h => hname (hother.trans (h.symm.trans heq))⟩
          simp [hother, hnone, hother ▸ hname]
        · rw [List.find?_cons_of_neg (by simpa using hname),
            List.find?_cons_of_neg (by simpa using hother),
            List.find?_cons_of_neg (by simp [Ne.symm hname, Ne.symm hother])]
          exact ih

theorem listed_eq {f : Field}
    (h : row.Pairwise fun a b => ¬ (a.1 = f.name.str ∧ b.1 = f.column ∧ a.1 ≠ b.1)) :
    listed row f = (row.reverse.find? fun e => fieldNamed f e.1).map Prod.snd :=
  get_or_get h

-- What fields have for a row object, and what a column stores of it.
theorem cell_values {fs : List Field} {values : List (String × Value)} {t : String}
    (hvalues : fieldValues readers row fs = .ok values)
    (hgiven : (values.mapM fun e => (s.stores t e.1 e.2).map fun v => (e.1, v)) = .ok given)
    (hnodup : (fs.map Field.column).Nodup)
    (hrow : ∀ f ∈ fs, row.Pairwise fun a b => ¬ (a.1 = f.name.str ∧ b.1 = f.column ∧ a.1 ≠ b.1))
    (c : String) :
    cell given c = (fs.find? fun f => f.column = c).bind fun f =>
      (row.reverse.find? fun e => fieldNamed f e.1).bind fun e =>
        ((jsonToValue readers e.2 f).bind (s.stores t f.column)).toOption := by
  induction fs generalizing values given with
  | nil =>
      obtain rfl := Except.ok.inj hvalues
      obtain rfl := Except.ok.inj hgiven
      rfl
  | cons f fs ih =>
      have hrest : ∀ g ∈ fs, row.Pairwise fun a b =>
          ¬ (a.1 = g.name.str ∧ b.1 = g.column ∧ a.1 ≠ b.1) :=
        fun g hg => hrow g (List.mem_cons_of_mem f hg)
      have hother : f.column = c → fs.find? (fun f => f.column = c) = none := by
        intro hc
        rw [List.find?_eq_none]
        intro g hg hcolumn
        refine (List.nodup_cons.mp hnodup).1 (List.mem_map.mpr ⟨g, hg, ?_⟩)
        exact (of_decide_eq_true hcolumn).trans hc.symm
      have hlisted := listed_eq (hrow f List.mem_cons_self)
      rw [fieldValues] at hvalues
      cases hfind : row.reverse.find? fun e => fieldNamed f e.1 with
      | none =>
          rw [hfind, Option.map_none] at hlisted
          rw [hlisted] at hvalues
          rw [ih hvalues hgiven (List.nodup_cons.mp hnodup).2 hrest]
          by_cases hc : f.column = c
          · rw [hother hc, List.find?_cons_of_pos (by simpa using hc)]
            simp [hfind]
          · rw [List.find?_cons_of_neg (by simpa using hc)]
      | some e =>
          rw [hfind, Option.map_some] at hlisted
          rw [hlisted] at hvalues
          obtain ⟨v, hv, hvalues⟩ := bind_eq_ok.mp hvalues
          obtain ⟨more, hmore, rfl⟩ := map_eq_ok.mp hvalues
          rw [List.mapM_cons] at hgiven
          obtain ⟨first, hfirst, hgiven⟩ := bind_eq_ok.mp hgiven
          obtain ⟨stored, hstored, rfl⟩ := map_eq_ok.mp hfirst
          obtain ⟨others, hothers, hgiven⟩ := bind_eq_ok.mp hgiven
          obtain rfl := Except.ok.inj hgiven
          have ih := ih hmore hothers (List.nodup_cons.mp hnodup).2 hrest
          unfold cell at ih ⊢
          by_cases hc : f.column = c
          · rw [List.find?_cons_of_pos (by simpa using hc),
              List.find?_cons_of_pos (by simpa using hc)]
            simp [hfind, hv, hstored, Except.bind, Except.toOption]
          · rw [List.find?_cons_of_neg (by simpa using hc),
              List.find?_cons_of_neg (by simpa using hc), ih]

theorem primaryKeyColumns_eq {columns : List String} (h : primaryKeyColumns m = .ok columns) :
    columns = keyColumns m := by
  unfold primaryKeyColumns at h
  unfold keyColumns
  generalize m.primaryKey.fields = names at h
  induction names generalizing columns with
  | nil => exact (Except.ok.inj h).symm
  | cons name names ih =>
      rw [List.mapM_cons] at h
      obtain ⟨column, hcolumn, h⟩ := bind_eq_ok.mp h
      obtain ⟨others, hothers, h⟩ := bind_eq_ok.mp h
      obtain rfl := Except.ok.inj h
      split at hcolumn
      · rename_i field hfield
        obtain rfl := Except.ok.inj hcolumn
        rw [List.filterMap_cons_some (by rw [hfield, Option.map_some]), ← ih hothers]
      · cases hcolumn

-- What a row object becomes, if anything.
structure Compiled (readers : Readers) (m : Model) (row : Object) (u : Upsert) : Prop where
  table : u.table = m.table
  values : fieldValues readers row m.scalarFields = .ok u.values
  primaryKey : u.primaryKey = keyColumns m
  keyed : ∀ c ∈ u.primaryKey, c ∈ u.values.map Prod.fst
  update : ∀ c, c ∈ u.update ↔ c ∈ u.values.map Prod.fst ∧ c ∉ u.primaryKey

theorem compileRow_ok (h : compileRow readers m row = .ok u) : Compiled readers m row u := by
  unfold compileRow at h
  split at h
  · cases h
  · obtain ⟨values, hvalues, h⟩ := bind_eq_ok.mp h
    split at h
    · cases h
    · obtain ⟨columns, hcolumns, h⟩ := bind_eq_ok.mp h
      split at h
      · cases h
      · rename_i hkeyed
        obtain rfl := Except.ok.inj h
        refine ⟨rfl, hvalues, primaryKeyColumns_eq hcolumns, fun c hc => ?_, fun c => ?_⟩
        · simpa using List.find?_eq_none.mp hkeyed c hc
        · simp [List.mem_filter]

namespace Upsert

theorem given_isSome (hgiven : u.given s = .ok given) (c : String) :
    (cell given c).isSome = true ↔ c ∈ u.values.map Prod.fst := by
  have hcolumns : given.map Prod.fst = u.values.map Prod.fst := by
    unfold Upsert.given at hgiven
    generalize u.values = values at hgiven
    induction values generalizing given with
    | nil => exact congrArg (List.map Prod.fst) (Except.ok.inj hgiven).symm
    | cons e values ih =>
        rw [List.mapM_cons] at hgiven
        obtain ⟨first, hfirst, hgiven⟩ := bind_eq_ok.mp hgiven
        obtain ⟨stored, -, rfl⟩ := map_eq_ok.mp hfirst
        obtain ⟨others, hothers, hgiven⟩ := bind_eq_ok.mp hgiven
        obtain rfl := Except.ok.inj hgiven
        rw [List.map_cons, List.map_cons, ih hothers]
  unfold cell
  rw [← hcolumns, Option.isSome_map, List.find?_isSome]
  simp

theorem put_eq (hu : Compiled readers m row u) (hgiven : u.given s = .ok given) :
    u.put (cell given) = Upserts.put u.primaryKey (cell given) := by
  funext old c
  unfold put Upserts.put
  by_cases hkey : c ∈ u.primaryKey
  · rw [if_pos hkey, if_neg fun hc => ((hu.update c).mp hc).2 hkey]
  · rw [if_neg hkey]
    by_cases hc : c ∈ u.values.map Prod.fst
    · rw [if_pos ((hu.update c).mpr ⟨hc, hkey⟩)]
    · have hnone : cell given c = none := by
        rw [← Option.not_isSome_iff_eq_none, given_isSome hgiven]
        exact hc
      rw [if_neg fun h => hc ((hu.update c).mp h).1, hnone, Option.getD_none]

end Upsert

theorem given_eq (hu : Compiled readers m row u) (hgiven : u.given s = .ok given)
    (hnodup : (m.scalarFields.map Field.column).Nodup)
    (hrow : ∀ f ∈ m.scalarFields,
      row.Pairwise fun a b => ¬ (a.1 = f.name.str ∧ b.1 = f.column ∧ a.1 ≠ b.1)) :
    cell given = listing s readers m row := by
  funext c
  rw [cell_values hu.values hgiven hnodup hrow c, hu.table, listing]
  refine Option.bind_congr fun f hf => ?_
  have hcolumn : f.column = c := by simpa using List.find?_some hf
  rw [hcolumn]

theorem conflicts_of_key {indexes : List (List String)} {t : String} {index : List String}
    {new old : Row} (hindex : index ∈ indexes) (hsame : ∀ c ∈ index, old c = new c)
    (hnull : ∀ c ∈ index, (new c).isNull = false) : conflicts s t indexes new old = true := by
  refine List.any_eq_true.mpr ⟨index, hindex, List.all_eq_true.mpr fun c hc => ?_⟩
  rw [hsame c hc]
  exact s.same_self t c _ (hnull c hc)

theorem mem_targets {indexes : List (List String)} (htargets : u.targets s = .ok indexes)
    (hserves : u.primaryKey ∈ s.indexes u.table) : u.primaryKey ∈ indexes := by
  unfold Upsert.targets at htargets
  by_cases hd : s.d = .mysql
  · rw [if_pos hd] at htargets
    exact Except.ok.inj htargets ▸ hserves
  · rw [if_neg hd, if_pos hserves] at htargets
    exact Except.ok.inj htargets ▸ List.mem_singleton.mpr rfl

-- Of the rows that a database allows only one has a key without NULL.
theorem keyed_once {keys : List String} {t : String} {w : String → Option Value}
    {before after : List Row} {old : Row} (hdb : s.checks db = none) (hkeys : keys ∈ s.indexes t)
    (heq : db t = before ++ old :: after) (hkey : Keyed keys w old)
    (hnull : ∀ c ∈ keys, ∀ v, w c = some v → v.isNull = false) :
    ∀ other ∈ before ++ after, ¬ Keyed keys w other := by
  intro other hother hkeyed
  have hpairs := s.enforces db hdb t keys hkeys
  rw [heq, List.pairwise_append, List.pairwise_cons] at hpairs
  have hsame : ∀ a b, Keyed keys w a → Keyed keys w b →
      ∀ c ∈ keys, s.same t c (a c) (b c) = true := by
    intro a b ha hb c hc
    rw [hb.agree ha c hc]
    exact s.same_self t c _ (hnull c hc _ (hb c hc))
  rcases List.mem_append.mp hother with hother | hother
  · exact hpairs.2.2 other hother old List.mem_cons_self (hsame other old hkeyed hkey)
  · exact hpairs.2.1.1 other hother (hsame old other hkey hkeyed)

theorem execute_ok (h : u.execute s db = .ok next) :
    ∃ given new indexes, u.Executed s db given new indexes next := by
  unfold Upsert.execute at h
  obtain ⟨given, hgiven, h⟩ := bind_eq_ok.mp h
  obtain ⟨new, hnew, h⟩ := bind_eq_ok.mp h
  obtain ⟨indexes, hindexes, h⟩ := bind_eq_ok.mp h
  dsimp only at h
  split at h
  · cases h
  · rename_i hchecks
    obtain rfl := Except.ok.inj h
    exact ⟨cell given, new, indexes, ⟨given, hgiven, rfl⟩, hnew, hindexes, rfl, hchecks⟩

theorem Upsert.Executed.execute {given : String → Option Value} {new : Row}
    {indexes : List (List String)} (h : u.Executed s db given new indexes next) :
    u.execute s db = .ok next := by
  obtain ⟨⟨values, hvalues, rfl⟩, hnew, hindexes, rfl, hchecks⟩ := h
  simp [Upsert.execute, hvalues, hnew, hindexes, hchecks, Except.bind]

-- A plain statement writes the row that it lists, and nothing else.
theorem Upsert.Executed.writes {given : String → Option Value} {new : Row}
    {indexes : List (List String)} (h : u.Executed s db given new indexes next)
    (hu : Compiled readers m row u) (hplain : u.Plain s db given new indexes)
    (hdb : s.checks db = none) (hserves : keyColumns m ∈ s.indexes m.table)
    (hnodup : (m.scalarFields.map Field.column).Nodup)
    (hrow : ∀ f ∈ m.scalarFields,
      row.Pairwise fun a b => ¬ (a.1 = f.name.str ∧ b.1 = f.column ∧ a.1 ≠ b.1)) :
    (∀ t, t ≠ m.table → next t = db t) ∧
      Writes (keyColumns m) (listing s readers m row) (db m.table) (next m.table) := by
  obtain ⟨⟨values, hvalues, rfl⟩, hnew, hindexes, rfl, -⟩ := h
  rw [← hu.primaryKey, ← hu.table] at hserves
  rw [← hu.table, ← hu.primaryKey, ← given_eq hu hvalues hnodup hrow]
  have hlisted : ∀ c v, cell values c = some v → new c = v := fun c v hv =>
    s.fills db u.table _ new hnew c v hv (hplain.asListed c v hv)
  have hkeyed : Keyed u.primaryKey (cell values) new := by
    intro c hc
    obtain ⟨v, hv⟩ := Option.isSome_iff_exists.mp
      ((Upsert.given_isSome hvalues c).mpr (hu.keyed c hc))
    rw [hv, hlisted c v hv]
  have hconflict : ∀ old, Keyed u.primaryKey (cell values) old →
      conflicts s u.table indexes new old = true := fun old hold =>
    conflicts_of_key (mem_targets hindexes hserves) (hkeyed.agree hold)
      fun c hc => hplain.key c hc _ (hkeyed c hc)
  unfold Upsert.write
  cases hpick : s.picks (db u.table) (conflicts s u.table indexes new) with
  | none =>
      have hnone := s.picks_none _ _ hpick
      dsimp only
      refine ⟨fun t ht => if_neg ht, ?_⟩
      rw [Database.add, if_pos rfl]
      refine .inserts (fun old hold hkey => ?_) hkeyed hlisted
      exact Bool.false_ne_true ((hnone old hold).symm.trans (hconflict old hkey))
  | some i =>
      obtain ⟨old, hold, hconflicts⟩ := s.picks_some _ _ _ hpick
      obtain ⟨hi, hget⟩ := List.getElem?_eq_some_iff.mp hold
      have hmem : old ∈ db u.table := hget ▸ List.getElem_mem hi
      have hkey : Keyed u.primaryKey (cell values) old :=
        (keyed_congr (hplain.alone old hmem hconflicts)).mpr hkeyed
      have heq : db u.table = (db u.table).take i ++ old :: (db u.table).drop (i + 1) := by
        rw [← hget, ← List.drop_eq_getElem_cons hi, List.take_append_drop]
      have hothers := keyed_once hdb hserves heq hkey hplain.key
      dsimp only
      rw [hold]
      dsimp only
      rw [hplain.still i old hold hconflicts]
      refine ⟨fun t ht => if_neg ht, ?_⟩
      rw [Database.set, if_pos rfl, List.modify_eq_take_cons_drop hi, hget,
        Upsert.put_eq hu hvalues]
      conv => lhs; rw [heq]
      exact .updates hkey hothers

end Steps

end Ruprizzle.Seed
