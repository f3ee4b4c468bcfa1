import Ruprizzle.Dialect.Common
import Ruprizzle.Parser.Accepted
import Ruprizzle.Parser.Build
import Ruprizzle.Runtime.Inserts

namespace Ruprizzle.Codegen

open Ruprizzle.Runtime (Value sameShape rowsPerChunk flatten_insertChunks)

-- The two ways that generated code has to insert rows of a model: one row after
-- another, and many with statements of several rows.

def insertFields (m : Model) : List Field :=
  m.fields.values.filter fun f => f.hasColumn && f.generated.isNone

-- Whether a field of the insert struct is an option.
def insertOptional (f : Field) : Bool :=
  f.optional || f.default.isSome || f.attrs.isUpdatedAt

-- A value of the insert struct. No value of a field is encoded as NULL.
structure Insert (m : Model) where
  value : FieldName → Option Value
  required : ∀ f ∈ insertFields m, insertOptional f = false → (value f.name).isSome
  isValue : ∀ name v, value name = some v → v.isNull = false

variable {m : Model}

-- emit_insert_set: set and set_optional, for every field.
def createValues (data : Insert m) : List (String × Value) :=
  (insertFields m).filterMap fun f => (data.value f.name).map fun v => (f.column, v)

-- emit_insert_many_field: None is encoded as NULL.
def createManyRow (data : Insert m) : List (String × Value) :=
  (insertFields m).map fun f => (f.column, (data.value f.name).getD .null)

-- The column that rows are read back by.
def primaryKey (m : Model) : String :=
  ((m.primaryKey.fields.head?.bind m.fields.get?).map Field.column).getD "id"

-- What a cell holds: a value, or what the database fills in.
inductive Cell
  | value (v : Value)
  | filled

abbrev Stored := String → Cell

def columnFields (m : Model) (column : String) : List Field :=
  m.scalarFields.filter fun f => f.column = column

-- A column that is filled in where it is left out.
def fills (d : Dialect) (f : Field) : Bool :=
  f.generated.isSome || (d.columnDefault f).isSome ||
    decide (f.default = some (.function .autoIncrement))

-- A column that is filled in for NULL as well. PostgreSQL takes NULL for a value.
def fillsNull (d : Dialect) (f : Field) : Bool :=
  decide (d ≠ .postgres) && decide (f.default = some (.function .autoIncrement))

def stored (d : Dialect) (m : Model) (given : List (String × Value)) : Stored := fun column =>
  match given.lookup column with
  | some v =>
      if v.isNull && (columnFields m column).any (fillsNull d) then .filled else .value v
  | none => if (columnFields m column).any (fills d) then .filled else .value .null

-- A table of the model: the dialect, what its constraints let a statement add, and
-- which values are equal in it.
structure Table (m : Model) where
  d : Dialect
  check : List Stored → List Stored → Bool
  same : Value → Value → Bool
  same_self : ∀ v, v.isNull = false → same v v = true
  same_null : ∀ v w, w.isNull = true → same v w = false

namespace Table

variable (t : Table m)

-- Only MySQL takes a row without columns.
def insertRows (old : List Stored) (rows : List (List (String × Value))) : Option (List Stored) :=
  let new := rows.map (stored t.d m)
  if (t.d = .mysql ∨ rows.all (fun row => !row.isEmpty) = true) ∧ t.check old new = true then
    some (old ++ new)
  else none

def cellIs (v : Value) : Cell → Bool
  | .value w => t.same w v
  | .filled => false

def keyGenerated (m : Model) : Bool :=
  (columnFields m (primaryKey m)).any fun f => f.default = some (.function .autoIncrement)

-- fetch_inserted_row: by the key that was supplied, or else by LAST_INSERT_ID(),
-- which only AUTO_INCREMENT sets.
def fetchesInserted (table : List Stored) (values : List (String × Value)) : Bool :=
  match values.lookup (primaryKey m) with
  | some v => table.any fun row => t.cellIs v (row (primaryKey m))
  | none => keyGenerated m

-- InsertQuery::exec without anything nested. What stays in the table after an
-- error is not looked at.
def insert (old : List Stored) (values : List (String × Value)) : Option (List Stored) :=
  (t.insertRows old [values]).bind fun table =>
    if t.d = .mysql ∧ t.fetchesInserted table values = false then none else some table

-- The rows read back have to be as many as were inserted.
def fetchesMany (table : List Stored) (rows : List (List (String × Value))) : Bool :=
  match rows.mapM fun row => row.lookup (primaryKey m) with
  | some keys =>
      table.countP (fun row => keys.any fun v => t.cellIs v (row (primaryKey m))) = rows.length
  | none => keyGenerated m

def insertChunk (old : List Stored) (rows : List (List (String × Value))) : Option (List Stored) :=
  (t.insertRows old rows).bind fun table =>
    if t.d = .mysql ∧ t.fetchesMany table rows = false then none else some table

-- InsertManyQuery::exec.
def insertMany (old : List Stored) (rows : List (List (String × Value))) : Option (List Stored) :=
  if rows.isEmpty then some old
  else if rows.any List.isEmpty || !sameShape rows then none
  else (Batches.chunks (rowsPerChunk t.d rows) rows).foldlM t.insertChunk old

-- Both ways, for a list of insert structs.

def create (old : List Stored) (list : List (Insert m)) : Option (List Stored) :=
  list.foldlM (fun table data => t.insert table (createValues data)) old

def createMany (old : List Stored) (list : List (Insert m)) : Option (List Stored) :=
  t.insertMany old (list.map createManyRow)

-- The constraints, checked for one row after another.
def oneByOne (check : List Stored → List Stored → Bool) : List Stored → List Stored → Bool
  | _, [] => true
  | old, row :: rest => check old [row] && oneByOne check (old ++ [row]) rest

-- What create needs to start with: a column to set, and on MySQL a key to read
-- the row back by.
def Started (data : Insert m) : Prop :=
  if t.d = .mysql then
    ((createValues data).lookup (primaryKey m)).isSome = true ∨ keyGenerated m = true
  else createValues data ≠ []

-- Statement after statement, the constraints take the rows as they would take
-- them one by one, and as many rows are read back.
def Chunkwise : List Stored → List (List (List (String × Value))) → Prop
  | _, [] => True
  | old, chunk :: rest =>
      t.check old (chunk.map (stored t.d m)) = oneByOne t.check old (chunk.map (stored t.d m)) ∧
      (t.d = .mysql → t.fetchesMany (old ++ chunk.map (stored t.d m)) chunk = true) ∧
      Chunkwise (old ++ chunk.map (stored t.d m)) rest

end Table

-- No field is left out that the database fills in, unless it does so for NULL.
def Filled (d : Dialect) (data : Insert m) : Prop :=
  ∀ f ∈ insertFields m, data.value f.name = none → fills d f = false ∨ fillsNull d f = true

structure Table.Alike (t : Table m) (old : List Stored) (list : List (Insert m)) : Prop where
  columns : list ≠ [] → insertFields m ≠ []
  started : ∀ data ∈ list, t.Started data
  filled : ∀ data ∈ list, Filled t.d data
  chunkwise : t.Chunkwise old
    (Batches.chunks (rowsPerChunk t.d (list.map createManyRow)) (list.map createManyRow))

theorem lookup_many (value : Field → Value) (fields : List Field) (column : String) :
    (fields.map fun f => (f.column, value f)).lookup column
      = (fields.find? fun f => f.column = column).map value := by
  induction fields with
  | nil => rfl
  | cons f rest ih =>
      rw [List.map_cons, List.lookup_cons, List.find?_cons, ih]
      by_cases h : f.column = column
      · simp [h]
      · have hne : (column == f.column) = false := by simp [Ne.symm h]
        simp [h, hne]

theorem lookup_values (value : Field → Option Value) {fields : List Field}
    (hnodup : (fields.map Field.column).Nodup) (column : String) :
    (fields.filterMap fun f => (value f).map fun v => (f.column, v)).lookup column
      = (fields.find? fun f => f.column = column).bind value := by
  induction fields with
  | nil => rfl
  | cons f rest ih =>
      rw [List.map_cons, List.nodup_cons] at hnodup
      have hrest := ih hnodup.2
      rw [List.filterMap_cons, List.find?_cons]
      by_cases h : f.column = column
      · subst h
        have hnone : rest.find? (fun g => g.column = f.column) = none := by
          rw [List.find?_eq_none]
          intro g hg hcol
          exact hnodup.1 (List.mem_map.mpr ⟨g, hg, decide_eq_true_iff.mp hcol⟩)
        rw [hnone] at hrest
        cases hvalue : value f <;> simp [hvalue, hrest]
      · have hne : (column == f.column) = false := by simp [Ne.symm h]
        cases hvalue : value f <;> simp [h, hne, hrest, List.lookup_cons]

theorem mem_scalarFields {f : Field} (hf : f ∈ insertFields m) : f ∈ m.scalarFields := by
  rw [insertFields, List.mem_filter, Bool.and_eq_true] at hf
  exact List.mem_filter.mpr ⟨hf.1, hf.2.1⟩

theorem fills_of_null {d : Dialect} {f : Field} (h : fillsNull d f = true) : fills d f = true := by
  rw [fillsNull, Bool.and_eq_true] at h
  rw [fills, h.2, Bool.or_true]

section Columns

variable (hnodup : (m.scalarFields.map Field.column).Nodup)
include hnodup

theorem nodup_insertFields : ((insertFields m).map Field.column).Nodup := by
  have hsub : (insertFields m).Sublist m.scalarFields := by
    have hfilter : insertFields m = m.scalarFields.filter fun f => f.generated.isNone := by
      rw [insertFields, Model.scalarFields, List.filter_filter]
      exact List.filter_congr fun f _ => Bool.and_comm _ _
    rw [hfilter]
    exact List.filter_sublist
  exact hnodup.sublist (hsub.map _)

theorem columnFields_eq {f : Field} (hf : f ∈ insertFields m) : columnFields m f.column = [f] := by
  have hsingle : ∀ fields : List Field, (fields.map Field.column).Nodup → f ∈ fields →
      fields.filter (fun g => g.column = f.column) = [f] := by
    intro fields
    induction fields with
    | nil => simp
    | cons g rest ih =>
        intro hnodup hmem
        rw [List.map_cons, List.nodup_cons] at hnodup
        rw [List.filter_cons]
        rcases List.mem_cons.mp hmem with rfl | hlater
        · have hnone : rest.filter (fun g => g.column = f.column) = [] := by
            rw [List.filter_eq_nil_iff]
            intro g hg hcol
            exact hnodup.1 (List.mem_map.mpr ⟨g, hg, decide_eq_true_iff.mp hcol⟩)
          simp [hnone]
        · have hne : g.column ≠ f.column := fun hcol =>
            hnodup.1 (List.mem_map.mpr ⟨f, hlater, hcol.symm⟩)
          simp [hne, ih hnodup.2 hlater]
  exact hsingle _ hnodup (mem_scalarFields hf)

theorem find_column {f : Field} (hf : f ∈ insertFields m) :
    (insertFields m).find? (fun g => g.column = f.column) = some f := by
  cases hfind : (insertFields m).find? fun g => g.column = f.column with
  | none =>
      rw [List.find?_eq_none] at hfind
      exact absurd (decide_eq_true rfl) (hfind f hf)
  | some g =>
      have hcol := List.find?_some hfind
      have hg := List.mem_of_find?_eq_some hfind
      exact congrArg some (List.inj_on_of_nodup_map (nodup_insertFields hnodup) hg hf
        (decide_eq_true_iff.mp hcol))

theorem lookup_createValues {f : Field} (hf : f ∈ insertFields m) (data : Insert m) :
    (createValues data).lookup f.column = data.value f.name := by
  rw [createValues, lookup_values _ (nodup_insertFields hnodup), find_column hnodup hf]
  rfl

theorem lookup_createManyRow {f : Field} (hf : f ∈ insertFields m) (data : Insert m) :
    (createManyRow data).lookup f.column = some ((data.value f.name).getD .null) := by
  rw [createManyRow, lookup_many, find_column hnodup hf]
  rfl

theorem stored_eq_iff (d : Dialect) (data : Insert m) :
    stored d m (createManyRow data) = stored d m (createValues data) ↔ Filled d data := by
  constructor
  · intro heq f hf hnone
    have hcell := congrFun heq f.column
    rw [stored, stored, lookup_createValues hnodup hf, lookup_createManyRow hnodup hf, hnone,
      columnFields_eq hnodup hf] at hcell
    cases hfills : fills d f
    · exact Or.inl rfl
    · cases hnull : fillsNull d f
      · simp [hfills, hnull] at hcell
      · exact Or.inr rfl
  · intro hfilled
    funext column
    by_cases hcol : ∃ f ∈ insertFields m, f.column = column
    · obtain ⟨f, hf, rfl⟩ := hcol
      rw [stored, stored, lookup_createValues hnodup hf, lookup_createManyRow hnodup hf]
      cases hvalue : data.value f.name with
      | some v => rfl
      | none =>
          rw [columnFields_eq hnodup hf]
          rcases hfilled f hf hvalue with hnone | hnull
          · have hnull : fillsNull d f = false := by
              by_contra hnot
              rw [fills_of_null (Bool.not_eq_false _ ▸ hnot)] at hnone
              simp at hnone
            simp [hnone, hnull]
          · simp [hnull, fills_of_null hnull, Runtime.Value.isNull]
    · have hnone : (insertFields m).find? (fun f => f.column = column) = none := by
        rw [List.find?_eq_none]
        intro f hf hsame
        exact hcol ⟨f, hf, decide_eq_true_iff.mp hsame⟩
      rw [stored, stored, createValues, createManyRow, lookup_many,
        lookup_values _ (nodup_insertFields hnodup), hnone]
      rfl

end Columns

namespace Table

variable {t : Table m} {old table : List Stored} {list : List (Insert m)}

theorem oneByOne_append (check : List Stored → List Stored → Bool) (old a b : List Stored) :
    oneByOne check old (a ++ b) = (oneByOne check old a && oneByOne check (old ++ a) b) := by
  induction a generalizing old with
  | nil => simp [oneByOne]
  | cons row rest ih =>
      rw [List.cons_append, oneByOne, oneByOne, ih, Bool.and_assoc, List.append_assoc]
      rfl

-- A row that create stores is found again by the key it was given.
theorem fetches_created (hd : t.d = .mysql) (data : Insert m) :
    t.fetchesInserted (old ++ [stored t.d m (createValues data)]) (createValues data) = true ↔
      t.Started data := by
  rw [fetchesInserted, Started, if_pos hd]
  cases hkey : (createValues data).lookup (primaryKey m) with
  | none => simp
  | some v =>
      have hvalue : v.isNull = false := by
        obtain ⟨before, after, hsplit, -⟩ := List.lookup_eq_some_iff.mp hkey
        have hmem : (primaryKey m, v) ∈ createValues data := by
          rw [hsplit]
          exact List.mem_append_right _ List.mem_cons_self
        obtain ⟨f, -, hf⟩ := List.mem_filterMap.mp hmem
        obtain ⟨w, hw, heq⟩ := Option.map_eq_some_iff.mp hf
        have hv : w = v := (Prod.mk.inj heq).2
        exact data.isValue _ _ (hv ▸ hw)
      have hcell : stored t.d m (createValues data) (primaryKey m) = .value v := by
        rw [stored, hkey]
        simp [hvalue]
      simp [hcell, cellIs, t.same_self v hvalue]

theorem insert_eq_some (data : Insert m) :
    t.insert old (createValues data) = some table ↔ t.Started data ∧
      t.check old [stored t.d m (createValues data)] = true ∧
      table = old ++ [stored t.d m (createValues data)] := by
  have hfetch : t.d = .mysql → (t.fetchesInserted (old ++ [stored t.d m (createValues data)])
      (createValues data) = true ↔ t.Started data) := fun hd => fetches_created hd data
  rw [insert, insertRows, List.map_singleton]
  generalize stored t.d m (createValues data) = row at hfetch ⊢
  by_cases hcheck : t.check old [row] = true
  · by_cases hd : t.d = .mysql
    · rw [if_pos ⟨Or.inl hd, hcheck⟩, Option.bind_some, ← hfetch hd]
      by_cases hfound : t.fetchesInserted (old ++ [row]) (createValues data) = true
      · rw [if_neg (by simp [hfound]), Option.some_inj]
        exact ⟨fun h => ⟨hfound, hcheck, h.symm⟩, fun h => h.2.2.symm⟩
      · rw [if_pos ⟨hd, Bool.not_eq_true _ ▸ hfound⟩]
        exact ⟨fun h => absurd h (by simp), fun h => absurd h.1 hfound⟩
    · rw [Started, if_neg hd]
      by_cases hvalues : createValues data = []
      · rw [if_neg (by simp [hd, hvalues]), Option.bind_none]
        exact ⟨fun h => absurd h (by simp), fun h => absurd hvalues h.1⟩
      · rw [if_pos ⟨Or.inr (by simp [hvalues]), hcheck⟩, Option.bind_some, if_neg (by simp [hd]),
          Option.some_inj]
        exact ⟨fun h => ⟨hvalues, hcheck, h.symm⟩, fun h => h.2.2.symm⟩
  · rw [if_neg (fun h => hcheck h.2), Option.bind_none]
    exact ⟨fun h => absurd h (by simp), fun h => absurd h.2.1 hcheck⟩

-- Creating one after another.
theorem create_eq_some : t.create old list = some table ↔ (∀ data ∈ list, t.Started data) ∧
    oneByOne t.check old (list.map fun data => stored t.d m (createValues data)) = true ∧
    table = old ++ list.map fun data => stored t.d m (createValues data) := by
  rw [create]
  induction list generalizing old with
  | nil => simp [oneByOne, eq_comm]
  | cons data rest ih =>
      rw [List.foldlM_cons, List.forall_mem_cons, List.map_cons, oneByOne, Bool.and_eq_true]
      constructor
      · intro h
        obtain ⟨next, hfirst, hrest⟩ := Option.bind_eq_some_iff.mp h
        obtain ⟨hstarted, hcheck, rfl⟩ := insert_eq_some data |>.mp hfirst
        obtain ⟨hall, hchecks, rfl⟩ := ih.mp hrest
        exact ⟨⟨hstarted, hall⟩, ⟨hcheck, hchecks⟩, by rw [List.append_assoc]; rfl⟩
      · rintro ⟨⟨hstarted, hall⟩, ⟨hcheck, hchecks⟩, rfl⟩
        refine Option.bind_eq_some_iff.mpr
          ⟨_, (insert_eq_some data).mpr ⟨hstarted, hcheck, rfl⟩, ih.mpr ⟨hall, hchecks, ?_⟩⟩
        rw [List.append_assoc]
        rfl

theorem insertChunk_eq_some {chunk : List (List (String × Value))}
    (hne : ∀ row ∈ chunk, row ≠ []) :
    t.insertChunk old chunk = some table ↔ t.check old (chunk.map (stored t.d m)) = true ∧
      (t.d = .mysql → t.fetchesMany (old ++ chunk.map (stored t.d m)) chunk = true) ∧
      table = old ++ chunk.map (stored t.d m) := by
  have hcolumns : chunk.all (fun row => !row.isEmpty) = true := by
    simpa [List.all_eq_true] using hne
  rw [insertChunk, insertRows]
  generalize chunk.map (stored t.d m) = new
  by_cases hcheck : t.check old new = true
  · rw [if_pos ⟨Or.inr hcolumns, hcheck⟩, Option.bind_some]
    by_cases hlost : t.d = .mysql ∧ t.fetchesMany (old ++ new) chunk = false
    · rw [if_pos hlost]
      exact ⟨fun h => absurd h (by simp), fun h => absurd (h.2.1 hlost.1) (by simp [hlost.2])⟩
    · rw [if_neg hlost, Option.some_inj]
      refine ⟨fun h => ⟨hcheck, fun hd => ?_, h.symm⟩, fun h => h.2.2.symm⟩
      exact Bool.not_eq_false _ ▸ fun hfetch => hlost ⟨hd, hfetch⟩
  · rw [if_neg (fun h => hcheck h.2), Option.bind_none]
    exact ⟨fun h => absurd h (by simp), fun h => absurd h.1 hcheck⟩

theorem chunks_eq_some {pieces : List (List (List (String × Value)))}
    (hne : ∀ chunk ∈ pieces, ∀ row ∈ chunk, row ≠ []) (hchunks : t.Chunkwise old pieces) :
    pieces.foldlM t.insertChunk old = some table ↔
      oneByOne t.check old (pieces.flatten.map (stored t.d m)) = true ∧
      table = old ++ pieces.flatten.map (stored t.d m) := by
  induction pieces generalizing old with
  | nil => simp [oneByOne, eq_comm]
  | cons chunk rest ih =>
      obtain ⟨hfirst, hrest⟩ := List.forall_mem_cons.mp hne
      obtain ⟨hcheck, hfetch, hmore⟩ := hchunks
      rw [List.foldlM_cons, List.flatten_cons, List.map_append, oneByOne_append, Bool.and_eq_true]
      constructor
      · intro h
        obtain ⟨next, hchunk, hrun⟩ := Option.bind_eq_some_iff.mp h
        obtain ⟨hok, -, rfl⟩ := (insertChunk_eq_some hfirst).mp hchunk
        obtain ⟨hall, rfl⟩ := (ih hrest hmore).mp hrun
        exact ⟨⟨hcheck ▸ hok, hall⟩, List.append_assoc ..⟩
      · rintro ⟨⟨hok, hall⟩, rfl⟩
        exact Option.bind_eq_some_iff.mpr
          ⟨_, (insertChunk_eq_some hfirst).mpr ⟨hcheck.trans hok, hfetch, rfl⟩,
            (ih hrest hmore).mpr ⟨hall, (List.append_assoc ..).symm⟩⟩

theorem chunkwise_of_some {pieces : List (List (List (String × Value)))}
    (hne : ∀ chunk ∈ pieces, ∀ row ∈ chunk, row ≠ [])
    (hone : oneByOne t.check old (pieces.flatten.map (stored t.d m)) = true)
    (hrun : pieces.foldlM t.insertChunk old = some table) : t.Chunkwise old pieces := by
  induction pieces generalizing old with
  | nil => exact trivial
  | cons chunk rest ih =>
      obtain ⟨hfirst, hrest⟩ := List.forall_mem_cons.mp hne
      rw [List.flatten_cons, List.map_append, oneByOne_append, Bool.and_eq_true] at hone
      rw [List.foldlM_cons] at hrun
      obtain ⟨next, hchunk, hmore⟩ := Option.bind_eq_some_iff.mp hrun
      obtain ⟨hok, hfetch, rfl⟩ := (insertChunk_eq_some hfirst).mp hchunk
      exact ⟨hok.trans hone.1.symm, hfetch, ih hrest hone.2 hmore⟩

theorem length_stored {pieces : List (List (List (String × Value)))}
    (hne : ∀ chunk ∈ pieces, ∀ row ∈ chunk, row ≠ [])
    (hrun : pieces.foldlM t.insertChunk old = some table) :
    table = old ++ pieces.flatten.map (stored t.d m) := by
  induction pieces generalizing old with
  | nil => simpa [eq_comm] using hrun
  | cons chunk rest ih =>
      obtain ⟨hfirst, hrest⟩ := List.forall_mem_cons.mp hne
      rw [List.foldlM_cons] at hrun
      obtain ⟨next, hchunk, hmore⟩ := Option.bind_eq_some_iff.mp hrun
      obtain ⟨-, -, rfl⟩ := (insertChunk_eq_some hfirst).mp hchunk
      rw [ih hrest hmore, List.flatten_cons, List.map_append, List.append_assoc]

-- All rows that are created have the columns of the insert struct.
theorem createMany_eq (hfields : insertFields m ≠ []) :
    t.createMany old list = (Batches.chunks (rowsPerChunk t.d (list.map createManyRow))
      (list.map createManyRow)).foldlM t.insertChunk old := by
  rw [createMany, insertMany]
  cases list with
  | nil => rfl
  | cons data rest =>
      have hcolumns : ∀ data : Insert m, (createManyRow data).map Prod.fst
          = (insertFields m).map Field.column := fun data => by
        simp [createManyRow]
      have hempty : ∀ data : Insert m, (createManyRow data).isEmpty = false := fun data => by
        simp [createManyRow, hfields]
      have hshape : sameShape ((data :: rest).map createManyRow) = true := by
        simp [sameShape, hcolumns]
      have hany : ((data :: rest).map createManyRow).any List.isEmpty = false := by
        simp [hempty]
      rw [if_neg (by simp), hany, hshape, if_neg (by simp)]

theorem createMany_none (hfields : insertFields m = []) (hne : list ≠ []) :
    t.createMany old list = none := by
  obtain ⟨data, rest, rfl⟩ := List.exists_cons_of_ne_nil hne
  have hrow : (createManyRow data).isEmpty = true := by
    simp [createManyRow, hfields]
  rw [createMany, insertMany, if_neg (by simp), if_pos (by simp [hrow])]

theorem rows_ne_nil (hfields : insertFields m ≠ []) :
    ∀ chunk ∈ Batches.chunks (rowsPerChunk t.d (list.map createManyRow)) (list.map createManyRow),
      ∀ row ∈ chunk, row ≠ [] := by
  intro chunk hchunk row hrow
  have hmem : row ∈ list.map createManyRow := by
    rw [← flatten_insertChunks t.d (list.map createManyRow)]
    exact List.mem_flatten.mpr ⟨chunk, hchunk, hrow⟩
  obtain ⟨data, -, rfl⟩ := List.mem_map.mp hmem
  simpa [createManyRow] using hfields

section

variable (hnodup : (m.scalarFields.map Field.column).Nodup)
include hnodup

theorem Alike.agrees (h : t.Alike old list) : t.createMany old list = t.create old list := by
  by_cases hlist : list = []
  · rw [hlist]
    rfl
  · have hfields := h.columns hlist
    have hstored : (list.map createManyRow).map (stored t.d m)
        = list.map fun data => stored t.d m (createValues data) := by
      rw [List.map_map]
      exact List.map_congr_left fun data hdata => (stored_eq_iff hnodup t.d data).mpr (h.filled data hdata)
    refine Option.ext fun table => ?_
    rw [createMany_eq hfields, chunks_eq_some (rows_ne_nil hfields) h.chunkwise, flatten_insertChunks, hstored,
      create_eq_some]
    exact ⟨fun hrows => ⟨h.started, hrows⟩, fun hall => hall.2⟩

theorem alike_of_agrees (hcreate : t.create old list = some table)
    (hagrees : t.createMany old list = t.create old list) : t.Alike old list := by
  obtain ⟨hstarted, hone, htable⟩ := create_eq_some.mp hcreate
  have hmany := hagrees.trans hcreate
  by_cases hlist : list = []
  · subst hlist
    exact ⟨fun hne => absurd rfl hne, hstarted, by simp, trivial⟩
  · have hfields : insertFields m ≠ [] := by
      intro hnone
      rw [createMany_none hnone hlist] at hmany
      simp at hmany
    rw [createMany_eq hfields] at hmany
    have hsame := length_stored (rows_ne_nil hfields) hmany
    rw [flatten_insertChunks, List.map_map, htable, List.append_cancel_left_eq, List.map_inj_left] at hsame
    have hfilled : ∀ data ∈ list, Filled t.d data := fun data hdata =>
      (stored_eq_iff hnodup t.d data).mp (hsame data hdata).symm
    refine ⟨fun _ => hfields, hstarted, hfilled, ?_⟩
    refine chunkwise_of_some (rows_ne_nil hfields) ?_ hmany
    rw [flatten_insertChunks, List.map_map, ← hone]
    exact congrArg _ (List.map_congr_left fun data hdata => (hsame data hdata).symm)

end

end Table

def roleSchema : Schema :=
  (Build.schema "sqlite" [Build.model "User" [Build.idField,
    Build.field "role" "String" .optional [Build.attr "default" [Build.str "user"]]] []]).lowered

theorem accepted_role : Accepted roleSchema := accepted_lowered (by decide +kernel)

def roleModel : Model := roleSchema.models.values.headD ⟨⟨""⟩, "", .empty, ⟨[], none, Span.EMPTY⟩, [],
  [], none, Span.EMPTY⟩

def roleUser (role : Option String) : Insert roleModel where
  value name := if name = ⟨"id"⟩ then some (.i32 1) else if name = ⟨"role"⟩ then role.map .str else none
  required := by
    have hall : ∀ f ∈ insertFields roleModel, insertOptional f = false → f.name = ⟨"id"⟩ := by
      decide +kernel
    intro f hf hrequired
    simp [hall f hf hrequired]
  isValue name v h := by
    split at h
    · obtain rfl := Option.some.inj h
      rfl
    · split at h
      · obtain ⟨role, -, rfl⟩ := Option.map_eq_some_iff.mp h
        rfl
      · simp at h

def openTable : Table roleModel where
  d := .sqlite
  check _ _ := true
  same v w := !v.isNull && !w.isNull
  same_self v h := by simp [h]
  same_null v w h := by simp [h]

theorem role_mem : roleModel ∈ roleSchema.models.values := by decide +kernel

end Ruprizzle.Codegen
