import Mathlib.Data.List.Forall2
import Ruprizzle.Runtime.Inserts
import Ruprizzle.Runtime.Rows

namespace Ruprizzle.Runtime

open Batches

-- Inserts with rows of other models attached, in one transaction. A transaction is
-- a run on the side that takes the place of the database at the end.

-- A row of an answer, by its columns.
abbrev Cells := String → Option Value

def Row.cells (columns : List String) (row : Row) : Cells := fun column =>
  if column ∈ columns then some (row column) else none

def Carries (given : List (String × Value)) (row : Row) : Prop :=
  ∀ column v, (column, v) ∈ given → row column = v

def Database.add (db : Database) (table : String) (rows : List Row) : Database := fun t =>
  if t = table then db t ++ rows else db t

-- What a database does with statements that insert rows, and which columns its
-- tables have. What SQLite does with a column that is named twice is left open;
-- the others refuse it.
structure Backend where
  d : Dialect
  engine : Engine
  columns : String → List String
  insert : Database → String → List (List (String × Value)) → Option (Database × List Row)
  inserts : ∀ db table rows db' new, insert db table rows = some (db', new) →
    (d = .sqlite → ∀ row ∈ rows, (row.map Prod.fst).Nodup) →
    db' = db.add table new ∧ List.Forall₂ Carries rows new
  lastInsertId : Database → Value
  commits : Database → Bool
  same_self : ∀ v, v.isNull = false → engine.compare .eq v v = .yes

structure NestedInsert where
  getParentPk : Row → Value
  childTable : String
  childFkCol : String
  childColumns : List String
  childRows : List (List (String × Value))

-- A many-to-many write inserts and deletes rows of its join table alone.
structure JoinWrite where
  joinTable : String
  execute : Database → Row → Option Database
  frame : ∀ db parent db', execute db parent = some db' → ∀ t, t ≠ joinTable → db' t = db t

-- What is inserted, by a plain insert or an upsert, and the row that it wrote.
structure InsertQuery where
  table : String
  columns : List String
  primaryKey : String
  values : List (String × Value)
  statement : Database → Option (Database × Option Row)
  nested : Option NestedInsert
  m2m : Option JoinWrite
  nestedWrites : List (Database → Row → Option Database)

namespace NestedInsert

-- Each row that was returned shows a row that was inserted.
def Shows (columns : List String) (new : List Row) (children : List Cells) : Prop :=
  ∃ shown : List Row, shown.Perm new ∧
    List.Forall₂ (fun cells row => ∀ column ∈ columns, cells column = some (row column)) children shown

variable (n : NestedInsert)

-- The foreign key comes after the columns that were supplied.
def rows (pk : Value) : List (List (String × Value)) :=
  n.childRows.map fun row => row ++ [(n.childFkCol, pk)]

def insertChunks (b : Backend) (returning : List String) :
    List (List (List (String × Value))) → Database → Option (Database × List Cells)
  | [], db => some (db, [])
  | chunk :: rest, db =>
      (b.insert db n.childTable chunk).bind fun (db, new) =>
        (insertChunks b returning rest db).map fun (db, more) =>
          (db, new.map (Row.cells returning) ++ more)

-- The columns of the parent are what is asked to be returned.
def insertBatch (b : Backend) (columns : List String) (db : Database) (pk : Value) :
    Option (Database × List Cells) :=
  if n.childRows.isEmpty then some (db, [])
  else if n.childRows.any List.isEmpty || !sameShape n.childRows then none
  else
    let returning := if columns.isEmpty then b.columns n.childTable else columns
    let run := n.insertChunks b returning (chunks (rowsPerChunk b.d (n.rows pk)) (n.rows pk)) db
    if b.d = .mysql then
      run.map fun (db, _) => (db, ((db n.childTable).filter fun row =>
        b.engine.compare .eq (row n.childFkCol) pk = .yes).map (Row.cells (b.columns n.childTable)))
    else if returning.all fun column => column ∈ b.columns n.childTable then run
    else none

end NestedInsert

namespace InsertQuery

variable (b : Backend) (q : InsertQuery)

-- fetch_inserted_row: by the key that was supplied, or by LAST_INSERT_ID().
def fetchInserted (db : Database) : Option Row :=
  let key := (q.values.lookup q.primaryKey).getD (b.lastInsertId db)
  (db q.table).find? fun row => b.engine.compare .eq (row q.primaryKey) key = .yes

def insertParent (db : Database) : Option (Database × Row) :=
  (q.statement db).bind fun (db, written) =>
    (if b.d = .mysql then q.fetchInserted b db else written).map fun parent => (db, parent)

-- All that comes before the attached rows.
def beforeChildren (db : Database) : Option (Database × Row) :=
  (q.insertParent b db).bind fun (db, parent) =>
    (q.nestedWrites.foldlM (fun (db : Database) (write : Database → Row → Option Database) =>
      write db parent) db).map fun db => (db, parent)

def insertChildren (db : Database) (parent : Row) : Option (Database × List Cells) :=
  match q.nested with
  | some n => n.insertBatch b q.columns db (n.getParentPk parent)
  | none => some (db, [])

def writeJoins (db : Database) (parent : Row) : Option Database :=
  match q.m2m with
  | some write => write.execute db parent
  | none => some db

def inTx (db : Database) : Option (Database × Row × List Cells) :=
  (q.beforeChildren b db).bind fun (db, parent) =>
    (q.insertChildren b db parent).bind fun (db, children) =>
      (q.writeJoins db parent).map fun db => (db, parent, children)

def attached : Bool := !q.nestedWrites.isEmpty || q.nested.isSome || q.m2m.isSome

-- What is returned, with what the setter of the children was given, and what the
-- database is afterwards.
def exec (db : Database) : Option (Row × List Cells) × Database :=
  if q.attached then
    match q.inTx b db with
    | some (next, parent, children) =>
        if b.commits next then (some (parent, children), next) else (none, db)
    | none => (none, db)
  else
    match q.statement db, q.insertParent b db with
    | some (next, _), some (_, parent) => (some (parent, []), next)
    | some (next, _), none => (none, next)
    | none, _ => (none, db)

-- What was asked for: the parent is the row that was written and is there from its
-- children on, the requested children were added, and the setter was given each of
-- them once, with all columns of their model.
structure Complete (db mid next : Database) (parent : Row) (children : List Cells) : Prop where
  written : ∃ first, q.statement db = some (first, some parent)
  stays : parent ∈ mid q.table ∧ parent ∈ next q.table
  children : ∀ n, q.nested = some n → ∃ new, List.Forall₂ Carries (n.rows (n.getParentPk parent)) new ∧
    next n.childTable = mid n.childTable ++ new ∧
    NestedInsert.Shows n.childColumns new children

-- On MySQL the rows that are read back are the ones that were written, and
-- elsewhere the parent has the columns of its children.
structure Matching (db mid : Database) (parent : Row) : Prop where
  kept : parent ∈ mid q.table
  written : b.d = .mysql → ∃ first, q.statement db = some (first, some parent)
  columns : ∀ n, q.nested = some n → n.childRows ≠ [] → b.d ≠ .mysql → q.columns ≠ [] →
    ∀ column ∈ n.childColumns, column ∈ q.columns
  key : ∀ n, q.nested = some n → n.childRows ≠ [] → b.d = .mysql →
    (n.getParentPk parent).isNull = false
  alone : ∀ n, q.nested = some n → n.childRows ≠ [] → b.d = .mysql →
    ∀ row ∈ mid n.childTable,
      b.engine.compare .eq (row n.childFkCol) (n.getParentPk parent) ≠ .yes

-- Attached rows name no column twice on SQLite, nor is the join table one that
-- the other rows are in.
structure Apart : Prop where
  names : ∀ n, q.nested = some n → b.d = .sqlite →
    ∀ row ∈ n.childRows, (row.map Prod.fst ++ [n.childFkCol]).Nodup
  child : ∀ n write, q.nested = some n → q.m2m = some write → n.childTable ≠ write.joinTable
  owner : ∀ write, q.m2m = some write → q.table ≠ write.joinTable
  known : ∀ n, q.nested = some n → ∀ column ∈ n.childColumns, column ∈ b.columns n.childTable

end InsertQuery

variable {b : Backend} {n : NestedInsert} {q : InsertQuery} {db mid next : Database}
  {parent : Row} {children : List Cells}

theorem Database.add_append (db : Database) (table : String) (first second : List Row) :
    (db.add table first).add table second = db.add table (first ++ second) := by
  funext t
  by_cases h : t = table <;> simp [add, h]

theorem Database.add_nil (db : Database) (table : String) : db.add table [] = db := by
  funext t
  simp [add]

namespace NestedInsert

-- Each piece adds its rows, which are what is returned.
theorem insertChunks_some {returning : List String} {pieces : List (List (List (String × Value)))}
    (hnames : b.d = .sqlite → ∀ row ∈ pieces.flatten, (row.map Prod.fst).Nodup)
    (hrun : n.insertChunks b returning pieces db = some (next, children)) :
    ∃ new, List.Forall₂ Carries pieces.flatten new ∧ next = db.add n.childTable new ∧
      children = new.map (Row.cells returning) := by
  induction pieces generalizing db children with
  | nil =>
      obtain ⟨rfl, rfl⟩ := Prod.mk.inj (Option.some.inj hrun)
      exact ⟨[], .nil, (Database.add_nil _ _).symm, rfl⟩
  | cons chunk rest ih =>
      obtain ⟨⟨first, new⟩, hinsert, hmore⟩ := Option.bind_eq_some_iff.mp hrun
      obtain ⟨⟨last, more⟩, hrest, heq⟩ := Option.map_eq_some_iff.mp hmore
      obtain ⟨rfl, rfl⟩ := Prod.mk.inj heq
      have hfirst : b.d = .sqlite → ∀ row ∈ chunk, (row.map Prod.fst).Nodup := fun hd row hrow =>
        hnames hd row (List.mem_append_left _ hrow)
      have hlater : b.d = .sqlite → ∀ row ∈ rest.flatten, (row.map Prod.fst).Nodup :=
        fun hd row hrow => hnames hd row (List.mem_append_right _ hrow)
      obtain ⟨rfl, hcarries⟩ := b.inserts _ _ _ _ _ hinsert hfirst
      obtain ⟨others, hothers, rfl, rfl⟩ := ih hlater hrest
      refine ⟨new ++ others, List.rel_append hcarries hothers, Database.add_append _ _ _ _, ?_⟩
      rw [List.map_append]

theorem shows_returned_iff {columns returning : List String} {new : List Row} (hne : new ≠ []) :
    Shows columns new (new.map (Row.cells returning)) ↔ ∀ column ∈ columns, column ∈ returning := by
  constructor
  · rintro ⟨shown, -, hshown⟩ column hcolumn
    obtain ⟨first, rest, rfl⟩ := List.exists_cons_of_ne_nil hne
    rw [List.map_cons] at hshown
    obtain ⟨row, others, hrow, -, -⟩ := List.forall₂_cons_left_iff.mp hshown
    by_contra hnot
    have hcell := hrow column hcolumn
    rw [Row.cells, if_neg hnot] at hcell
    simp at hcell
  · intro hall
    refine ⟨new, .refl _, ?_⟩
    rw [List.forall₂_map_left_iff, List.forall₂_same]
    intro row _ column hcolumn
    rw [Row.cells, if_pos (hall column hcolumn)]

theorem shows_selected_iff {columns known : List String} {old new : List Row} {fk : String}
    {pk : Value} (hne : new ≠ []) (hknown : ∀ column ∈ columns, column ∈ known)
    (hnew : ∀ row ∈ new, row fk = pk) :
    Shows columns new (((old ++ new).filter fun row =>
        b.engine.compare .eq (row fk) pk = .yes).map (Row.cells known)) ↔
      pk.isNull = false ∧ ∀ row ∈ old, b.engine.compare .eq (row fk) pk ≠ .yes := by
  constructor
  · rintro ⟨shown, hperm, hshown⟩
    have hlength := hshown.length_eq.trans hperm.length_eq
    have hpos := List.length_pos_of_ne_nil hne
    rw [List.length_map, List.filter_append, List.length_append] at hlength
    cases hnull : pk.isNull
    · have hall : new.filter (fun row => b.engine.compare .eq (row fk) pk = .yes) = new := by
        rw [List.filter_eq_self]
        intro row hrow
        rw [hnew row hrow]
        exact decide_eq_true (b.same_self pk hnull)
      rw [hall] at hlength
      have hnone : old.filter (fun row => b.engine.compare .eq (row fk) pk = .yes) = [] :=
        List.length_eq_zero_iff.mp (by omega)
      refine ⟨rfl, fun row hrow heq => ?_⟩
      exact List.filter_eq_nil_iff.mp hnone row hrow (decide_eq_true heq)
    · have hnone : ∀ rows : List Row,
          rows.filter (fun row => b.engine.compare .eq (row fk) pk = .yes) = [] := by
        intro rows
        rw [List.filter_eq_nil_iff]
        intro row _ heq
        simp [compare_isNull hnull] at heq
      rw [hnone, hnone] at hlength
      simp only [List.length_nil] at hlength
      omega
  · rintro ⟨hnull, hold⟩
    have hnone : old.filter (fun row => b.engine.compare .eq (row fk) pk = .yes) = [] := by
      rw [List.filter_eq_nil_iff]
      intro row hrow heq
      exact hold row hrow (decide_eq_true_iff.mp heq)
    have hall : new.filter (fun row => b.engine.compare .eq (row fk) pk = .yes) = new := by
      rw [List.filter_eq_self]
      intro row hrow
      rw [hnew row hrow]
      exact decide_eq_true (b.same_self pk hnull)
    rw [List.filter_append, hnone, hall, List.nil_append]
    exact (shows_returned_iff hne).mpr hknown

theorem carries_given {rows : List (List (String × Value))} {new : List Row} {column : String}
    {v : Value} (h : List.Forall₂ Carries rows new) (hrows : ∀ given ∈ rows, (column, v) ∈ given) :
    ∀ row ∈ new, row column = v := by
  induction h with
  | nil => simp
  | cons hfirst _ ih =>
      obtain ⟨hgiven, hrest⟩ := List.forall_mem_cons.mp hrows
      exact List.forall_mem_cons.mpr ⟨hfirst _ _ hgiven, ih hrest⟩

theorem carries_key {pk : Value} {new : List Row}
    (h : List.Forall₂ Carries (n.rows pk) new) : ∀ row ∈ new, row n.childFkCol = pk := by
  refine carries_given h fun given hgiven => ?_
  obtain ⟨supplied, -, rfl⟩ := List.mem_map.mp hgiven
  exact List.mem_append_right _ (List.mem_singleton_self _)

-- What the batch adds, and when the setter is given just that.
theorem insertBatch_shows {columns : List String} {pk : Value}
    (hnames : b.d = .sqlite → ∀ row ∈ n.childRows, (row.map Prod.fst ++ [n.childFkCol]).Nodup)
    (hknown : ∀ column ∈ n.childColumns, column ∈ b.columns n.childTable)
    (hrun : n.insertBatch b columns db pk = some (next, children)) :
    ∃ new, List.Forall₂ Carries (n.rows pk) new ∧ next = db.add n.childTable new ∧
      (Shows n.childColumns new children ↔
        (n.childRows ≠ [] → b.d ≠ .mysql → columns ≠ [] → ∀ column ∈ n.childColumns, column ∈ columns) ∧
        (n.childRows ≠ [] → b.d = .mysql → pk.isNull = false ∧
          ∀ row ∈ db n.childTable, b.engine.compare .eq (row n.childFkCol) pk ≠ .yes)) := by
  rw [insertBatch] at hrun
  by_cases hempty : n.childRows = []
  · rw [if_pos (List.isEmpty_iff.mpr hempty)] at hrun
    obtain ⟨rfl, rfl⟩ := Prod.mk.inj (Option.some.inj hrun)
    refine ⟨[], by simp [rows, hempty], (Database.add_nil _ _).symm, ?_⟩
    exact ⟨fun _ => ⟨fun hne => absurd hempty hne, fun hne => absurd hempty hne⟩,
      fun _ => ⟨[], .refl _, .nil⟩⟩
  · rw [if_neg (by simpa using hempty)] at hrun
    split at hrun
    · simp at hrun
    · have hflat : (chunks (rowsPerChunk b.d (n.rows pk)) (n.rows pk)).flatten = n.rows pk :=
        flatten_insertChunks _ _
      have hnames' : b.d = .sqlite → ∀ row ∈ (chunks (rowsPerChunk b.d (n.rows pk)) (n.rows pk)).flatten,
          (row.map Prod.fst).Nodup := by
        intro hd row hrow
        rw [hflat] at hrow
        obtain ⟨supplied, hsupplied, rfl⟩ := List.mem_map.mp hrow
        rw [List.map_append]
        exact hnames hd supplied hsupplied
      have hnonempty : ∀ new : List Row, List.Forall₂ Carries (n.rows pk) new → new ≠ [] := by
        intro new hcarries hnone
        rw [hnone, List.forall₂_nil_right_iff, rows, List.map_eq_nil_iff] at hcarries
        exact hempty hcarries
      by_cases hd : b.d = .mysql
      · rw [if_pos hd] at hrun
        obtain ⟨⟨last, returned⟩, hchunks, heq⟩ := Option.map_eq_some_iff.mp hrun
        obtain ⟨rfl, rfl⟩ := Prod.mk.inj heq
        obtain ⟨new, hcarries, rfl, -⟩ := insertChunks_some hnames' hchunks
        rw [hflat] at hcarries
        have hadded : db.add n.childTable new n.childTable = db n.childTable ++ new := if_pos rfl
        refine ⟨new, hcarries, rfl, ?_⟩
        rw [hadded, shows_selected_iff (hnonempty new hcarries) hknown (carries_key hcarries)]
        exact ⟨fun h => ⟨fun _ hnot => absurd hd hnot, fun _ _ => h⟩, fun h => h.2 hempty hd⟩
      · rw [if_neg hd] at hrun
        generalize hreturning : (if columns.isEmpty then b.columns n.childTable else columns)
          = returning at hrun
        split at hrun
        · obtain ⟨new, hcarries, rfl, rfl⟩ := insertChunks_some hnames' hrun
          rw [hflat] at hcarries
          refine ⟨new, hcarries, rfl, ?_⟩
          rw [shows_returned_iff (hnonempty new hcarries)]
          by_cases hcolumns : columns = []
          · subst hcolumns
            obtain rfl : b.columns n.childTable = returning := hreturning
            exact ⟨fun _ => ⟨fun _ _ hne => absurd rfl hne, fun _ hmysql => absurd hmysql hd⟩,
              fun _ => hknown⟩
          · rw [if_neg (by simpa using hcolumns)] at hreturning
            subst hreturning
            exact ⟨fun h => ⟨fun _ _ _ => h, fun _ hmysql => absurd hmysql hd⟩,
              fun h => h.1 hempty hd hcolumns⟩
        · simp at hrun

end NestedInsert

namespace InsertQuery

theorem writeJoins_frame (h : q.writeJoins db parent = some next) {t : String}
    (ht : ∀ write, q.m2m = some write → t ≠ write.joinTable) : next t = db t := by
  rw [writeJoins] at h
  split at h
  · next write hwrite => exact write.frame _ _ _ h t (ht write hwrite)
  · rw [Option.some.inj h]

theorem written_of_before (h : q.beforeChildren b db = some (mid, parent)) (hd : b.d ≠ .mysql) :
    ∃ first, q.statement db = some (first, some parent) := by
  obtain ⟨⟨first, written⟩, hparent, hwrites⟩ := Option.bind_eq_some_iff.mp h
  obtain ⟨last, -, heq⟩ := Option.map_eq_some_iff.mp hwrites
  obtain rfl := (Prod.mk.inj heq).2
  obtain ⟨⟨next, row⟩, hstatement, hrow⟩ := Option.bind_eq_some_iff.mp hparent
  dsimp only at hrow
  rw [if_neg hd] at hrow
  obtain ⟨_, rfl, hsame⟩ := Option.map_eq_some_iff.mp hrow
  obtain ⟨rfl, rfl⟩ := Prod.mk.inj hsame
  exact ⟨_, hstatement⟩

theorem inTx_complete (hapart : q.Apart b) (h : q.inTx b db = some (next, parent, children)) :
    ∃ mid, q.beforeChildren b db = some (mid, parent) ∧
      (q.Complete db mid next parent children ↔ q.Matching b db mid parent) := by
  obtain ⟨⟨mid, owner⟩, hbefore, hrest⟩ := Option.bind_eq_some_iff.mp h
  obtain ⟨⟨after, given⟩, hchildren, hjoins⟩ := Option.bind_eq_some_iff.mp hrest
  obtain ⟨last, hwrite, heq⟩ := Option.map_eq_some_iff.mp hjoins
  obtain ⟨rfl, hpair⟩ := Prod.mk.inj heq
  obtain ⟨rfl, rfl⟩ := Prod.mk.inj hpair
  refine ⟨mid, hbefore, ?_⟩
  have htable : last q.table = after q.table := writeJoins_frame hwrite hapart.owner
  rw [insertChildren] at hchildren
  split at hchildren
  · next n hn =>
      obtain ⟨new, hcarries, hadded, hshows⟩ := NestedInsert.insertBatch_shows (hapart.names n hn)
        (hapart.known n hn) hchildren
      have hchild : last n.childTable = mid n.childTable ++ new := by
        rw [writeJoins_frame hwrite fun write hwrite => hapart.child n write hn hwrite, hadded]
        exact if_pos rfl
      have hstays : owner ∈ mid q.table → owner ∈ last q.table := by
        intro hmem
        rw [htable, hadded, Database.add]
        split
        · exact List.mem_append_left _ hmem
        · exact hmem
      constructor
      · intro hcomplete
        obtain ⟨others, hothers, hsame, hshown⟩ := hcomplete.children n hn
        rw [hchild, List.append_cancel_left_eq] at hsame
        rw [← hsame] at hshown
        obtain ⟨hcolumns, hselected⟩ := hshows.mp hshown
        refine ⟨hcomplete.stays.1, fun _ => hcomplete.written, ?_, ?_, ?_⟩
        all_goals
          intro n' hn'
          obtain rfl := Option.some.inj (hn.symm.trans hn')
        · exact hcolumns
        · exact fun hne hd => (hselected hne hd).1
        · exact fun hne hd => (hselected hne hd).2
      · intro hmatching
        refine ⟨?_, ⟨hmatching.kept, hstays hmatching.kept⟩, fun n' hn' => ?_⟩
        · by_cases hd : b.d = .mysql
          · exact hmatching.written hd
          · exact written_of_before hbefore hd
        · obtain rfl := Option.some.inj (hn.symm.trans hn')
          refine ⟨new, hcarries, hchild, hshows.mpr ⟨hmatching.columns n hn, fun hne hd => ?_⟩⟩
          exact ⟨hmatching.key n hn hne hd, hmatching.alone n hn hne hd⟩
  · next hnone =>
      obtain ⟨rfl, rfl⟩ := Prod.mk.inj (Option.some.inj hchildren)
      constructor
      · intro hcomplete
        exact ⟨hcomplete.stays.1, fun _ => hcomplete.written, by simp [hnone], by simp [hnone],
          by simp [hnone]⟩
      · intro hmatching
        refine ⟨?_, ⟨hmatching.kept, htable ▸ hmatching.kept⟩, by simp [hnone]⟩
        by_cases hd : b.d = .mysql
        · exact hmatching.written hd
        · exact written_of_before hbefore hd

end InsertQuery

-- A database that takes every row as it is given, and a post with a comment.

def wholeOnly : Engine where
  compare op v w :=
    if v.isNull || w.isNull then .unknown
    else match op, v, w with
      | .eq, .i64 a, .i64 b => Truth.ofBool (a = b)
      | .eq, _, _ => .yes
      | _, _, _ => .unknown
  other _ _ := .unknown
  compare_null op v := by cases v <;> rfl
  null_compare op v := rfl

theorem carries_rowOf {given : List (String × Value)} (h : (given.map Prod.fst).Nodup) :
    Carries given (rowOf given) := by
  intro column v hmem
  rw [rowOf]
  induction given with
  | nil => simp at hmem
  | cons first rest ih =>
      rw [List.map_cons, List.nodup_cons] at h
      rw [List.lookup_cons]
      rcases List.mem_cons.mp hmem with rfl | hlater
      · simp
      · have hne : (column == first.1) = false := by
          rw [beq_eq_false_iff_ne]
          exact fun heq => h.1 (heq ▸ List.mem_map_of_mem hlater)
        simpa [hne] using ih h.2 hlater

def asGiven (d : Dialect) (columns : String → List String) : Backend where
  d := d
  engine := wholeOnly
  columns := columns
  insert db table rows :=
    if ∀ row ∈ rows, (row.map Prod.fst).Nodup then
      some (db.add table (rows.map rowOf), rows.map rowOf)
    else none
  inserts db table rows db' new h _ := by
    split at h
    · next hnames =>
        obtain ⟨rfl, rfl⟩ := Prod.mk.inj (Option.some.inj h)
        refine ⟨rfl, ?_⟩
        rw [List.forall₂_map_right_iff, List.forall₂_same]
        exact fun row hrow => carries_rowOf (hnames row hrow)
    · simp at h
  lastInsertId _ := .null
  commits _ := true
  same_self v h := by cases v <;> simp_all [wholeOnly, Value.isNull, Truth.ofBool]

def commented (columns : List String) : InsertQuery where
  table := "posts"
  columns := columns
  primaryKey := "id"
  values := [("id", .i64 1)]
  statement db := some (db.add "posts" [rowOf [("id", .i64 1)]], some (rowOf [("id", .i64 1)]))
  nested := some ⟨fun row => row "id", "comments", "post_id", ["id", "post_id"], [[("id", .i64 7)]]⟩
  m2m := none
  nestedWrites := []

def postTables : Backend := asGiven .postgres fun _ => ["id", "post_id"]

theorem apart_commented (columns : List String) : (commented columns).Apart postTables := by
  refine ⟨fun n _ hd => by simp [postTables, asGiven] at hd, fun n write _ hwrite => ?_,
    fun write hwrite => ?_, fun n hn column hcolumn => ?_⟩
  · simp [commented] at hwrite
  · simp [commented] at hwrite
  · obtain rfl := Option.some.inj hn
    exact hcolumn

end Ruprizzle.Runtime
