import Ruprizzle.Cli.Studio
import Ruprizzle.Data.Fallible
import Ruprizzle.Parser.Accepted

namespace Ruprizzle.Studio

open Fallible

section Law

variable {V : Type} (s : Engine V)

-- An editable cell of a row that Studio shows, where it may write. No two rows have the
-- same key.
structure Shown (state : AppState) (db : Database V) (m : Model) (idField field : Field)
    (row : Row V) (info : RowInfo) : Prop where
  accepted : Accepted state.schema
  modelled : m ∈ state.schema.models.values
  writable : state.writable = true
  key : primaryKey m = some idField
  listed : field ∈ m.fields.values
  editable : isEditable field = true
  notKey : field.attrs.isId = false
  member : row ∈ db m.table
  shows : rowInfo s m row = .ok info
  unique : (db m.table).Pairwise fun a b =>
    ¬ s.same idField (a idField.column) (b idField.column) = true

-- The rows that the condition of an update or delete is true of.
def addressed (db : Database V) (m : Model) (idField : Field) (rowId : String) :
    Except String (List (Row V)) :=
  (bindExpr s idField rowId).map fun key => (db m.table).filter (hits s idField key)

-- The law for a row, a cell of it and a text: the row has an id of its own, the text that
-- is shown changes nothing, and what is no value of the column is refused.
structure Faithful (state : AppState) (db : Database V) (m : Model) (idField field : Field)
    (row : Row V) (info : RowInfo) (value : Field → String → Bool) (text : String) : Prop where
  addressed : addressed s db m idField info.id = .ok [row]
  deletes : ∀ next, (deleteRow s state db m.name.str info.id).2 = next → next = db ∨
    ∃ before after, db m.table = before ++ row :: after ∧
      next = setRows db m.table (before ++ after)
  patches : ∀ given next,
    (patchCell s state db m.name.str info.id field.name.str given).2 = next → next = db ∨
      ∃ before after v, db m.table = before ++ row :: after ∧
        next = setRows db m.table (before ++ put field v row :: after)
  again : text ≠ "" → (∃ c ∈ info.cells, c.columnName = field.name.str ∧ c.isNull = false ∧
    c.value = text) → (patchCell s state db m.name.str info.id field.name.str (some text)).2 = db
  refused : text ≠ "" → value field text = false →
    ∃ e, patchCell s state db m.name.str info.id field.name.str (some text) = (.status 400 e, db)

variable (db : Database V) (m : Model) (idField field : Field) (row : Row V)

def changed (kept : V) : Database V :=
  setRows db m.table ((db m.table).map fun r =>
    if hits s idField (row idField.column) r then put field kept r else r)

-- What comes to be stored for a text in the cell, unless something is refused.
def stored (text : String) : Except String V :=
  (bindExpr s field text).bind fun v => (s.keeps field v).bind fun kept =>
    (guarded s (changed s db m idField field row kept)).map fun _ => kept

-- The text of the key is cast to the key, the text of the cell to what it holds, and what
-- is no value of the column to nothing that could be stored.
structure Holds (info : RowInfo) (value : Field → String → Bool) (text : String) : Prop where
  key : ∃ k, bindExpr s idField info.id = .ok k ∧ s.same idField (row idField.column) k = true
  again : text ≠ "" → s.toText (row field.column) = .ok (some text) →
    ∀ v, stored s db m idField field row text = .ok v → v = row field.column
  refuses : text ≠ "" → value field text = false →
    ∀ v, stored s db m idField field row text ≠ .ok v

end Law

section Edits

variable {V : Type} {s : Engine V} {state : AppState} {db : Database V} {m : Model}
  {idField field : Field} {row r : Row V} {info : RowInfo} {key v : V} {text : String}

theorem isEditable_column {f : Field} (h : isEditable f = true) : f.hasColumn = true :=
  (Bool.and_eq_true_iff.mp h).1

theorem Shown.named (h : Shown s state db m idField field row info) {f : Field}
    (hf : f ∈ m.fields.values) (hname : f.name.str = field.name.str) : f = field := by
  obtain ⟨k, hk⟩ := IndexMap.mem_values.mp h.modelled
  have hnamed := (h.accepted.wellFormed.named k m hk).2
  obtain ⟨n, hn⟩ := IndexMap.mem_values.mp hf
  obtain ⟨n', hn'⟩ := IndexMap.mem_values.mp h.listed
  have hkeys : n = n' := by
    rw [← hnamed n f hn, ← hnamed n' field hn']
    exact congrArg FieldName.mk hname
  subst hkeys
  exact Option.some.inj ((IndexMap.get?_eq_some.mpr hn).symm.trans (IndexMap.get?_eq_some.mpr hn'))

theorem Shown.find (h : Shown s state db m idField field row info) :
    (m.fields.values.find? fun f => f.name.str = field.name.str && isEditable f) = some field := by
  cases hfind : m.fields.values.find? fun f => f.name.str = field.name.str && isEditable f with
  | none =>
      have hnone := List.find?_eq_none.mp hfind field h.listed
      simp [h.editable] at hnone
  | some f =>
      have hf := List.find?_some hfind
      rw [Bool.and_eq_true, decide_eq_true_eq] at hf
      rw [h.named (List.mem_of_find?_eq_some hfind) hf.1]

theorem Shown.get? (h : Shown s state db m idField field row info) :
    state.schema.models.get? ⟨m.name.str⟩ = some m := by
  obtain ⟨k, hk⟩ := IndexMap.mem_values.mp h.modelled
  rw [IndexMap.get?_eq_some]
  rw [← (h.accepted.wellFormed.named k m hk).1] at hk
  exact hk

-- The text of a field, beside it.
def fieldText (s : Engine V) (row : Row V) (f : Field) : Except String (Field × Option String) :=
  (s.toText (row f.column)).map fun value => (f, value)

theorem rowInfo_ok (h : rowInfo s m row = .ok info) : ∃ values,
    List.Forall₂ (fun f e => fieldText s row f = .ok e) m.scalarFields values ∧
      info.id = ((values.find? fun e => e.1.attrs.isId).bind Prod.snd).getD "" ∧
      info.cells = values.map fun e => cellInfo m e.1 e.2 := by
  obtain ⟨values, hvalues, rfl⟩ := map_eq_ok.mp h
  exact ⟨values, forall₂_of_mapM hvalues, rfl, rfl⟩

theorem find_fieldText {fs : List Field} {values : List (Field × Option String)} {f : Field}
    {p : Field → Bool} (h : List.Forall₂ (fun f e => fieldText s row f = .ok e) fs values)
    (hfind : fs.find? p = some f) :
    ∃ shown, s.toText (row f.column) = .ok shown ∧
      values.find? (fun e => p e.1) = some (f, shown) := by
  induction h with
  | nil => simp at hfind
  | @cons first e fs values hfirst _ ih =>
      obtain ⟨shown, hshown, rfl⟩ := map_eq_ok.mp hfirst
      by_cases hp : p first = true
      · rw [List.find?_cons_of_pos hp] at hfind
        obtain rfl := Option.some.inj hfind
        exact ⟨shown, hshown, List.find?_cons_of_pos hp⟩
      · rw [List.find?_cons_of_neg hp] at hfind
        obtain ⟨other, hother, hfound⟩ := ih hfind
        refine ⟨other, hother, ?_⟩
        rw [List.find?_cons_of_neg (by exact hp)]
        exact hfound

-- The id of a row is the text of its key.
theorem Shown.id (h : Shown s state db m idField field row info) :
    ∃ shown, s.toText (row idField.column) = .ok shown ∧ info.id = shown.getD "" := by
  obtain ⟨values, hvalues, hid, -⟩ := rowInfo_ok h.shows
  have hkey : m.scalarFields.find? (fun f => f.attrs.isId) = some idField := by
    rw [Model.scalarFields, List.find?_filter, ← h.key, primaryKey]
    refine congrArg (fun p => m.fields.values.find? p) (funext fun f => ?_)
    rw [Bool.decide_and, Bool.decide_eq_true, Bool.decide_eq_true, Bool.and_comm]
  obtain ⟨shown, hshown, hfind⟩ := find_fieldText hvalues hkey
  exact ⟨shown, hshown, by rw [hid, hfind, Option.bind_some]⟩

-- And a cell shows the text of its field.
theorem Shown.cell_iff (h : Shown s state db m idField field row info) :
    (∃ c ∈ info.cells, c.columnName = field.name.str ∧ c.isNull = false ∧ c.value = text) ↔
      s.toText (row field.column) = .ok (some text) := by
  obtain ⟨values, hvalues, -, hcells⟩ := rowInfo_ok h.shows
  rw [hcells]
  constructor
  · intro ⟨c, hc, hname, hnull, hvalue⟩
    obtain ⟨e, he, rfl⟩ := List.mem_map.mp hc
    obtain ⟨f, hf, htext⟩ := exists_taken hvalues he
    obtain ⟨shown, hshown, rfl⟩ := map_eq_ok.mp htext
    obtain rfl := h.named (List.mem_filter.mp hf).1 hname
    cases shown with
    | none => simp [cellInfo] at hnull
    | some t =>
        rw [hshown]
        exact congrArg (fun t => Except.ok (some t)) hvalue
  · intro htext
    have hf : field ∈ m.scalarFields :=
      List.mem_filter.mpr ⟨h.listed, isEditable_column h.editable⟩
    obtain ⟨e, he, hfield⟩ := exists_given hvalues hf
    obtain ⟨shown, hshown, rfl⟩ := map_eq_ok.mp hfield
    obtain rfl := Except.ok.inj (hshown.symm.trans htext)
    exact ⟨_, List.mem_map_of_mem he, rfl, rfl, rfl⟩

-- The rows with the key of the text are those with the key of the row.
theorem hits_eq (hkey : s.same idField (row idField.column) key = true) :
    hits s idField key = hits s idField (row idField.column) := by
  funext r
  rw [Bool.eq_iff_iff]
  exact ⟨fun h => s.same_trans _ _ _ _ h (s.same_symm _ _ _ hkey),
    fun h => s.same_trans _ _ _ _ h hkey⟩

-- They are the row alone.
theorem Shown.alone (h : Shown s state db m idField field row info)
    (hkey : s.same idField (row idField.column) key = true) : ∃ before after,
      db m.table = before ++ row :: after ∧
        (∀ r ∈ before ++ after, hits s idField (row idField.column) r = false) ∧
        hits s idField (row idField.column) row = true := by
  obtain ⟨before, after, heq⟩ := List.append_of_mem h.member
  have hpairs := h.unique
  rw [heq, List.pairwise_append, List.pairwise_cons] at hpairs
  refine ⟨before, after, heq, fun r hr => ?_, s.same_trans _ _ _ _ hkey (s.same_symm _ _ _ hkey)⟩
  rw [Bool.eq_false_iff]
  intro hsame
  rcases List.mem_append.mp hr with hr | hr
  · exact hpairs.2.2 r hr row List.mem_cons_self hsame
  · exact hpairs.2.1.1 r hr (s.same_symm _ _ _ hsame)

section Alone

variable {before after : List (Row V)} {p : Row V → Bool} {f : Row V → Row V}

theorem filter_alone (hothers : ∀ r ∈ before ++ after, p r = false) (hrow : p row = true) :
    (before ++ row :: after).filter p = [row] := by
  have hnone : ∀ l : List (Row V), (∀ r ∈ l, p r = false) → l.filter p = [] := fun l hl =>
    List.filter_eq_nil_iff.mpr fun r hr => Bool.eq_false_iff.mp (hl r hr)
  rw [List.filter_append, List.filter_cons_of_pos hrow,
    hnone before fun r hr => hothers r (List.mem_append_left _ hr),
    hnone after fun r hr => hothers r (List.mem_append_right _ hr), List.nil_append]

theorem filter_not_alone (hothers : ∀ r ∈ before ++ after, p r = false) (hrow : p row = true) :
    (before ++ row :: after).filter (fun r => !p r) = before ++ after := by
  have hall : ∀ l : List (Row V), (∀ r ∈ l, p r = false) → l.filter (fun r => !p r) = l :=
    fun l hl => List.filter_eq_self.mpr fun r hr => by rw [hl r hr, Bool.not_false]
  rw [List.filter_append, List.filter_cons_of_neg (by rw [hrow]; exact Bool.false_ne_true),
    hall before fun r hr => hothers r (List.mem_append_left _ hr),
    hall after fun r hr => hothers r (List.mem_append_right _ hr)]

theorem map_alone (hothers : ∀ r ∈ before ++ after, p r = false) (hrow : p row = true) :
    (before ++ row :: after).map (fun r => if p r then f r else r) = before ++ f row :: after := by
  have hall : ∀ l : List (Row V), (∀ r ∈ l, p r = false) →
      l.map (fun r => if p r then f r else r) = l := by
    intro l hl
    conv => rhs; rw [← List.map_id l]
    exact List.map_congr_left fun r hr => if_neg (Bool.eq_false_iff.mp (hl r hr))
  rw [List.map_append, List.map_cons, if_pos hrow,
    hall before fun r hr => hothers r (List.mem_append_left _ hr),
    hall after fun r hr => hothers r (List.mem_append_right _ hr)]

end Alone

theorem Shown.count (h : Shown s state db m idField field row info)
    (hkey : s.same idField (row idField.column) key = true) :
    (db m.table).countP (hits s idField (row idField.column)) = 1 := by
  obtain ⟨before, after, heq, hothers, hrow⟩ := h.alone hkey
  rw [List.countP_eq_length_filter, heq, filter_alone hothers hrow, List.length_singleton]

theorem Shown.update_key (h : Shown s state db m idField field row info)
    (hkey : s.same idField (row idField.column) key = true) :
    update s db m.table field v idField key = (s.keeps field v).bind fun kept =>
      (guarded s (changed s db m idField field row kept)).map fun next => (1, next) := by
  have hany : (db m.table).any (hits s idField key) = true :=
    List.any_eq_true.mpr ⟨row, h.member, hkey⟩
  unfold update
  rw [if_pos hany, hits_eq hkey, h.count hkey]
  rfl

-- What patch_cell does to a row that its id addresses.
theorem Shown.patch_key (h : Shown s state db m idField field row info)
    (hbind : bindExpr s idField info.id = .ok key)
    (hkey : s.same idField (row idField.column) key = true) (given : Option String) :
    patchCell s state db m.name.str info.id field.name.str given =
      match (if (given.getD "").isEmpty && field.optional then .ok s.null
          else bindExpr s field (given.getD "")).bind fun v => (s.keeps field v).bind fun kept =>
            guarded s (changed s db m idField field row kept) with
      | .error e => (.status 400 ("Update failed: " ++ e), db)
      | .ok next => (readBack s next m idField field info.id, next) := by
  unfold patchCell
  rw [h.writable, h.get?]
  simp only [Bool.not_true, Bool.false_eq_true, if_false, h.key, h.find, hbind]
  generalize (if ((given.getD "").isEmpty && field.optional) = true then Except.ok s.null
    else bindExpr s field (given.getD "")) = bound
  cases bound with
  | error e => rfl
  | ok v =>
      simp only [Except.bind, h.update_key hkey]
      cases s.keeps field v with
      | error e => rfl
      | ok kept =>
          simp only
          cases guarded s (changed s db m idField field row kept) <;> rfl

theorem Shown.delete_key (h : Shown s state db m idField field row info)
    (hbind : bindExpr s idField info.id = .ok key)
    (hkey : s.same idField (row idField.column) key = true) :
    deleteRow s state db m.name.str info.id =
      match guarded s (setRows db m.table ((db m.table).filter fun r =>
        !hits s idField (row idField.column) r)) with
      | .error e => (.status 400 ("Delete failed: " ++ e), db)
      | .ok next => (.status 200 "", next) := by
  unfold deleteRow
  rw [h.writable, h.get?]
  simp only [Bool.not_true, Bool.false_eq_true, if_false, h.key, hbind, Except.bind, delete,
    hits_eq hkey, h.count hkey]
  cases guarded s (setRows db m.table ((db m.table).filter fun r =>
    !hits s idField (row idField.column) r)) <;> rfl

theorem guarded_iff {next next' : Database V} :
    guarded s next = .ok next' ↔ s.checks next = none ∧ next' = next := by
  unfold guarded
  split
  · rename_i e he
    refine ⟨fun h => ?_, fun h => ?_⟩
    · cases h
    · cases he.symm.trans h.1
  · rename_i hnone
    exact ⟨fun h => ⟨hnone, (Except.ok.inj h).symm⟩, fun h => by rw [h.2]⟩

theorem guarded_ok {next next' : Database V} (h : guarded s next = .ok next') : next' = next :=
  (guarded_iff.mp h).2

theorem changed_eq_iff (h : Shown s state db m idField field row info)
    (hkey : s.same idField (row idField.column) key = true) :
    changed s db m idField field row v = db ↔ v = row field.column := by
  obtain ⟨before, after, heq, hothers, hrow⟩ := h.alone hkey
  unfold changed
  constructor
  · intro hsame
    have htable := congrFun hsame m.table
    rw [setRows, if_pos rfl, heq, map_alone hothers hrow] at htable
    have hput := (List.cons.inj (List.append_cancel_left htable)).1
    have hcolumn := congrFun hput field.column
    rwa [put, if_pos rfl] at hcolumn
  · intro hv
    have hput : put field v row = row := by
      funext c
      by_cases hc : c = field.column
      · rw [put, if_pos hc, hc, hv]
      · exact if_neg hc
    funext t
    by_cases ht : t = m.table
    · rw [setRows, if_pos ht, ht, heq, map_alone hothers hrow, hput]
    · exact if_neg ht

-- The cell as it is stored for a text that is not empty.
theorem Shown.patch_text (h : Shown s state db m idField field row info)
    (hbind : bindExpr s idField info.id = .ok key)
    (hkey : s.same idField (row idField.column) key = true) (ht : text ≠ "") :
    patchCell s state db m.name.str info.id field.name.str (some text) =
      match stored s db m idField field row text with
      | .error e => (.status 400 ("Update failed: " ++ e), db)
      | .ok kept => (readBack s (changed s db m idField field row kept) m idField field info.id,
          changed s db m idField field row kept) := by
  have hnonempty : text.isEmpty = false := by
    rw [Bool.eq_false_iff]
    exact fun hempty => ht (String.isEmpty_iff.mp hempty)
  rw [h.patch_key hbind hkey, Option.getD_some, hnonempty, Bool.false_and,
    if_neg Bool.false_ne_true]
  unfold stored
  cases bindExpr s field text with
  | error e => rfl
  | ok v =>
      simp only [Except.bind]
      cases s.keeps field v with
      | error e => rfl
      | ok kept =>
          simp only
          cases hnext : guarded s (changed s db m idField field row kept) with
          | error e => rfl
          | ok next =>
              obtain rfl := guarded_ok hnext
              rfl

theorem readBack_ne (rowId e : String) : readBack s db m idField field rowId ≠ .status 400 e := by
  unfold readBack
  dsimp only
  split
  · simp
  · split <;> simp

theorem edits_iff_holds (h : Shown s state db m idField field row info)
    (value : Field → String → Bool) (text : String) :
    Faithful s state db m idField field row info value text ↔
      Holds s db m idField field row info value text := by
  constructor
  · intro hfaithful
    obtain ⟨key, hbind, hfilter⟩ := map_eq_ok.mp hfaithful.addressed
    have hkey : hits s idField key row = true := by
      have hmem : row ∈ (db m.table).filter (hits s idField key) :=
        hfilter ▸ List.mem_singleton.mpr rfl
      exact (List.mem_filter.mp hmem).2
    refine ⟨⟨key, hbind, hkey⟩, fun ht htext v hv => ?_, fun ht hvalue v hv => ?_⟩
    · have hagain := hfaithful.again ht (h.cell_iff.mpr htext)
      rw [h.patch_text hbind hkey ht, hv] at hagain
      exact (changed_eq_iff h hkey).mp hagain
    · obtain ⟨e, hrefused⟩ := hfaithful.refused ht hvalue
      rw [h.patch_text hbind hkey ht, hv] at hrefused
      exact readBack_ne _ _ (Prod.mk.inj hrefused).1
  · intro hholds
    obtain ⟨key, hbind, hkey⟩ := hholds.key
    obtain ⟨before, after, heq, hothers, hrow⟩ := h.alone hkey
    refine ⟨?_, fun next hnext => ?_, fun given next hnext => ?_, fun ht hcell => ?_,
      fun ht hvalue => ?_⟩
    · unfold addressed
      rw [hbind, Except.map, hits_eq hkey, heq, filter_alone hothers hrow]
    · rw [h.delete_key hbind hkey] at hnext
      split at hnext
      · exact Or.inl hnext.symm
      · rename_i last hlast
        obtain rfl := guarded_ok hlast
        refine Or.inr ⟨before, after, heq, ?_⟩
        rw [← hnext, heq, filter_not_alone hothers hrow]
    · rw [h.patch_key hbind hkey] at hnext
      split at hnext
      · exact Or.inl hnext.symm
      · rename_i last hlast
        obtain ⟨v, -, hlast⟩ := bind_eq_ok.mp hlast
        obtain ⟨kept, -, hlast⟩ := bind_eq_ok.mp hlast
        obtain rfl := guarded_ok hlast
        refine Or.inr ⟨before, after, kept, heq, ?_⟩
        rw [← hnext, changed, heq, map_alone hothers hrow]
    · rw [h.patch_text hbind hkey ht]
      cases hstored : stored s db m idField field row text with
      | error e => rfl
      | ok v => exact (changed_eq_iff h hkey).mpr (hholds.again ht (h.cell_iff.mp hcell) v hstored)
    · rw [h.patch_text hbind hkey ht]
      cases hstored : stored s db m idField field row text with
      | error e => exact ⟨_, rfl⟩
      | ok v => exact absurd hstored (hholds.refuses ht hvalue v)

end Edits

end Ruprizzle.Studio
