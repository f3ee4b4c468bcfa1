import Mathlib.Data.List.Perm.Subperm
import Ruprizzle.Data.Fallible
import Ruprizzle.Runtime.EdgeLaw

namespace Ruprizzle.Runtime.Edge

variable {T : Type} {c : Crates T}

section Names

-- A column that has a name has another one than a second column, also where that one's name is
-- made up from its place.
def Apart (a b : Col) (j : Nat) : Prop :=
  ∀ name, a.named = some name →
    b.named ≠ some name ∧ (b.named = none → name ≠ "column_" ++ toString j)

def DistinctNames (cols : List Col) : Prop :=
  ∀ (i j : Nat) (a b : Col), i ≠ j → cols[i]? = some a → cols[j]? = some b → Apart a b j

theorem fallback_injective {i j : Nat} (h : "column_" ++ toString i = "column_" ++ toString j) :
    i = j := by
  have htoList := congrArg String.toList h
  rw [String.toList_append, String.toList_append] at htoList
  exact Nat.repr_injective (String.toList_inj.mp (List.append_cancel_left htoList))

theorem columnName_ne_iff {a b : Col} {i j : Nat} (hij : i ≠ j) :
    columnName a i ≠ columnName b j ↔ Apart a b j ∧ Apart b a i := by
  unfold columnName Apart
  cases ha : a.named with
  | none =>
      cases hb : b.named with
      | none => exact iff_of_true (fun h => hij (fallback_injective h)) (by simp)
      | some name => simp [eq_comm]
  | some name =>
      cases hb : b.named with
      | none => simp
      | some other => simp [eq_comm]

theorem columnNames_getElem? {r : ExecuteResult} {i : Nat} :
    r.columnNames[i]? = r.cols[i]?.map fun col => columnName col i := by
  rw [ExecuteResult.columnNames, List.getElem?_map, List.getElem?_zipIdx, Option.map_map,
    Nat.zero_add]
  rfl

theorem columnNames_length (r : ExecuteResult) : r.columnNames.length = r.cols.length := by
  rw [ExecuteResult.columnNames, List.length_map, List.length_zipIdx]

theorem columnNames_nodup {r : ExecuteResult} : r.columnNames.Nodup ↔ DistinctNames r.cols := by
  rw [List.nodup_iff_getElem?_ne_getElem?]
  constructor
  · intro h i j a b hij ha hb
    have hne : columnName a i ≠ columnName b j := by
      intro heq
      have hi : r.columnNames[i]? = some (columnName a i) := by rw [columnNames_getElem?, ha]; rfl
      have hj : r.columnNames[j]? = some (columnName b j) := by rw [columnNames_getElem?, hb]; rfl
      have hsame : r.columnNames[i]? = r.columnNames[j]? := by rw [hi, hj, heq]
      have hilt := (List.getElem?_eq_some_iff.mp hi).1
      have hjlt := (List.getElem?_eq_some_iff.mp hj).1
      rcases Nat.lt_or_gt_of_ne hij with hlt | hgt
      · exact h i j hlt hjlt hsame
      · exact h j i hgt hilt hsame.symm
    exact ((columnName_ne_iff hij).mp hne).1
  · intro h i j hij hj heq
    rw [columnNames_length] at hj
    obtain ⟨b, hb⟩ : ∃ b, r.cols[j]? = some b := ⟨_, List.getElem?_eq_getElem hj⟩
    obtain ⟨a, ha⟩ : ∃ a, r.cols[i]? = some a := ⟨_, List.getElem?_eq_getElem (by omega)⟩
    have hne : i ≠ j := by omega
    rw [columnNames_getElem?, columnNames_getElem?, ha, hb] at heq
    exact (columnName_ne_iff hne).mpr ⟨h i j a b hne ha hb, h j i b a hne.symm hb ha⟩
      (Option.some.inj heq)

end Names

section Collect

variable {V : Type}

def put (row : IndexMap String V) (cell : String × V) : IndexMap String V :=
  row.insert cell.1 cell.2

theorem mem_keys_foldl {cells : List (String × V)} {m : IndexMap String V} {key : String} :
    key ∈ (cells.foldl put m).keys ↔ key ∈ m.keys ∨ key ∈ cells.map Prod.fst := by
  induction cells generalizing m with
  | nil => simp
  | cons cell rest ih =>
      rw [List.foldl_cons, ih, put, IndexMap.mem_keys_insert, List.map_cons, List.mem_cons]
      tauto

theorem mem_keys_collect {cells : List (String × V)} {key : String} :
    key ∈ (collect cells).keys ↔ key ∈ cells.map Prod.fst := by
  have hfold : key ∈ (collect cells).keys ↔
      key ∈ (IndexMap.empty : IndexMap String V).keys ∨ key ∈ cells.map Prod.fst := mem_keys_foldl
  rwa [IndexMap.keys_empty, List.mem_nil_iff, false_or] at hfold

theorem get?_foldl {cells : List (String × V)} (hnodup : (cells.map Prod.fst).Nodup)
    {m : IndexMap String V} {key : String} {v : V} (hv : (key, v) ∈ cells) :
    (cells.foldl put m).get? key = some v := by
  induction cells generalizing m with
  | nil => cases hv
  | cons cell rest ih =>
      obtain ⟨hnot, hrest⟩ := List.nodup_cons.mp hnodup
      rw [List.foldl_cons]
      rcases List.mem_cons.mp hv with rfl | hlater
      · exact foldl_keeps hnot (by rw [put, IndexMap.get?_insert, if_pos rfl])
      · exact ih hrest hlater
where
  foldl_keeps {cells : List (String × V)} {m : IndexMap String V} {key : String} {v : V}
      (hnot : key ∉ cells.map Prod.fst) (hm : m.get? key = some v) :
      (cells.foldl put m).get? key = some v := by
    induction cells generalizing m with
    | nil => exact hm
    | cons cell rest ih =>
        rw [List.map_cons, List.mem_cons, not_or] at hnot
        exact ih hnot.2 (by rw [put, IndexMap.get?_insert, if_neg hnot.1, hm])

-- Cells under names that are all different are all kept.
theorem get?_collect {cells : List (String × V)} (hnodup : (cells.map Prod.fst).Nodup)
    {key : String} {v : V} (hv : (key, v) ∈ cells) : (collect cells).get? key = some v :=
  get?_foldl hnodup hv

end Collect

section Rows

theorem error_iff {ε α : Type} {x : Except ε α} : (∃ e, x = .error e) ↔ ¬∃ a, x = .ok a := by
  cases x <;> simp

-- The names of the columns go with the cells of the row, each as it is read.
theorem cells_of_mapM {names : List String} {row : List HranaValue}
    {cells : List (String × Arrays.Value T)} (hlength : row.length = names.length)
    (h : (names.zip row).mapM (fun cell => (fromHrana c cell.2).map fun v => (cell.1, v))
      = .ok cells) :
    cells.map Prod.fst = names ∧ cells.map (fun cell => .ok cell.2) = row.map (fromHrana c) := by
  induction row generalizing names cells with
  | nil =>
      obtain rfl := List.length_eq_zero_iff.mp hlength.symm
      obtain rfl := Except.ok.inj h
      exact ⟨rfl, rfl⟩
  | cons w row ih =>
      obtain ⟨name, names, rfl⟩ := List.exists_cons_of_length_eq_add_one hlength.symm
      rw [List.zip_cons_cons, List.mapM_cons] at h
      cases hfirst : fromHrana c w with
      | error e =>
          rw [hfirst] at h
          cases h
      | ok v =>
          cases hrest : (names.zip row).mapM
              fun cell => (fromHrana c cell.2).map fun v => (cell.1, v) with
          | error e =>
              rw [hfirst, hrest] at h
              cases h
          | ok rest =>
              rw [hfirst, hrest] at h
              obtain rfl := Except.ok.inj h
              obtain ⟨hnames, hvalues⟩ := ih (Nat.succ.inj hlength) hrest
              exact ⟨congrArg (name :: ·) hnames,
                by rw [List.map_cons, List.map_cons, hvalues, hfirst]⟩

theorem edgeRow_ok {names : List String} {row : List HranaValue}
    {m : IndexMap String (Arrays.Value T)} (h : edgeRow c names row = .ok m) :
    row.length = names.length ∧ ∃ cells, m = collect cells ∧ cells.map Prod.fst = names ∧
      cells.map (fun cell => .ok cell.2) = row.map (fromHrana c) := by
  unfold edgeRow at h
  by_cases hlength : row.length = names.length
  · rw [if_neg (not_not_intro hlength)] at h
    cases hcells : (names.zip row).mapM
        fun cell => (fromHrana c cell.2).map fun v => (cell.1, v) with
    | error e =>
        rw [hcells] at h
        cases h
    | ok cells =>
        rw [hcells] at h
        obtain rfl := Except.ok.inj h
        exact ⟨hlength, cells, rfl, cells_of_mapM hlength hcells⟩
  · rw [if_pos hlength] at h
    cases h

-- Each cell of a row is found under a key of its own, which is its column's name if that has one.
def Readable (c : Crates T) (r : ExecuteResult) (row : List HranaValue)
    (built : IndexMap String (Arrays.Value T)) : Prop :=
  ∃ keys : List String, keys.length = r.cols.length ∧ keys.Nodup ∧
    (∀ (i : Nat) (col : Col) (name : String),
      r.cols[i]? = some col → col.named = some name → keys[i]? = some name) ∧
    ∀ (i : Nat) (key : String) (w : HranaValue), keys[i]? = some key → row[i]? = some w →
      ∃ v, fromHrana c w = .ok v ∧ built.get? key = some v

variable {r : ExecuteResult} {row : List HranaValue} {built : IndexMap String (Arrays.Value T)}

theorem readable_of_distinct (h : edgeRow c r.columnNames row = .ok built)
    (hdistinct : DistinctNames r.cols) : Readable c r row built := by
  obtain ⟨-, cells, rfl, hnames, hvalues⟩ := edgeRow_ok h
  have hnodup := columnNames_nodup.mpr hdistinct
  refine ⟨r.columnNames, columnNames_length r, hnodup, ?_, ?_⟩
  · intro i col name hcol hname
    rw [columnNames_getElem?, hcol, Option.map_some, columnName, hname, Option.getD_some]
  · intro i key w hkey hw
    rw [← hnames, List.getElem?_map] at hkey
    obtain ⟨cell, hcell, rfl⟩ := Option.map_eq_some_iff.mp hkey
    have hread : some (Except.ok cell.2) = some (fromHrana c w) := by
      have hat := congrArg (·[i]?) hvalues
      simpa only [List.getElem?_map, hcell, hw, Option.map_some] using hat
    rw [← hnames] at hnodup
    exact ⟨cell.2, (Option.some.inj hread).symm,
      get?_collect hnodup (List.mem_of_getElem? hcell)⟩

-- There are no more keys in a row than different names of columns.
theorem distinct_of_readable (h : edgeRow c r.columnNames row = .ok built)
    (hreadable : Readable c r row built) : DistinctNames r.cols := by
  obtain ⟨hlength, cells, rfl, hnames, -⟩ := edgeRow_ok h
  obtain ⟨keys, hkeys, hnodup, -, hfound⟩ := hreadable
  have hsubset : keys ⊆ r.columnNames := by
    intro key hkey
    obtain ⟨i, hi, rfl⟩ := List.mem_iff_getElem.mp hkey
    have hrow : i < row.length := by
      rw [hlength, columnNames_length]
      omega
    obtain ⟨v, -, hv⟩ := hfound i _ _ (List.getElem?_eq_getElem hi) (List.getElem?_eq_getElem hrow)
    have hmem := IndexMap.mem_keys_iff_get?.mpr ⟨v, hv⟩
    rwa [mem_keys_collect, hnames] at hmem
  have hperm : keys.Perm r.columnNames :=
    (List.subperm_of_subset hnodup hsubset).perm_of_length_le (by rw [columnNames_length, hkeys])
  exact columnNames_nodup.mp (hperm.nodup_iff.mp hnodup)

theorem rows_readable_iff {rows : List (IndexMap String (Arrays.Value T))}
    (h : r.intoEdgeRows c = .ok rows) :
    List.Forall₂ (Readable c r) r.rows rows ↔ r.rows = [] ∨ DistinctNames r.cols := by
  have heach : List.Forall₂ (fun row m => edgeRow c r.columnNames row = .ok m) r.rows rows :=
    Fallible.forall₂_of_mapM h
  constructor
  · intro hreadable
    cases hrows : r.rows with
    | nil => exact .inl rfl
    | cons row rest =>
        rw [hrows] at heach hreadable
        obtain ⟨m, more, hbuilt, -, rfl⟩ := List.forall₂_cons_left_iff.mp heach
        exact .inr (distinct_of_readable hbuilt (List.forall₂_cons.mp hreadable).1)
  · rintro (hnone | hdistinct)
    · rw [hnone] at heach ⊢
      rw [List.forall₂_nil_left_iff.mp heach]
      exact List.Forall₂.nil
    · exact heach.imp fun _ _ hbuilt => readable_of_distinct hbuilt hdistinct

end Rows

-- What is sent is read back as it is bound, and rows keep their cells where names of columns, as
-- given or made up, do not meet.
theorem edge_iff (h : c.Base64) :
    (∀ v : Arrays.Value T, (∃ e, toHrana c v = .error e) ↔ takes v = false) ∧
    (∀ v w, toHrana c v = .ok w → ∃ v', fromHrana c w = .ok v' ∧ bound c v' = bound c v) ∧
    (∀ v : Arrays.Value T, (∃ e, toJson c v = .error e) ↔ takes v = false ∨ isBytes v = true) ∧
    (∀ v w, toJson c v = .ok w → bound c (fromJson c w) = bound c v) ∧
    ∀ r rows, r.intoEdgeRows c = .ok rows →
      (List.Forall₂ (Readable c r) r.rows rows ↔ r.rows = [] ∨ DistinctNames r.cols) := by
  refine ⟨fun v => ?_, fun v w => fromHrana_toHrana h, fun v => ?_, fun v w => fromJson_toJson,
    fun r rows => rows_readable_iff⟩
  · rw [error_iff, toHrana_isOk, Bool.not_eq_true]
  · rw [error_iff, toJson_isOk, not_and_or, Bool.not_eq_true, Bool.not_eq_false]

-- Other crates whose values are their texts, and bytes written as the characters of their numbers.
def latin : Crates String where
  print _ x := x
  float _ := ""
  number _ := ""
  json _ := ""
  encode b := String.ofList (b.map fun x => Char.ofNat x.toNat)
  decode s := .ok (s.toList.map fun d => UInt8.ofNat d.toNat)

theorem latin_base64 : latin.Base64 := by
  intro b
  have hbyte : ∀ x : UInt8, UInt8.ofNat (Char.ofNat x.toNat).toNat = x := by
    intro x
    have hlt := x.toNat_lt
    have hvalid : x.toNat.isValidChar := .inl (by omega)
    rw [Char.toNat_ofNat, if_pos hvalid, UInt8.ofNat_toNat]
  simp only [latin, String.toList_ofList, List.map_map]
  exact congrArg Except.ok (List.map_id'' hbyte b)

-- A number of 64 bits comes back whole, and a row of a column without a name can be read.
theorem edge_latin : (∀ w, toHrana latin (.i64 9007199254740993) = .ok w →
      ∃ v, fromHrana latin w = .ok v ∧ bound latin v = bound latin (.i64 9007199254740993)) ∧
    ∀ rows, ExecuteResult.intoEdgeRows latin ⟨[⟨none⟩], [[.integer "1"]]⟩ = .ok rows →
      (List.Forall₂ (Readable latin ⟨[⟨none⟩], [[.integer "1"]]⟩) [[.integer "1"]] rows ↔
        [[HranaValue.integer "1"]] = [] ∨ DistinctNames [⟨none⟩]) :=
  have hall := edge_iff latin_base64
  ⟨fun w => hall.2.1 _ w, fun rows => hall.2.2.2.2 _ rows⟩

-- A table joined with itself answers with the name of a column twice.
def joined : ExecuteResult where
  cols := [⟨some "id"⟩, ⟨some "id"⟩]
  rows := [[.integer "1", .integer "2"]]

theorem joined_loses : ¬∀ rows, joined.intoEdgeRows latin = .ok rows →
    List.Forall₂ (Readable latin joined) joined.rows rows := by
  intro hall
  have hrows : joined.intoEdgeRows latin = .ok [collect [("id", .i64 1), ("id", .i64 2)]] := rfl
  have hdistinct := (rows_readable_iff hrows).mp (hall _ hrows)
  rcases hdistinct with hnone | hdistinct
  · cases hnone
  · exact (hdistinct 0 1 _ _ Nat.zero_ne_one rfl rfl "id" rfl).1 rfl

end Ruprizzle.Runtime.Edge
