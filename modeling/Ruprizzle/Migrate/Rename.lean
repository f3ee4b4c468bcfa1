import Mathlib.Data.List.Infix
import Ruprizzle.Data.Edits
import Ruprizzle.Data.Extremes
import Ruprizzle.Migrate.Columns
import Ruprizzle.Migrate.Diff
import Ruprizzle.Parser.Build

namespace Ruprizzle.Rename

open Diff

structure RenameSuggestion where
  model : ModelName
  fromField : FieldName
  toField : FieldName
  fromColumn : String
  toColumn : String
  reason : String
  deriving DecidableEq, Repr

-- The row of the table behind row[j], which is overwritten from left to right.
def cells (left : Char) : Nat → Nat → List Nat → List Char → List Nat
  | written, diagonal, above :: row, right :: others =>
      let cell := if left = right then diagonal else 1 + min (min diagonal above) written
      cell :: cells left cell above row others
  | _, _, _, _ => []

def levenshtein (left right : String) : Nat :=
  let last := left.toList.zipIdx.foldl
    (fun row e => (e.2 + 1) :: cells e.1 (e.2 + 1) (row.headD 0) row.tail right.toList)
    (List.range (right.toList.length + 1))
  last.getD right.toList.length 0

def commonLength (left right : String) : Nat :=
  ((left.toList.zip right.toList).takeWhile fun e => e.1 = e.2).length

def lowercased (text : String) : String := String.ofList (text.toList.map Char.toLower)

def nameSimilarity (previous next : String) : Nat :=
  let previous := lowercased previous
  let next := lowercased next
  let distance := levenshtein previous next
  let maxLen := max previous.utf8ByteSize next.utf8ByteSize
  if maxLen = 0 then 3
  else if distance = 0 then 3
  else if distance * 2 ≤ maxLen ∨ next.toList <:+: previous.toList ∨
      previous.toList <:+: next.toList then 2
  else if 3 ≤ commonLength previous next then 1 else 0

def sameKind : FieldKind → FieldKind → Bool
  | .scalar a, .scalar b => a = b
  | .enum a, .enum b => a = b
  | _, _ => false

def candidateScore (previous next : Field) : Nat :=
  if sameKind previous.kind next.kind then
    3 + (if previous.optional = next.optional then 1 else 0) +
      (if DefaultValue.same previous.default next.default then 1 else 0) +
      min (nameSimilarity previous.name.str next.name.str) 3
  else 0

def added (changes : List Change) : List (ModelName × Field) :=
  changes.filterMap fun
    | .addColumn model field => some (model, field)
    | _ => none

def dropped (changes : List Change) : List (ModelName × String) :=
  changes.filterMap fun
    | .dropColumn model column => some (model, column)
    | _ => none

def candidatesAreUnambiguous (changes : List Change) (model : ModelName) : Bool :=
  (added changes).countP (·.1 = model) = 1 && (dropped changes).countP (·.1 = model) = 1

-- The columns of the previous model that the field may have been, with their scores.
def candidates (changes : List Change) (previousModel : Model) (model : ModelName)
    (field : Field) : List (Field × Nat) :=
  ((dropped changes).filter (·.1 = model)).filterMap fun e =>
    (previousModel.scalarFields.find? fun f => f.column = e.2).bind fun previousField =>
      let score := candidateScore previousField field
      if 6 ≤ score ∨ (4 ≤ score ∧ candidatesAreUnambiguous changes model = true) then
        some (previousField, score)
      else none

def suggestion (model : ModelName) (field previousField : Field) (score : Nat) :
    RenameSuggestion where
  model := model
  fromField := previousField.name
  toField := field.name
  fromColumn := previousField.column
  toColumn := field.column
  reason := "same type and nullability; field similarity score " ++ toString score ++ "/8"

def suggestRenames (previous next : Schema) (changes : List Change) : List RenameSuggestion :=
  (added changes).filterMap fun e =>
    (previous.models.get? e.1).bind fun previousModel =>
      (next.models.get? e.1).bind fun nextModel =>
        if (nextModel.fields.get? e.2.name).isNone then none
        else (Extremes.maxByKey Prod.snd (candidates changes previousModel e.1 e.2)).map
          fun best => suggestion e.1 e.2 best.1 best.2

section Levenshtein

theorem cells_row (left : Char) (p q right : List Char) {diagonal : Nat} {row : List Nat}
    (hrow : Edits.row p q right = diagonal :: row) :
    Edits.distance (left :: p) q :: cells left (Edits.distance (left :: p) q) diagonal row right =
      Edits.row (left :: p) q right := by
  induction right generalizing q diagonal row with
  | nil => cases row <;> rfl
  | cons c right ih =>
      obtain ⟨rest, hrest⟩ := Edits.row_cons p (c :: q) right
      rw [Edits.row, hrest] at hrow
      obtain ⟨rfl, rfl⟩ := List.cons.inj hrow
      have hcell : (if left = c then Edits.distance p q else 1 + min (min (Edits.distance p q)
          (Edits.distance p (c :: q))) (Edits.distance (left :: p) q)) =
          Edits.distance (left :: p) (c :: q) := by
        split
        · next heq => rw [heq, Edits.distance_cons_self]
        · next hne =>
            rw [Edits.distance_cons_cons, if_neg hne]
            omega
      rw [Edits.row, cells, hcell, ih (c :: q) hrest]

theorem levenshtein_eq (left right : String) :
    levenshtein left right = Edits.distance left.toList right.toList := by
  unfold levenshtein
  rw [List.getD_eq_getElem?_getD, Edits.foldl_rows (fun c p => ?_), Option.getD_some]
  obtain ⟨row, hrow⟩ := Edits.row_cons p [] right.toList
  have hnext := cells_row c p [] right.toList hrow
  rw [Edits.distance_nil_right, List.length_cons] at hnext
  dsimp only
  rw [hrow]
  exact hnext

-- The row that is overwritten in place gives the least number of edits, too.
theorem levenshtein_isLeast (left right : String) :
    IsLeast {n | Edits.Chain n left.toList right.toList} (levenshtein left right) := by
  rw [levenshtein_eq]
  exact Edits.isLeast_distance _ _

end Levenshtein

section Confirm

variable {host : Host} {previous next : Schema} {s : RenameSuggestion} {changes : List Change}
  {model : ModelName} {field : Field}

theorem mem_added : (model, field) ∈ added changes ↔ .addColumn model field ∈ changes := by
  unfold added
  rw [List.mem_filterMap]
  constructor
  · rintro ⟨c, hc, heq⟩
    split at heq
    · cases heq
      exact hc
    · cases heq
  · exact fun h => ⟨_, h, rfl⟩

theorem mem_dropped {column : String} :
    (model, column) ∈ dropped changes ↔ .dropColumn model column ∈ changes := by
  unfold dropped
  rw [List.mem_filterMap]
  constructor
  · rintro ⟨c, hc, heq⟩
    split at heq
    · cases heq
      exact hc
    · cases heq
  · exact fun h => ⟨_, h, rfl⟩

-- A score that is enough for a suggestion.
def Enough (changes : List Change) (model : ModelName) (score : Nat) : Prop :=
  6 ≤ score ∨ (4 ≤ score ∧ candidatesAreUnambiguous changes model = true)

theorem mem_candidates {previousModel : Model} {f : Field} {score : Nat} :
    (f, score) ∈ candidates changes previousModel model field ↔
      ∃ column, .dropColumn model column ∈ changes ∧
        (previousModel.scalarFields.find? fun f => f.column = column) = some f ∧
        score = candidateScore f field ∧ Enough changes model score := by
  unfold candidates
  rw [List.mem_filterMap]
  constructor
  · rintro ⟨⟨m, column⟩, he, heq⟩
    obtain ⟨hdropped, hmodel⟩ := List.mem_filter.mp he
    obtain rfl : m = model := of_decide_eq_true hmodel
    obtain ⟨g, hfind, hg⟩ := Option.bind_eq_some_iff.mp heq
    dsimp only at hg
    split at hg
    · next henough =>
        cases hg
        exact ⟨column, mem_dropped.mp hdropped, hfind, rfl, henough⟩
    · cases hg
  · rintro ⟨column, hdropped, hfind, rfl, henough⟩
    refine ⟨(model, column), List.mem_filter.mpr ⟨mem_dropped.mpr hdropped, decide_eq_true rfl⟩, ?_⟩
    rw [hfind, Option.bind_some]
    exact if_pos henough

theorem sameKind_of_score {f g : Field} (h : 0 < candidateScore f g) :
    sameKind f.kind g.kind = true := by
  unfold candidateScore at h
  split at h
  · assumption
  · cases h

theorem find_column {p : Model} (h : (p.scalarFields.map Field.column).Nodup) {f : Field}
    (hf : f ∈ p.scalarFields) : (p.scalarFields.find? fun g => g.column = f.column) = some f := by
  cases hfind : p.scalarFields.find? fun g => g.column = f.column with
  | none => simpa using List.find?_eq_none.mp hfind f hf
  | some g =>
      have hcolumn := List.find?_some hfind
      rw [decide_eq_true_eq] at hcolumn
      rw [List.inj_on_of_nodup_map h (List.mem_of_find?_eq_some hfind) hf hcolumn]

-- What a suggestion stands for: a column that is dropped and one that is added.
structure Suggested (previous next : Schema) (changes : List Change) (s : RenameSuggestion)
    (p n : Model) (f g : Field) : Prop where
  previousModel : (s.model, p) ∈ previous.models.entries
  nextModel : (s.model, n) ∈ next.models.entries
  drops : .dropColumn s.model f.column ∈ changes
  adds : .addColumn s.model g ∈ changes
  previousField : f ∈ p.scalarFields
  nextField : g.name ∈ n.fields.keys
  eq : s = suggestion s.model g f (candidateScore f g)
  kind : sameKind f.kind g.kind = true
  best : ∀ f' ∈ p.scalarFields, .dropColumn s.model f'.column ∈ changes →
    candidateScore f' g ≤ candidateScore f g

theorem suggested_of_mem (hcolumns : ∀ m ∈ previous.models.values,
      (m.scalarFields.map Field.column).Nodup)
    (hs : s ∈ suggestRenames previous next changes) :
    ∃ p n f g, Suggested previous next changes s p n f g := by
  obtain ⟨⟨model, g⟩, hadded, hs⟩ := List.mem_filterMap.mp hs
  obtain ⟨p, hp, hs⟩ := Option.bind_eq_some_iff.mp hs
  obtain ⟨n, hn, hs⟩ := Option.bind_eq_some_iff.mp hs
  have hp := IndexMap.get?_eq_some.mp hp
  have hnodup := hcolumns p (IndexMap.mem_values.mpr ⟨_, hp⟩)
  split at hs
  · cases hs
  · next hknown =>
      obtain ⟨⟨f, score⟩, hbest, rfl⟩ := Option.map_eq_some_iff.mp hs
      obtain ⟨first, last, heq, hfirst, hlast⟩ := Extremes.maxByKey_iff.mp hbest
      have hmem : (f, score) ∈ candidates changes p model g := by
        rw [heq]
        exact List.mem_append_right _ List.mem_cons_self
      obtain ⟨column, hdropped, hfind, rfl, henough⟩ := mem_candidates.mp hmem
      have hcolumn := List.find?_some hfind
      rw [decide_eq_true_eq] at hcolumn
      subst hcolumn
      refine ⟨p, n, f, g, hp, IndexMap.get?_eq_some.mp hn, hdropped, mem_added.mp hadded,
        List.mem_of_find?_eq_some hfind, ?_, rfl, sameKind_of_score ?_, fun f' hf' hdrop => ?_⟩
      · rw [Option.isNone_iff_eq_none, IndexMap.get?_eq_none, not_not] at hknown
        exact hknown
      · rcases henough with h | h
        · omega
        · omega
      · by_cases hother : Enough changes model (candidateScore f' g)
        · have hcandidate : (f', candidateScore f' g) ∈ candidates changes p model g :=
            mem_candidates.mpr ⟨f'.column, hdrop, find_column hnodup hf', rfl, hother⟩
          rw [show candidates changes p model g = _ from heq] at hcandidate
          rcases List.mem_append.mp hcandidate with h | h
          · exact hfirst _ h
          · rcases List.mem_cons.mp h with h | h
            · rw [(Prod.mk.inj h).2]
            · exact Nat.le_of_lt (hlast _ h)
        · rw [Enough, not_or, not_and] at hother
          rcases henough with h | ⟨h, hlone⟩
          · omega
          · have hlow : ¬ 4 ≤ candidateScore f' g := fun h' => hother.2 h' hlone
            omega

-- The hint that confirms a suggestion, on the field of the next schema.
def hinted (s : RenameSuggestion) (f : Field) : Field :=
  { f with attrs := { f.attrs with renamedFrom := some s.fromField.str } }

def hintedModel (s : RenameSuggestion) (m : Model) : Model :=
  { m with fields := m.fields.modify s.toField (hinted s) }

def confirm (next : Schema) (s : RenameSuggestion) : Schema :=
  { next with models := next.models.modify s.model (hintedModel s) }

theorem mem_hintedModel {n : Model} {name : FieldName} :
    (name, field) ∈ (hintedModel s n).fields.entries ↔ ∃ f, (name, f) ∈ n.fields.entries ∧
      field = if name = s.toField then hinted s f else f :=
  IndexMap.mem_entries_modify

theorem mem_confirm {n : Model} : (model, n) ∈ (confirm next s).models.entries ↔
    ∃ m, (model, m) ∈ next.models.entries ∧ n = if model = s.model then hintedModel s m else m :=
  IndexMap.mem_entries_modify

-- The columns that are dropped and added between two models, before and after the hint
-- is put on a field that is added.
section Hinted

variable {p n : Model} {f g : Field}

theorem mem_hints_hinted (hname : s.fromField = f.name) (hf : (f.name, f) ∈ p.fields.entries)
    (hfc : f.hasColumn = true) (hg : (s.toField, g) ∈ n.fields.entries)
    (hgc : g.hasColumn = true) (hnew : s.toField ∉ renamed p n) {h : Hint} :
    h ∈ hints p (hintedModel s n) ↔
      h ∈ hints p n ∨ h = ⟨s.toField, hinted s g, f.name, f⟩ := by
  constructor
  · intro hh
    obtain ⟨hfield, hold, hprev, hpc, hc⟩ := mem_hints.mp hh
    obtain ⟨g', hg', heq⟩ := mem_hintedModel.mp hfield
    by_cases hto : h.newName = s.toField
    · rw [if_pos hto] at heq
      rw [hto] at hg'
      obtain rfl := IndexMap.entry_unique hg hg'
      have holdName : h.oldName = f.name := by
        rw [heq] at hold
        rw [← hname]
        exact congrArg FieldName.mk (Option.some.inj hold).symm
      rw [holdName] at hprev
      have hprevField := IndexMap.entry_unique hf hprev
      refine Or.inr ?_
      cases h
      simp only at hto heq holdName hprevField
      rw [hto, heq, holdName, hprevField]
    · rw [if_neg hto] at heq
      rw [← heq] at hg'
      exact Or.inl (mem_hints.mpr ⟨hg', hold, hprev, hpc, hc⟩)
  · rintro (hh | rfl)
    · obtain ⟨hfield, hold, hprev, hpc, hc⟩ := mem_hints.mp hh
      have hto : h.newName ≠ s.toField := fun hto => hnew (hto ▸ List.mem_map_of_mem hh)
      refine mem_hints.mpr ⟨mem_hintedModel.mpr ⟨h.field, hfield, ?_⟩, hold, hprev, hpc, hc⟩
      rw [if_neg hto]
    · refine mem_hints.mpr ⟨mem_hintedModel.mpr ⟨g, hg, (if_pos rfl).symm⟩, ?_, hf, hfc, hgc⟩
      rw [← hname]
      rfl

variable (hname : s.fromField = f.name) (hf : (f.name, f) ∈ p.fields.entries)
  (hfc : f.hasColumn = true) (hg : (s.toField, g) ∈ n.fields.entries) (hgc : g.hasColumn = true)
  (hnew : s.toField ∉ renamed p n)
include hname hf hfc hg hgc hnew

theorem mem_renamed_hinted {name : FieldName} :
    name ∈ renamed p (hintedModel s n) ↔ name ∈ renamed p n ∨ name = s.toField := by
  unfold renamed
  simp only [List.mem_map, mem_hints_hinted hname hf hfc hg hgc hnew, or_and_right, exists_or,
    exists_eq_left, eq_comm (a := s.toField)]

theorem mem_consumed_hinted {name : FieldName} :
    name ∈ consumed p (hintedModel s n) ↔ name ∈ consumed p n ∨ name = f.name := by
  unfold consumed
  simp only [List.mem_map, mem_hints_hinted hname hf hfc hg hgc hnew, or_and_right, exists_or,
    exists_eq_left, eq_comm (a := f.name)]

theorem mem_droppedColumns_hinted (hp : p.ColumnNamed) (hfree : s.toField ∉ p.fields.keys)
    {f' : Field} :
    f' ∈ droppedColumns p (hintedModel s n) ↔ f' ∈ droppedColumns p n ∧ f' ≠ f := by
  have hkeys : (hintedModel s n).fields.keys = n.fields.keys := IndexMap.keys_modify _ _ _
  simp only [mem_droppedColumns, mem_renamed_hinted hname hf hfc hg hgc hnew,
    mem_consumed_hinted hname hf hfc hg hgc hnew, hkeys, not_or]
  constructor
  · rintro ⟨name, hmem, ⟨hkept, hother⟩, hc, hgone⟩
    have hto : name ≠ s.toField := fun hto => hfree (IndexMap.mem_keys.mpr ⟨f', hto ▸ hmem⟩)
    refine ⟨⟨name, hmem, hkept, hc, hgone.imp_right fun h => h.resolve_right hto⟩, ?_⟩
    rintro rfl
    exact hother (hp.named _ _ hmem).symm
  · rintro ⟨⟨name, hmem, hkept, hc, hgone⟩, hne⟩
    refine ⟨name, hmem, ⟨hkept, fun hname' => hne ?_⟩, hc, hgone.imp_right Or.inl⟩
    exact IndexMap.entry_unique (hname' ▸ hmem) hf

theorem mem_addedColumns_hinted {g' : Field} (hn : n.ColumnNamed) :
    g' ∈ addedColumns p (hintedModel s n) ↔ g' ∈ addedColumns p n ∧ g'.name ≠ s.toField := by
  simp only [mem_addedColumns, mem_renamed_hinted hname hf hfc hg hgc hnew, not_or]
  constructor
  · rintro ⟨name, hmem, ⟨hkept, hto⟩, hc, hfresh⟩
    obtain ⟨g'', hmem', heq⟩ := mem_hintedModel.mp hmem
    rw [if_neg hto] at heq
    rw [← heq] at hmem'
    exact ⟨⟨name, hmem', hkept, hc, hfresh⟩, fun h => hto ((hn.named _ _ hmem').symm.trans h)⟩
  · rintro ⟨⟨name, hmem, hkept, hc, hfresh⟩, hto⟩
    rw [hn.named _ _ hmem] at hto
    exact ⟨name, mem_hintedModel.mpr ⟨g', hmem, (if_neg hto).symm⟩, ⟨hkept, hto⟩, hc, hfresh⟩

end Hinted

theorem mem_diff_iff {c : Change} (hk : c.kind = .column) (hmodel : c.model? = some model) :
    c ∈ diff host previous next ↔ ∃ p n, (model, p) ∈ previous.models.entries ∧
      (model, n) ∈ next.models.entries ∧ c ∈ diffColumns model p n := by
  constructor
  · intro h
    have hmodels : c ∈ diffModels previous next := by
      rcases List.mem_append.mp h with h | h
      · rcases List.mem_append.mp h with h | h
        · simp [(mem_diffEnums h).1] at hk
        · exact h
      · simp [kind_of_mem_diffRelations h] at hk
    rcases mem_diffModels.mp hmodels with ⟨_, _, rfl, _⟩ | ⟨_, _, rfl, _⟩ |
      ⟨name, p, n, hp, hn, hc | hc | hc⟩
    · cases hk
    · cases hk
    · obtain rfl := Option.some.inj ((kind_of_mem_diffColumns hc).2.symm.trans hmodel)
      exact ⟨p, n, hp, hn, hc⟩
    · simp [(kind_of_mem_diffIndexes hc).1] at hk
    · simp [(kind_of_mem_diffUniques hc).1] at hk
  · rintro ⟨p, n, hp, hn, hc⟩
    refine List.mem_append_left _ (List.mem_append_right _ ?_)
    exact mem_diffModels.mpr (Or.inr (Or.inr ⟨model, p, n, hp, hn, Or.inl hc⟩))

theorem dropColumn_mem_diff {column : String} :
    .dropColumn model column ∈ diff host previous next ↔
      ∃ p n, (model, p) ∈ previous.models.entries ∧ (model, n) ∈ next.models.entries ∧
        ∃ f ∈ droppedColumns p n, column = f.column := by
  rw [mem_diff_iff rfl rfl]
  refine exists_congr fun p => exists_congr fun n => and_congr_right fun _ =>
    and_congr_right fun _ => ?_
  rw [mem_diffColumns]
  constructor
  · rintro (⟨h, _, hc⟩ | ⟨f, _, hc⟩ | ⟨f, hf, hc⟩ | ⟨_, f, g, _, hc⟩)
    · rcases mem_hintChanges.mp hc with hc | hc
      · cases hc
      · cases (mem_alterIfChanged.mp hc).2
    · cases hc
    · cases hc
      exact ⟨f, hf, rfl⟩
    · rcases mem_keptChanges.mp hc with ⟨_, hc⟩ | hc
      · cases hc
      · cases (mem_alterIfChanged.mp hc).2
  · rintro ⟨f, hf, rfl⟩
    exact Or.inr (Or.inr (Or.inl ⟨f, hf, rfl⟩))

theorem addColumn_mem_diff :
    .addColumn model field ∈ diff host previous next ↔
      ∃ p n, (model, p) ∈ previous.models.entries ∧ (model, n) ∈ next.models.entries ∧
        field ∈ addedColumns p n := by
  rw [mem_diff_iff rfl rfl]
  refine exists_congr fun p => exists_congr fun n => and_congr_right fun _ =>
    and_congr_right fun _ => ?_
  rw [mem_diffColumns]
  constructor
  · rintro (⟨h, _, hc⟩ | ⟨f, hf, hc⟩ | ⟨f, _, hc⟩ | ⟨_, f, g, _, hc⟩)
    · rcases mem_hintChanges.mp hc with hc | hc
      · cases hc
      · cases (mem_alterIfChanged.mp hc).2
    · cases hc
      exact hf
    · cases hc
    · rcases mem_keptChanges.mp hc with ⟨_, hc⟩ | hc
      · cases hc
      · cases (mem_alterIfChanged.mp hc).2
  · exact fun hf => Or.inr (Or.inl ⟨field, hf, rfl⟩)

-- Two models of one name, one of them maybe with the hint.
theorem exists_confirm {p n : Model} (hp : (s.model, p) ∈ previous.models.entries)
    (hn : (s.model, n) ∈ next.models.entries) {R R' : Model → Model → Prop} {Other : Prop}
    (hsame : R p (hintedModel s n) ↔ R' p n ∧ ¬ Other)
    (hothers : ∀ p n, model ≠ s.model → (R p n ↔ R' p n)) :
    (∃ p n, (model, p) ∈ previous.models.entries ∧ (model, n) ∈ (confirm next s).models.entries ∧
        R p n) ↔
      (∃ p n, (model, p) ∈ previous.models.entries ∧ (model, n) ∈ next.models.entries ∧ R' p n) ∧
        ¬ (model = s.model ∧ Other) := by
  by_cases hmodel : model = s.model
  · subst hmodel
    constructor
    · rintro ⟨p', n', hp', hn', hr⟩
      obtain ⟨m, hm, rfl⟩ := mem_confirm.mp hn'
      obtain rfl := IndexMap.entry_unique hp hp'
      obtain rfl := IndexMap.entry_unique hn hm
      rw [if_pos rfl] at hr
      exact ⟨⟨p, n, hp, hn, (hsame.mp hr).1⟩, fun h => (hsame.mp hr).2 h.2⟩
    · rintro ⟨⟨p', n', hp', hn', hr⟩, hother⟩
      obtain rfl := IndexMap.entry_unique hp hp'
      obtain rfl := IndexMap.entry_unique hn hn'
      refine ⟨p, hintedModel s n, hp, mem_confirm.mpr ⟨n, hn, (if_pos rfl).symm⟩, ?_⟩
      exact hsame.mpr ⟨hr, fun h => hother ⟨rfl, h⟩⟩
  · constructor
    · rintro ⟨p', n', hp', hn', hr⟩
      obtain ⟨m, hm, rfl⟩ := mem_confirm.mp hn'
      rw [if_neg hmodel] at hr
      exact ⟨⟨p', m, hp', hm, (hothers p' m hmodel).mp hr⟩, fun h => hmodel h.1⟩
    · rintro ⟨⟨p', n', hp', hn', hr⟩, -⟩
      refine ⟨p', n', hp', mem_confirm.mpr ⟨n', hn', (if_neg hmodel).symm⟩, ?_⟩
      exact (hothers p' n' hmodel).mpr hr

theorem suggested_of_diff (hprevious : previous.WellFormed)
    (hs : s ∈ suggestRenames previous next (diff host previous next)) :
    ∃ p n f g, Suggested previous next (diff host previous next) s p n f g :=
  suggested_of_mem hprevious.columns hs

end Confirm

-- A suggestion speaks of a column that would be dropped and one of its type that would
-- be added. With the hint it asks for, the one is renamed to the other and nothing else
-- is dropped or added, or no longer so.
theorem confirm_diff {host : Host} {previous next : Schema} {s : RenameSuggestion}
    (hprevious : Accepted previous) (hnext : Accepted next)
    (hs : s ∈ suggestRenames previous next (diff host previous next)) :
    (∃ p n f g, Suggested previous next (diff host previous next) s p n f g) ∧
    .renameColumn s.model s.fromField s.toField s.fromColumn s.toColumn ∈
      diff host previous (confirm next s) ∧
    (∀ model column, .dropColumn model column ∈ diff host previous (confirm next s) ↔
      .dropColumn model column ∈ diff host previous next ∧
        ¬ (model = s.model ∧ column = s.fromColumn)) ∧
    ∀ model field, .addColumn model field ∈ diff host previous (confirm next s) ↔
      .addColumn model field ∈ diff host previous next ∧
        ¬ (model = s.model ∧ field.name = s.toField) := by
  obtain ⟨p, n, f, g, hsuggested⟩ := suggested_of_diff hprevious.wellFormed hs
  have hp := hprevious.wellFormed.columnNamed hsuggested.previousModel
  have hn := hnext.wellFormed.columnNamed hsuggested.nextModel
  have hfrom : s.fromField = f.name := by rw [hsuggested.eq]; rfl
  have hto : s.toField = g.name := by rw [hsuggested.eq]; rfl
  have hfromColumn : s.fromColumn = f.column := by rw [hsuggested.eq]; rfl
  have htoColumn : s.toColumn = g.column := by rw [hsuggested.eq]; rfl
  obtain ⟨hf, hfc⟩ := hp.mem_scalarFields.mp hsuggested.previousField
  have hadded : g ∈ addedColumns p n := by
    obtain ⟨p', n', hp', hn', hg⟩ := addColumn_mem_diff.mp hsuggested.adds
    rwa [IndexMap.entry_unique hsuggested.previousModel hp',
      IndexMap.entry_unique hsuggested.nextModel hn']
  obtain ⟨name, hg, hnew, hgc, hfree⟩ := mem_addedColumns.mp hadded
  obtain rfl := hn.named name g hg
  rw [← hto] at hg hnew hfree
  refine ⟨⟨p, n, f, g, hsuggested⟩, ?_, fun model column => ?_, fun model field => ?_⟩
  · refine (mem_diff_iff rfl rfl).mpr ⟨p, hintedModel s n, hsuggested.previousModel,
      mem_confirm.mpr ⟨n, hsuggested.nextModel, (if_pos rfl).symm⟩, mem_diffColumns.mpr (Or.inl ?_)⟩
    refine ⟨_, (mem_hints_hinted hfrom hf hfc hg hgc hnew).mpr (Or.inr rfl),
      mem_hintChanges.mpr (Or.inl ?_)⟩
    rw [hfrom, hfromColumn, htoColumn]
    rfl
  · rw [dropColumn_mem_diff, dropColumn_mem_diff]
    refine exists_confirm hsuggested.previousModel hsuggested.nextModel ?_ fun _ _ _ => Iff.rfl
    simp only [mem_droppedColumns_hinted hfrom hf hfc hg hgc hnew hp hfree]
    constructor
    · rintro ⟨f', ⟨hf', hne⟩, rfl⟩
      refine ⟨⟨f', hf', rfl⟩, fun hcolumn => hne ?_⟩
      exact hp.eq_of_column (dropped_mem hp hf') hsuggested.previousField
        (hcolumn.trans hfromColumn)
    · rintro ⟨⟨f', hf', rfl⟩, hne⟩
      exact ⟨f', ⟨hf', fun h => hne (by rw [h, hfromColumn])⟩, rfl⟩
  · rw [addColumn_mem_diff, addColumn_mem_diff]
    exact exists_confirm hsuggested.previousModel hsuggested.nextModel
      (mem_addedColumns_hinted hfrom hf hfc hg hgc hnew hn) fun _ _ _ => Iff.rfl

-- A field `name` that comes back as `displayName`.

def schemaWith (field : String) : Schema :=
  (Build.schema "sqlite" [Build.model "User" [Build.idField,
    Build.field field "String" .required []] []]).lowered

def displayName : RenameSuggestion :=
  ⟨⟨"User"⟩, ⟨"name"⟩, ⟨"displayName"⟩, "name", "display_name",
    "same type and nullability; field similarity score 7/8"⟩

theorem confirm_displayName :
    .renameColumn ⟨"User"⟩ ⟨"name"⟩ ⟨"displayName"⟩ "name" "display_name" ∈
      diff .std (schemaWith "name") (confirm (schemaWith "displayName") displayName) :=
  (confirm_diff (accepted_lowered (by decide +kernel)) (accepted_lowered (by decide +kernel))
    (by decide +kernel)).2.1

end Ruprizzle.Rename
