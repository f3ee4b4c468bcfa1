import Ruprizzle.Codegen.Helpers

namespace Ruprizzle.Codegen

open Ruprizzle.Runtime hiding Model
open Conditions Nesting

-- What the filters select, and what the includes load.

variable {S Key : Type} {answers : Answers S} {db : Database} {q : QuantifierHelpers}
  {f : FilterNode S} {env : Env}

theorem steady_not (h : f.Steady answers.d answers.reading) :
    (FilterNode.not f).Steady answers.d answers.reading := by
  intro node hnode
  obtain rfl := List.mem_singleton.mp hnode
  rw [words_not, List.cons_append]
  have hbrackets : Tight (language answers.d)
      (.open_ :: f.words answers.d answers.reading ++ [Word.close]) :=
    tight_wrapped (L := language answers.d) rfl rfl h.contained.whole
  exact Tight.contained (.cons rfl hbrackets)

theorem says_yes {table : String} {row : Row} : truthOf answers db env table f row = .yes ↔
    answers.engine.holds db answers.d answers.reading (env.bind table row) f = true := by
  rw [truthOf, Engine.holds, decide_eq_true_iff]

theorem and_eq_yes {a b : Truth} : a.and b = .yes ↔ a = .yes ∧ b = .yes := by
  cases a <;> cases b <;> simp [Truth.and]

theorem negate_eq_yes {b : Bool} : Truth.negate true (Truth.ofBool b) = .yes ↔ b = false := by
  cases b <;> simp [Truth.negate, Truth.ofBool, Truth.not]

theorem not_eq_yes {t : Truth} : t.not = .yes ↔ t = .no := by
  cases t <;> simp [Truth.not]

namespace QuantifierHelpers

-- The comparison of the two columns, in which an inner row stands for its table,
-- whichever table that is.
def meets (engine : Engine) (q : QuantifierHelpers) (env : Env) (row : Row) : Bool :=
  decide (engine.compare .eq (row q.childCol)
    ((env.bind q.childTable row) q.parentTable q.parentCol) = .yes) && row.live q.deletedAt

theorem steady_live (h : f.Steady answers.d answers.reading) :
    (q.live f).Steady answers.d answers.reading := by
  rw [live]
  split
  · exact h.and (FilterNode.steady_null _ _ _)
  · exact h

theorem says_live (h : f.Steady answers.d answers.reading) (row : Row) :
    truthOf answers db env q.childTable (q.live f) row = .yes ↔
      truthOf answers db env q.childTable f row = .yes ∧ row.live q.deletedAt = true := by
  have hrow : ∀ col, (env.bind q.childTable row) q.childTable col = row col := fun col =>
    congrFun (if_pos rfl) col
  rw [live, says_yes, says_yes]
  split
  · next col hcol =>
      rw [h.holds_and (FilterNode.steady_null _ _ _), holds_null, hrow, Row.live, hcol,
        Option.all_some, Bool.and_eq_true, Bool.bne_false]
  · next hnone =>
      simp [Row.live, hnone]

theorem selected_exists (h : f.Steady answers.d answers.reading) (negated : Bool) :
    answers.engine.truth db answers.d env ((q.exists_ f negated).words answers.d answers.reading)
      = Truth.negate negated (Truth.ofBool ((db q.childTable).any fun row =>
          q.meets answers.engine env row && decide (truthOf answers db env q.childTable f row = .yes))) := by
  have hcontained := (steady_live (q := q) h).contained
  have hwhole := whole_keyed q.childTable q.childCol q.parentTable q.parentCol hcontained.whole
  rw [exists_, words_exists, truth_negated negated (tight_exists q.childTable hwhole),
    truth_exists hwhole]
  congr 3
  funext row
  rw [Bool.eq_iff_iff, decide_eq_true_iff, truth_keyed hcontained, and_eq_yes]
  have hlive : truthOf answers db env q.childTable (q.live f) row = .yes ↔ _ := says_live h row
  rw [truthOf] at hlive
  have hrow : (env.bind q.childTable row) q.childTable q.childCol = row q.childCol :=
    congrFun (if_pos rfl) q.childCol
  rw [hlive, hrow, meets]
  simp only [Bool.and_eq_true, decide_eq_true_iff]
  tauto

theorem selected_some (h : f.Steady answers.d answers.reading) :
    selected answers db env (q.some_ f) ↔ ∃ row ∈ db q.childTable,
      q.meets answers.engine env row = true ∧ truthOf answers db env q.childTable f row = .yes := by
  rw [selected, some_, selected_exists h]
  simp [Truth.negate]

theorem selected_none (h : f.Steady answers.d answers.reading) :
    selected answers db env (q.none_ f) ↔ ∀ row ∈ db q.childTable,
      q.meets answers.engine env row = true → truthOf answers db env q.childTable f row ≠ .yes := by
  rw [selected, none_, selected_exists h, negate_eq_yes, List.any_eq_false]
  simp

theorem selected_every (h : f.Steady answers.d answers.reading) :
    selected answers db env (q.every f) ↔ ∀ row ∈ db q.childTable,
      q.meets answers.engine env row = true → truthOf answers db env q.childTable f row ≠ .no := by
  have hnot : ∀ row, truthOf answers db env q.childTable (.not f) row
      = (truthOf answers db env q.childTable f row).not := fun row => truth_not h.contained.whole
  rw [selected, every, selected_exists (steady_not h), negate_eq_yes, List.any_eq_false]
  simp only [hnot, Bool.and_eq_true, decide_eq_true_iff, not_eq_yes, not_and]

end QuantifierHelpers

-- Where the comparison tells the rows that a row leads to, nothing but a row that
-- the filter leaves open comes between.
theorem selects_iff {a : Along} {m : Model} (h : f.Steady answers.d answers.reading)
    (htable : q.childTable = a.child.table)
    (hmeets : ∀ row ∈ db q.childTable,
      q.meets answers.engine env row = a.leads answers.engine (env m.table) row) :
    Selects answers db q a m env f ↔ Decided answers db a m env f := by
  have hrelated : ∀ row, row ∈ a.related answers.engine db (env m.table) ↔
      row ∈ db q.childTable ∧ q.meets answers.engine env row = true := by
    intro row
    rw [Along.related, List.mem_filter, ← htable]
    exact and_congr_right fun hrow => by rw [hmeets row hrow]
  have hnone : selected answers db env (q.none_ f) ↔ _ := QuantifierHelpers.selected_none h
  have hsome : selected answers db env (q.some_ f) ↔ _ := QuantifierHelpers.selected_some h
  have hevery : selected answers db env (q.every f) ↔ _ := QuantifierHelpers.selected_every h
  rw [htable] at hnone hsome hevery
  constructor
  · rintro ⟨-, -, hall⟩ ⟨row, hrow, hopen⟩
    by_contra hno
    refine absurd (hall.mp (hevery.mpr fun other hother hmet hfails => ?_) row hrow) (by rw [hopen]; simp)
    exact hno ⟨other, (hrelated other).mpr ⟨htable ▸ hother, hmet⟩, hfails⟩
  · intro hdecided
    refine ⟨?_, ?_, ?_⟩
    · rw [hsome]
      simp only [hrelated, and_assoc, htable]
    · rw [hnone]
      simp only [hrelated, and_imp, htable]
    · rw [hevery]
      constructor
      · intro hall row hrow
        have hpasses : ∀ other ∈ a.related answers.engine db (env m.table),
            truthOf answers db env a.child.table f other ≠ .no := fun other hother => by
          obtain ⟨hmem, hmet⟩ := (hrelated other).mp hother
          exact hall other (htable ▸ hmem) hmet
        cases hrow' : truthOf answers db env a.child.table f row with
        | yes => rfl
        | no => exact absurd hrow' (hpasses row hrow)
        | unknown =>
            obtain ⟨other, hother, hfails⟩ := hdecided ⟨row, hrow, hrow'⟩
            exact absurd hfails (hpasses other hother)
      · intro hall row hrow hmet hfails
        rw [hall row ((hrelated row).mpr ⟨htable ▸ hrow, hmet⟩)] at hfails
        exact absurd hfails (by simp)

-- What is generated for a field, and what the field stands for.

section

variable {s : Schema} {m : Model} {fd : Field} {a : Along} {h : RelationHelper}

theorem along_eq (ha : along s m fd = some a) : resolvedRelation s fd = some a.rel ∧
    s.models.get? (direction a.rel (ownSide m fd a.rel)).child = some a.child ∧
    a.pairs = (direction a.rel (ownSide m fd a.rel)).parentCols.zip
      (direction a.rel (ownSide m fd a.rel)).childCols := by
  simp only [along, Option.bind_eq_bind, Option.bind_eq_some_iff, Option.pure_def,
    Option.some.injEq] at ha
  obtain ⟨rel, hrel, child, hchild, rfl⟩ := ha
  exact ⟨hrel, hchild, rfl⟩

-- Only on a self relation do the sides come apart, and there the child is the same.
theorem ownSide_eq {rel : ResolvedRelation} (h : rel.owner ≠ rel.target) :
    ownSide m fd rel = ownsByModel m rel := by
  simp [ownSide, ownsByModel, h]

theorem child_eq (rel : ResolvedRelation) :
    (direction rel (ownsByModel m rel)).child = (direction rel (ownSide m fd rel)).child := by
  by_cases hself : rel.owner = rel.target
  · simp only [direction, hself]
    split <;> split <;> rfl
  · rw [ownSide_eq hself]

-- The names that the filters are written with.
structure Compared (m : Model) (a : Along) (q : QuantifierHelpers) : Prop where
  childTable : q.childTable = a.child.table
  parentTable : q.parentTable = m.table
  deletedAt : q.deletedAt = deletedAtColumn a.child
  parentCol : (direction a.rel (ownsByModel m a.rel)).parentCols.head? = some q.parentCol
  childCol : (direction a.rel (ownsByModel m a.rel)).childCols.head? = some q.childCol

theorem compared_of_emit (ha : along s m fd = some a)
    (hq : emitRelationFilterHelpers s m fd = some q) : Compared m a q := by
  obtain ⟨hrel, hchild, -⟩ := along_eq ha
  simp only [emitRelationFilterHelpers, Option.bind_eq_bind, Option.bind_eq_some_iff] at hq
  obtain ⟨rel, hrel', parentCol, hparent, childCol, hchildCol, child, hget, hsome⟩ := hq
  obtain rfl : rel = a.rel := Option.some.inj (hrel'.symm.trans hrel)
  obtain rfl : child = a.child := by
    have hchildOf := @child_eq m fd a.rel
    rw [hchildOf] at hget
    exact Option.some.inj (hget.symm.trans hchild)
  split at hsome
  · exact absurd hsome (by simp)
  · obtain rfl := Option.some.inj hsome
    exact ⟨rfl, rfl, rfl, hparent, hchildCol⟩

structure Keyed (m : Model) (a : Along) (h : RelationHelper) : Prop where
  child : h.child = a.child
  parentKey : h.parentKey ∈ m.scalarFields
  childKey : h.childKey ∈ a.child.scalarFields
  parentRequired : h.parentKey.optional = false
  childRequired : h.childKey.optional = false
  parentCol : (direction a.rel (ownsByModel m a.rel)).parentCols.head? = some h.parentKey.column
  childCol : (direction a.rel (ownsByModel m a.rel)).childCols.head? = some h.childKey.column

theorem findFieldByColumn_eq {column : String} {g : Field} (hg : findFieldByColumn m column = some g) :
    g ∈ m.scalarFields ∧ g.column = column := by
  have hfound := List.find?_some hg
  rw [Bool.and_eq_true, decide_eq_true_iff] at hfound
  exact ⟨List.mem_filter.mpr ⟨List.mem_of_find?_eq_some hg, hfound.1⟩, hfound.2⟩

theorem get?_name (hs : s.WellFormed) (hm : m ∈ s.models.values) : s.models.get? m.name = some m := by
  obtain ⟨k, hk⟩ := IndexMap.mem_values.mp hm
  rw [(hs.named k m hk).1]
  exact IndexMap.get?_eq_some.mpr hk

theorem parent_eq (hend : m.name = a.rel.owner ∨ m.name = a.rel.target) :
    (direction a.rel (ownsByModel m a.rel)).parent = m.name := by
  by_cases howner : m.name = a.rel.owner
  · simp [direction, ownsByModel, howner]
  · rw [direction, ownsByModel, if_neg (by simpa using howner)]
    exact (hend.resolve_left howner).symm

theorem keyed_of_emit (hs : s.WellFormed) (hm : m ∈ s.models.values)
    (hend : m.name = a.rel.owner ∨ m.name = a.rel.target) (ha : along s m fd = some a)
    (hh : emitRelationHelper s m fd = some h) : Keyed m a h := by
  obtain ⟨hrel, hchild, -⟩ := along_eq ha
  simp only [emitRelationHelper, Option.bind_eq_bind, Option.bind_eq_some_iff] at hh
  obtain ⟨rel, hrel', parentCol, hparentCol, childCol, hchildCol, parent, hparent, child, hget,
    parentKey, hparentKey, childKey, hchildKey, hsome⟩ := hh
  obtain rfl : rel = a.rel := Option.some.inj (hrel'.symm.trans hrel)
  obtain rfl : child = a.child := by
    have hchildOf := @child_eq m fd a.rel
    rw [hchildOf] at hget
    exact Option.some.inj (hget.symm.trans hchild)
  obtain rfl : parent = m := by
    rw [parent_eq hend] at hparent
    exact Option.some.inj (hparent.symm.trans (get?_name hs hm))
  split at hsome
  · exact absurd hsome (by simp)
  · next hnot =>
      obtain rfl := Option.some.inj hsome
      simp only [not_or, Bool.not_eq_true] at hnot
      obtain ⟨hp, rfl⟩ := findFieldByColumn_eq hparentKey
      obtain ⟨hc, rfl⟩ := findFieldByColumn_eq hchildKey
      exact ⟨rfl, hp, hc, hnot.2.1, hnot.2.2.1, hparentCol, hchildCol⟩

theorem child_mem (ha : along s m fd = some a) : a.child ∈ s.models.values :=
  IndexMap.mem_values_of_get? (along_eq ha).2.1

-- On a self relation the child is the model itself, and otherwise another one.
theorem child_self (hs : s.WellFormed) (hm : m ∈ s.models.values)
    (hend : m.name = a.rel.owner ∨ m.name = a.rel.target) (ha : along s m fd = some a)
    (hself : a.rel.owner = a.rel.target) : a.child = m := by
  have hname : (direction a.rel (ownSide m fd a.rel)).child = m.name := by
    have hown : m.name = a.rel.target := hend.elim (fun h => h.trans hself) id
    simp only [direction, hself, hown]
    split <;> rfl
  have hget := (along_eq ha).2.1
  rw [hname] at hget
  exact Option.some.inj (hget.symm.trans (get?_name hs hm))

theorem table_ne (hs : s.WellFormed) (hm : m ∈ s.models.values) (ha : along s m fd = some a)
    (hself : a.rel.owner ≠ a.rel.target) : a.child.table ≠ m.table := by
  intro htable
  have hsame : a.child = m := List.inj_on_of_nodup_map hs.tables (child_mem ha) hm htable
  have hget := (along_eq ha).2.1
  obtain ⟨k, hk⟩ := IndexMap.mem_values.mp hm
  have hname : (direction a.rel (ownSide m fd a.rel)).child = m.name := by
    have hentry := IndexMap.get?_eq_some.mp hget
    rw [hsame] at hentry
    exact (hs.named _ m hentry).1.symm
  rw [ownSide_eq hself] at hname
  by_cases howner : m.name = a.rel.owner
  · exact hself (by simpa [direction, ownsByModel, howner] using hname.symm)
  · exact howner (by simpa [direction, ownsByModel, howner] using hname.symm)

-- Nothing that is NULL is equal to anything.
theorem value_of_yes {engine : Engine} {op : CmpOp} {v w : Value}
    (h : engine.compare op v w = .yes) : v.isNull = false ∧ w.isNull = false := by
  constructor
  · cases v with
    | null => rw [engine.null_compare] at h; cases h
    | _ => rfl
  · cases w with
    | null => rw [engine.compare_null] at h; cases h
    | _ => rfl

theorem leads_iff {engine : Engine} {parent row : Row} : a.leads engine parent row = true ↔
    (∀ pair ∈ a.pairs, engine.compare .eq (row pair.2) (parent pair.1) = .yes) ∧
      row.live (deletedAtColumn a.child) = true := by
  simp [Along.leads]

-- One pair of columns is all that is compared.
theorem leads_of_plain {engine : Engine} (ha : along s m fd = some a) (hplain : a.Plain)
    {parentCol childCol : String}
    (hparent : (direction a.rel (ownsByModel m a.rel)).parentCols.head? = some parentCol)
    (hchild : (direction a.rel (ownsByModel m a.rel)).childCols.head? = some childCol)
    (parent row : Row) : a.leads engine parent row = true ↔
      engine.compare .eq (row childCol) (parent parentCol) = .yes ∧
        row.live (deletedAtColumn a.child) = true := by
  have hpair : (parentCol, childCol) ∈ a.pairs := by
    rw [(along_eq ha).2.2, ownSide_eq hplain.1]
    obtain ⟨ps, hps⟩ := List.head?_eq_some_iff.mp hparent
    obtain ⟨cs, hcs⟩ := List.head?_eq_some_iff.mp hchild
    rw [hps, hcs]
    exact List.mem_cons_self
  rw [leads_iff]
  refine and_congr_left fun _ => ⟨fun hall => hall _ hpair, fun hone pair hmem => ?_⟩
  rw [hplain.2 pair hmem _ hpair]
  exact hone

theorem dead_of_live {col : String} {row : Row} {value : Option String} (hcol : col ∈ value)
    (hlive : row.live value = true) : (row col).isNull = true := by
  obtain rfl := Option.mem_def.mp hcol
  simpa [Row.live] using hlive

theorem leads_of_hidden {engine : Engine} (hhidden : a.Hidden m) (parent row : Row) :
    a.leads engine parent row = false := by
  obtain ⟨col, hcol, hmem, -⟩ := hhidden
  obtain ⟨pair, hpair, rfl⟩ := List.mem_map.mp hmem
  rw [Bool.eq_false_iff]
  intro hleads
  obtain ⟨hall, hlive⟩ := leads_iff.mp hleads
  have hvalue := (value_of_yes (hall pair hpair)).1
  rw [dead_of_live hcol hlive] at hvalue
  cases hvalue

-- The comparison on a self relation, where the inner row hides the outer one, and
-- on any other.

theorem meets_self {engine : Engine} (hc : Compared m a q) (hself : a.child = m) (env : Env)
    (row : Row) : q.meets engine env row = true ↔
      engine.compare .eq (row q.childCol) (row q.parentCol) = .yes ∧
        row.live (deletedAtColumn a.child) = true := by
  have htable : q.parentTable = q.childTable := by
    rw [hc.parentTable, hc.childTable, hself]
  have hrow : (env.bind q.childTable row) q.parentTable q.parentCol = row q.parentCol :=
    congrFun (if_pos htable) q.parentCol
  rw [QuantifierHelpers.meets, hrow, hc.deletedAt, Bool.and_eq_true, decide_eq_true_iff]

theorem meets_other {engine : Engine} (hc : Compared m a q) (htable : a.child.table ≠ m.table)
    (env : Env) (row : Row) : q.meets engine env row = true ↔
      engine.compare .eq (row q.childCol) (env m.table q.parentCol) = .yes ∧
        row.live (deletedAtColumn a.child) = true := by
  have hother : q.parentTable ≠ q.childTable := by
    rw [hc.parentTable, hc.childTable]
    exact htable.symm
  have hrow : (env.bind q.childTable row) q.parentTable q.parentCol = env m.table q.parentCol := by
    rw [← hc.parentTable]
    exact congrFun (if_neg hother) q.parentCol
  rw [QuantifierHelpers.meets, hrow, hc.deletedAt, Bool.and_eq_true, decide_eq_true_iff]

variable (hs : s.WellFormed) (hm : m ∈ s.models.values)
  (hend : m.name = a.rel.owner ∨ m.name = a.rel.target) (ha : along s m fd = some a)

include hs hm hend ha

theorem meets_of_hidden {engine : Engine} (hc : Compared m a q) (hhidden : a.Hidden m) (env : Env)
    (row : Row) : q.meets engine env row = false := by
  obtain ⟨col, hcol, -, hwhich⟩ := hhidden
  rw [Bool.eq_false_iff]
  intro hmeets
  rcases hwhich with hchild | ⟨hself, hparent⟩
  · obtain rfl : q.childCol = col := Option.some.inj (hc.childCol.symm.trans hchild)
    rw [QuantifierHelpers.meets, hc.deletedAt, Bool.and_eq_true, decide_eq_true_iff] at hmeets
    have hvalue := (value_of_yes hmeets.1).1
    rw [dead_of_live hcol hmeets.2] at hvalue
    cases hvalue
  · obtain rfl : q.parentCol = col := Option.some.inj (hc.parentCol.symm.trans hparent)
    obtain ⟨hequal, hlive⟩ := (meets_self hc (child_self hs hm hend ha hself) env row).mp hmeets
    have hvalue := (value_of_yes hequal).2
    rw [dead_of_live hcol hlive] at hvalue
    cases hvalue

theorem meets_eq {engine : Engine} (hc : Compared m a q) (h : a.Plain ∨ a.Hidden m) (env : Env)
    (row : Row) : q.meets engine env row = a.leads engine (env m.table) row := by
  rcases h with hplain | hhidden
  · rw [Bool.eq_iff_iff, meets_other hc (table_ne hs hm ha hplain.1),
      leads_of_plain ha hplain hc.parentCol hc.childCol]
  · rw [meets_of_hidden hs hm hend ha hc hhidden, leads_of_hidden hhidden]

-- The include finds its rows by the two keys, which are no NULL.
theorem linked_eq {codec : Codec answers.engine Key} (hk : Keyed m a h)
    (h' : a.Plain ∨ a.Hidden m) (hrequired : Required s db) {parent row : Row}
    (hparent : parent ∈ db m.table) (hrow : row ∈ db a.child.table) :
    ((onDb answers db).linked h.childKey.column codec.encode
        (codec.decode (parent h.parentKey.column)) row &&
      row.live (deletedAtColumn a.child)) = a.leads answers.engine parent row := by
  have hvalue := hrequired m hm h.parentKey hk.parentKey hk.parentRequired parent hparent
  have hvalue' := hrequired a.child (child_mem ha) h.childKey hk.childKey hk.childRequired row hrow
  rcases h' with hplain | hhidden
  · rw [Bool.eq_iff_iff, leads_of_plain ha hplain hk.parentCol hk.childCol, Bool.and_eq_true,
      Answers.linked, decide_eq_true_iff]
    refine and_congr_left fun _ => ?_
    show answers.engine.compare .eq _ _ = .yes ↔ _
    rw [codec.same _ _ hvalue' (codec.encode_value _), codec.decode_encode,
      codec.same _ _ hvalue' hvalue]
  · rw [leads_of_hidden hhidden, Bool.and_eq_false_iff]
    refine Or.inr (Bool.eq_false_iff.mpr fun hlive => ?_)
    obtain ⟨col, hcol, -, hchild | ⟨hself, hparentCol⟩⟩ := hhidden
    · obtain rfl : h.childKey.column = col := Option.some.inj (hk.childCol.symm.trans hchild)
      rw [dead_of_live hcol hlive] at hvalue'
      cases hvalue'
    · obtain rfl : h.parentKey.column = col := Option.some.inj (hk.parentCol.symm.trans hparentCol)
      have htable : row ∈ db m.table := child_self hs hm hend ha hself ▸ hrow
      have hdead := hrequired m hm h.parentKey hk.parentKey hk.parentRequired row htable
      rw [dead_of_live hcol hlive] at hdead
      cases hdead

theorem related_eq {codec : Codec answers.engine Key} (hk : Keyed m a h)
    (h' : a.Plain ∨ a.Hidden m) (hrequired : Required s db) {parent : Row}
    (hparent : parent ∈ db m.table) :
    (h.include_ codec).related (onDb answers db) parent = a.related answers.engine db parent := by
  have hchild : (h.include_ codec : Include S Row Key).child = entity a.child := by
    rw [RelationHelper.include_, hk.child]
  rw [Include.related, Answers.related, hchild, Along.related]
  refine List.filter_congr fun row hrow => ?_
  have hchosen : (onDb answers db).chosen (entity a.child) (.and []) row
      = row.live (deletedAtColumn a.child) := IncludeMany.chosen_trivial (entity a.child) row
  exact (congrArg _ hchosen).trans (linked_eq hs hm hend ha hk h' hrequired hparent hrow)

omit hs hm hend in
theorem sound_include {codec : Codec answers.engine Key} (hk : Keyed m a h)
    (hrequired : Required s db) : (h.include_ codec).Sound (onDb answers db) := by
  refine ⟨fun row hrow k _ => ?_, FilterNode.steady_nil⟩
  have htable : row ∈ db a.child.table := hk.child ▸ hrow
  have hvalue := hrequired a.child (child_mem ha) h.childKey hk.childKey hk.childRequired row htable
  show answers.engine.compare .eq (row h.childKey.column) (codec.encode k) = .yes ↔
    codec.decode (row h.childKey.column) = k
  rw [codec.same _ _ hvalue (codec.encode_value k), codec.decode_encode]

omit hs hm hend ha in
theorem ready_include [DecidableEq Key] {codec : Codec answers.engine Key} (fullTable : Bool)
    (fullTableLimit : Int) (parents : List Row) :
    (h.include_ codec).Ready (onDb answers db) fullTable fullTableLimit parents := by
  rw [Include.Ready]
  split
  · intro p _ hnull
    have hvalue : (codec.encode (codec.decode (p h.parentKey.column))).isNull = false :=
      codec.encode_value _
    exact absurd (hvalue.symm.trans hnull) (by simp)
  · intro piece hpiece
    have hlength := Batches.length_chunk hpiece
    have hfilter : filterBinds (onDb answers db).size (onDb answers db).d (.and [] : FilterNode S) = 0 :=
      filterBinds_nil
    have hroom : chunkSize (onDb answers db).d ≤ maxQueryParams (onDb answers db).d := by
      cases (onDb answers db).d <;> decide
    show piece.length + filterBinds _ _ (.and [] : FilterNode S) + 0 ≤ _
    rw [hfilter]
    omega

theorem serves_perm {codec : Codec answers.engine Key} (hk : Keyed m a h)
    (h' : a.Plain ∨ a.Hidden m) (hrequired : Required s db) {parent : Row}
    (hparent : parent ∈ db m.table) {served : List Row}
    (hserves : (h.include_ codec).Serves (onDb answers db) parent served) :
    served.Perm (a.related answers.engine db parent) := by
  obtain ⟨sorted, hperm, -, rfl⟩ := hserves
  rw [related_eq hs hm hend ha hk h' hrequired hparent] at hperm
  exact hperm

theorem loads_of_keyed [DecidableEq Key] {codec : Codec answers.engine Key} (hk : Keyed m a h)
    (h' : a.Plain ∨ a.Hidden m) (hrequired : Required s db) : Loads answers db h codec a m := by
  intro fullTable fullTableLimit parents hparents
  have hsound : (h.include_ codec).Sound (onDb answers db) := sound_include ha hk hrequired
  have hready : (h.include_ codec).Ready (onDb answers db) fullTable fullTableLimit parents :=
    ready_include fullTable fullTableLimit parents
  split
  · obtain ⟨hloads, hserves⟩ := (Include.loadsList_iff hsound).mpr hready
    refine ⟨hloads, fun buckets hbuckets => ?_⟩
    have hall := (List.forall₂_and_left _ _).mpr ⟨hparents, hserves buckets hbuckets⟩
    exact hall.imp fun row served hrow => serves_perm hs hm hend ha hk h' hrequired hrow.1 hrow.2
  · obtain ⟨hloads, hserves⟩ := (Include.loadsOne_iff hsound).mpr hready
    refine ⟨hloads, fun found hfound => ?_⟩
    have hall := (List.forall₂_and_left _ _).mpr ⟨hparents, hserves found hfound⟩
    refine hall.imp fun row child hrow => ?_
    obtain ⟨hmem, served, hserved, hhead⟩ := hrow
    exact ⟨served, serves_perm hs hm hend ha hk h' hrequired hmem hserved, hhead⟩

end

end Ruprizzle.Codegen
