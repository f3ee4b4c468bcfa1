import Ruprizzle.Codegen.HelperLaw

namespace Ruprizzle.Codegen

open Ruprizzle.Runtime hiding Model

-- Which fields have helpers that do what they are for.

variable {S Key : Type} {answers : Answers S} {s : Schema} {m : Model} {fd : Field} {a : Along}
  {q : QuantifierHelpers}

-- Whole numbers are compared as such.
def Whole (engine : Engine) : Prop :=
  ∀ x y : Int, engine.compare .eq (.i64 x) (.i64 y) = Truth.ofBool (x = y)

theorem Whole.ne {engine : Engine} (h : Whole engine) {x y : Int} (hne : x ≠ y) :
    engine.compare .eq (.i64 x) (.i64 y) ≠ .yes := by
  rw [h, decide_eq_false hne]
  simp [Truth.ofBool]

theorem Whole.same {engine : Engine} (h : Whole engine) (x : Int) :
    engine.compare .eq (.i64 x) (.i64 x) = .yes := by
  rw [h, decide_eq_true rfl]
  rfl

-- Rows to tell the columns apart by.

def flat (n : Int) : Row := fun _ => .i64 n

def kept (deletedAt : Option String) (row : Row) : Row := fun col =>
  if deletedAt = some col then .null else row col

theorem live_kept (deletedAt : Option String) (row : Row) :
    (kept deletedAt row).live deletedAt = true := by
  cases deletedAt with
  | none => rfl
  | some col => simp [Row.live, kept, Value.isNull]

theorem kept_eq {deletedAt : Option String} {col : String} (h : col ∉ deletedAt) (row : Row) :
    kept deletedAt row col = row col :=
  if_neg h

-- A value of such a row is the number, or NULL, and equal to no other number.
theorem kept_ne {engine : Engine} (h : Whole engine) {deletedAt : Option String} {row : Row}
    {col : String} {x y : Int} (hrow : row col = .i64 x) (hne : x ≠ y) :
    engine.compare .eq (kept deletedAt row col) (.i64 y) ≠ .yes := by
  rw [kept]
  split
  · rw [engine.null_compare]
    simp
  · rw [hrow]
    exact h.ne hne

section

variable {db : Database} {env : Env}

theorem truthOf_all (table : String) (row : Row) :
    truthOf answers db env table (.and []) row = .yes :=
  says_yes.mpr (holds_and fun _ => FilterNode.steady_nil)

theorem decided_all : Decided answers db a m env (.and []) := by
  rintro ⟨row, -, hopen⟩
  rw [truthOf_all] at hopen
  cases hopen

-- The column is that number.
def isNumber (table column : String) (n : Int) : FilterNode S := .cmp table column .eq (.i64 n)

theorem steady_isNumber (table column : String) (n : Int) :
    (isNumber table column n : FilterNode S).Steady answers.d answers.reading := by
  intro node hnode
  obtain rfl := List.mem_singleton.mp hnode
  rw [isNumber, words_cmp]
  exact (tight_column (tight_compared _ _)).contained

theorem truthOf_isNumber (table column : String) (n : Int) (row : Row) :
    truthOf answers db env table (isNumber table column n) row
      = answers.engine.compare .eq (row column) (.i64 n) := by
  have htruth : truthOf answers db env table (isNumber table column n) row = _ :=
    truth_words (.cmp table column (by simp [Value.isNull]) (by simp)) _
  have hrow : (env.bind table row) table column = row column := congrFun (if_pos rfl) column
  rw [htruth, FilterNode.meaning]
  show answers.engine.compareTo .eq ((env.bind table row) table column) (.i64 n) = _
  rw [hrow, Engine.compareTo, if_neg (by simp [Value.isNull]), if_neg (by simp)]

end

theorem exists_pair (ha : along s m fd = some a) (hc : Compared m a q) : ∃ pair, pair ∈ a.pairs := by
  have hlists : ∀ own : Bool, (direction a.rel own).parentCols ≠ [] ∧
      (direction a.rel own).childCols ≠ [] := by
    obtain ⟨ps, hparent⟩ := List.head?_eq_some_iff.mp hc.parentCol
    obtain ⟨cs, hchild⟩ := List.head?_eq_some_iff.mp hc.childCol
    intro own
    rw [direction] at hparent hchild ⊢
    split at hparent <;> split <;> simp_all
  obtain ⟨hparent, hchild⟩ := hlists (ownSide m fd a.rel)
  rw [(along_eq ha).2.2]
  obtain ⟨p, ps, hps⟩ := List.exists_cons_of_ne_nil hparent
  obtain ⟨c, cs, hcs⟩ := List.exists_cons_of_ne_nil hchild
  rw [hps, hcs]
  exact ⟨(p, c), List.mem_cons_self⟩

-- The filters select the right rows of every database wherever they decide at all.
def Selecting (answers : Answers S) (q : QuantifierHelpers) (a : Along) (m : Model) : Prop :=
  ∀ db env f, env m.table ∈ db m.table → f.Steady answers.d answers.reading →
    Decided answers db a m env f → Selects answers db q a m env f

section

variable (hs : s.WellFormed) (hm : m ∈ s.models.values)
  (hend : m.name = a.rel.owner ∨ m.name = a.rel.target) (ha : along s m fd = some a)
  (hc : Compared m a q) (hwhole : Whole answers.engine)

include hs hm hend ha hc hwhole

-- On a self relation an inner row that refers to itself is taken for one that the
-- outer row leads to.
theorem self_matched (hself : a.rel.owner = a.rel.target)
    (hdead : ∀ col ∈ deletedAtColumn a.child, q.childCol ≠ col ∧ q.parentCol ≠ col) :
    ¬ Selecting answers q a m := by
  intro hselecting
  have hchild : q.childCol ∉ deletedAtColumn a.child := fun h => (hdead _ h).1 rfl
  have hparent : q.parentCol ∉ deletedAtColumn a.child := fun h => (hdead _ h).2 rfl
  let outer := flat 1
  let inner := kept (deletedAtColumn a.child) (flat 0)
  have hself' := child_self hs hm hend ha hself
  obtain ⟨pair, hpair⟩ := exists_pair ha hc
  have hrelated : ∀ row ∈ a.related answers.engine (fun _ => [outer, inner]) outer, row = outer := by
    intro row hrow
    obtain ⟨hmem, hleads⟩ := List.mem_filter.mp hrow
    refine (List.mem_pair.mp hmem).resolve_right fun hinner => ?_
    obtain rfl := hinner
    exact kept_ne hwhole (x := 0) (y := 1) rfl (by simp) ((leads_iff.mp hleads).1 pair hpair)
  have hzero : ∀ row ∈ a.related answers.engine (fun _ => [outer, inner]) outer,
      truthOf answers (fun _ => [outer, inner]) (fun _ => outer) a.child.table
        (isNumber a.child.table q.childCol 0) row = .no := by
    intro row hrow
    rw [hrelated row hrow, truthOf_isNumber]
    exact (hwhole 1 0).trans rfl
  have hdecided : Decided answers (fun _ => [outer, inner]) a m (fun _ => outer)
      (isNumber a.child.table q.childCol 0) := by
    rintro ⟨row, hrow, hopen⟩
    rw [hzero row hrow] at hopen
    cases hopen
  have hsteady : (isNumber a.child.table q.childCol 0).Steady answers.d answers.reading :=
    steady_isNumber _ _ 0
  have hselects := hselecting (fun _ => [outer, inner]) (fun _ => outer) _ (by simp) hsteady hdecided
  have hchildKey : inner q.childCol = .i64 0 := kept_eq hchild _
  have hparentKey : inner q.parentCol = .i64 0 := kept_eq hparent _
  have hmeets : q.meets answers.engine (fun _ => outer) inner = true := by
    refine (meets_self hc hself' _ _).mpr ⟨?_, live_kept _ _⟩
    rw [hchildKey, hparentKey]
    exact hwhole.same 0
  have hinner : truthOf answers (fun _ => [outer, inner]) (fun _ => outer) q.childTable
      (isNumber a.child.table q.childCol 0) inner = .yes := by
    rw [hc.childTable, truthOf_isNumber, hchildKey]
    exact hwhole.same 0
  obtain ⟨row, hrow, hyes⟩ := hselects.some_.mp ((QuantifierHelpers.selected_some hsteady).mpr
    ⟨inner, by simp, hmeets, hinner⟩)
  rw [hzero row hrow] at hyes
  cases hyes

-- And where it cannot refer to itself, nothing is found.
theorem self_missed (hself : a.rel.owner = a.rel.target) {col : String}
    (hcol : col ∈ deletedAtColumn a.child) (hwhich : q.childCol = col ∨ q.parentCol = col)
    (hpairs : col ∉ a.pairs.map Prod.snd) : ¬ Selecting answers q a m := by
  intro hselecting
  let outer := flat 0
  let inner := kept (deletedAtColumn a.child) (flat 0)
  have hself' := child_self hs hm hend ha hself
  have hinner : inner ∈ a.related answers.engine (fun _ => [outer, inner]) outer := by
    refine List.mem_filter.mpr ⟨by simp, leads_iff.mpr ⟨fun pair hpair => ?_, live_kept _ _⟩⟩
    have hother : pair.2 ∉ deletedAtColumn a.child := fun h => by
      rw [Option.mem_def] at h hcol
      rw [h, Option.some.injEq] at hcol
      exact hpairs (hcol ▸ List.mem_map_of_mem hpair)
    have hvalue : inner pair.2 = .i64 0 := kept_eq hother _
    rw [hvalue]
    exact hwhole.same 0
  have hselects := hselecting (fun _ => [outer, inner]) (fun _ => outer) (.and []) (by simp)
    FilterNode.steady_nil decided_all
  obtain ⟨row, -, hmeets, -⟩ := (QuantifierHelpers.selected_some FilterNode.steady_nil).mp
    (hselects.some_.mpr ⟨inner, hinner, truthOf_all _ _⟩)
  obtain ⟨hequal, hlive⟩ := (meets_self hc hself' _ _).mp hmeets
  obtain ⟨hchild, hparent⟩ := value_of_yes hequal
  have hnull := dead_of_live hcol hlive
  rcases hwhich with rfl | rfl
  · rw [hnull] at hchild
    cases hchild
  · rw [hnull] at hparent
    cases hparent

omit hend in
-- A second pair of columns is not looked at.
theorem pair_missed (hself : a.rel.owner ≠ a.rel.target)
    (hchild : q.childCol ∉ deletedAtColumn a.child) {pair : String × String} (hpair : pair ∈ a.pairs)
    (hother : pair ≠ (q.parentCol, q.childCol)) : ¬ Selecting answers q a m := by
  intro hselecting
  have htable := table_ne hs hm ha hself
  let outer : Row := fun col => if col = q.parentCol then .i64 0 else .i64 2
  let inner := kept (deletedAtColumn a.child) fun col => if col = q.childCol then .i64 0 else .i64 1
  let db : Database := fun t => if t = a.child.table then [inner] else [outer]
  have hinner : db a.child.table = [inner] := if_pos rfl
  have houter : db m.table = [outer] := if_neg htable.symm
  have hselects := hselecting db (fun _ => outer) (.and []) (by rw [houter]; exact List.mem_singleton_self _)
    FilterNode.steady_nil decided_all
  have hmeets : q.meets answers.engine (fun _ => outer) inner = true := by
    refine (meets_other hc htable _ _).mpr ⟨?_, live_kept _ _⟩
    have hinnerKey : inner q.childCol = .i64 0 := (kept_eq hchild _).trans (if_pos rfl)
    have houterKey : outer q.parentCol = .i64 0 := if_pos rfl
    rw [hinnerKey, houterKey]
    exact hwhole.same 0
  obtain ⟨row, hrow, -⟩ := hselects.some_.mp ((QuantifierHelpers.selected_some FilterNode.steady_nil).mpr
    ⟨inner, by rw [hc.childTable, hinner]; exact List.mem_singleton_self _, hmeets, truthOf_all _ _⟩)
  obtain ⟨hmem, hleads⟩ := List.mem_filter.mp hrow
  rw [hinner, List.mem_singleton] at hmem
  obtain rfl := hmem
  have hequal := (leads_iff.mp hleads).1 pair hpair
  by_cases hparent : pair.1 = q.parentCol
  · have hcol : pair.2 ≠ q.childCol := fun h => hother (Prod.ext hparent h)
    have houter' : outer pair.1 = .i64 0 := if_pos hparent
    rw [houter'] at hequal
    exact kept_ne hwhole (x := 1) (if_neg hcol) (by simp) hequal
  · have houter' : outer pair.1 = .i64 2 := if_neg hparent
    rw [houter'] at hequal
    by_cases hcol : pair.2 = q.childCol
    · exact kept_ne hwhole (x := 0) (if_pos hcol) (by simp) hequal
    · exact kept_ne hwhole (x := 1) (if_neg hcol) (by simp) hequal

theorem condition_of_selecting (h : Selecting answers q a m) : a.Plain ∨ a.Hidden m := by
  by_contra hnot
  rw [not_or] at hnot
  by_cases hself : a.rel.owner = a.rel.target
  · by_cases hdead : ∀ col ∈ deletedAtColumn a.child, q.childCol ≠ col ∧ q.parentCol ≠ col
    · exact self_matched hs hm hend ha hc hwhole hself hdead h
    · simp only [not_forall, not_and_or, not_not] at hdead
      obtain ⟨col, hcol, hwhich⟩ := hdead
      refine self_missed hs hm hend ha hc hwhole hself hcol hwhich (fun hmem => hnot.2 ?_) h
      refine ⟨col, hcol, hmem, hwhich.imp (fun h => ?_) fun h => ⟨hself, ?_⟩⟩
      · rw [hc.childCol, h]
      · rw [hc.parentCol, h]
  · have hfirst : (q.parentCol, q.childCol) ∈ a.pairs := by
      obtain ⟨ps, hps⟩ := List.head?_eq_some_iff.mp hc.parentCol
      obtain ⟨cs, hcs⟩ := List.head?_eq_some_iff.mp hc.childCol
      rw [(along_eq ha).2.2, ownSide_eq hself, hps, hcs]
      exact List.mem_cons_self
    have hchild : q.childCol ∉ deletedAtColumn a.child := fun h =>
      hnot.2 ⟨_, h, List.mem_map_of_mem hfirst, Or.inl hc.childCol⟩
    refine hnot.1 ⟨hself, fun p hp p' hp' => ?_⟩
    have hsame : ∀ pair ∈ a.pairs, pair = (q.parentCol, q.childCol) := fun pair hpair => by
      by_contra hother
      exact pair_missed hs hm ha hc hwhole hself hchild hpair hother h
    rw [hsame p hp, hsame p' hp']

end

def forum : Schema :=
  (Build.schema "sqlite"
    [Build.model "User" [Build.idField, Build.field "posts" "Post" .list []] [],
     Build.model "Post" [Build.idField, Build.field "authorId" "Int" .required [],
       Build.field "author" "User" .required [Build.relation ["authorId"] ["id"] []]] [],
     Build.model "Comment" [Build.idField, Build.field "parentId" "Int" .optional [],
       Build.field "parent" "Comment" .optional [Build.relation ["parentId"] ["id"] []],
       Build.field "replies" "Comment" .list []] []]).lowered

theorem accepted_forum : Accepted forum := accepted_lowered (by decide +kernel)

def forumModel (name : String) : Model :=
  (forum.models.get? ⟨name⟩).getD ⟨⟨""⟩, "", .empty, ⟨[], none, Span.EMPTY⟩, [], [], none, Span.EMPTY⟩

def forumField (model name : String) : Field :=
  ((forumModel model).fields.get? ⟨name⟩).getD
    ⟨⟨""⟩, "", .scalar .string, false, none, {}, none, none, Span.EMPTY⟩

-- A database that tells whole numbers apart.

def code : Value → Option Int
  | .i64 n => some n
  | _ => none

def coded : Engine where
  compare _ v w := if v.isNull || w.isNull then .unknown else Truth.ofBool (code v = code w)
  other _ _ := .unknown
  compare_null _ v := by simp [Value.isNull]
  null_compare _ v := by simp [Value.isNull]

def codedAnswers : Answers Empty := { inAnyOrder [] with engine := coded }

def codes : Codec codedAnswers.engine (Option Int) where
  decode := code
  encode k := match k with
    | some n => .i64 n
    | none => .bool true
  encode_value k := by cases k <;> rfl
  decode_encode k := by cases k <;> rfl
  same v w hv hw := by
    show coded.compare .eq v w = .yes ↔ code v = code w
    simp [coded, hv, hw]

theorem whole_coded : Whole codedAnswers.engine := fun x y => by
  show coded.compare .eq (.i64 x) (.i64 y) = _
  simp [coded, Value.isNull, code]

-- A comment and a reply to it.
def twoComments : Database := tablesOf [("comments",
  [rowOf [("id", .i64 1)], rowOf [("id", .i64 2), ("parent_id", .i64 1)]])]

def firstComment : Env := fun _ => rowOf [("id", .i64 1)]

end Ruprizzle.Codegen
