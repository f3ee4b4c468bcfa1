import Ruprizzle.Runtime.Alignment

namespace Ruprizzle.Runtime

-- What is said of a piece of a statement: its kind, or the value it stands for.
inductive Slot
  | piece (kind : Kind)
  | hole (value : Value)

def Piece.slot : Piece → Slot
  | .token t => .piece t.kind
  | .value v => .hole v

theorem Piece.slot_renumber (offset : Nat) (p : Piece) : (renumberPiece offset p).slot = p.slot := by
  cases p <;> rfl

-- The statement ends outside of quotes, its placeholders are those of the
-- dialect in the order of the bound values, and every value stands where the
-- template has it.
structure Aligned (d : Dialect) (c : CompiledSql) (slots : List Slot) : Prop where
  ends : (modeAfter d c.sql).Outside
  placed : ∃ pieces, fill d 0 c.binds (tokens d c.sql) = some pieces ∧ pieces.map Piece.slot = slots

namespace Statement

variable {d : Dialect} {n : Nat}

def compile (q : Statement (Select d n)) : Option CompiledSql :=
  q.toSql (Compiler.run d) (Select.whole (Compiler.run d) n) d

-- The statement with every value in its place and every text read by itself,
-- the texts of subqueries included.
def template (q : Statement (Select d n)) : Option (List Slot) :=
  q.toSql (Runtime.template Piece.slot d) (Select.whole (Runtime.template Piece.slot d) n) d

-- A closed statement is read as the texts it is built of, each by itself.
theorem settles_compile {X : Type} {φ : Piece → X} (hφ : ∀ k p, φ (renumberPiece k p) = φ p)
    {q : Statement (Select d n)} (hclosed : q.Closed d (Select.Closed n))
    {c : CompiledSql} (hc : q.compile = some c) :
    ∃ xs, q.toSql (Runtime.template φ d) (Select.whole (Runtime.template φ d) n) d = some xs ∧
      Settles φ d c xs := by
  let assemble := sideBySide φ d
  have hsub : ∀ s : Select d n, s.Closed → Sound φ d (Select.whole assemble n s) :=
    fun s hs => sound_select hφ hs
  have hrun : ∀ pushes, Prod.fst (assemble pushes)
      = Compiler.run d (pushes.map (Push.map Prod.fst)) := fun _ => rfl
  have hread : ∀ pushes, Prod.snd (assemble pushes)
      = Runtime.template φ d (pushes.map (Push.map Prod.snd)) := fun _ => rfl
  have hcompile : (q.toSql assemble (Select.whole assemble n) d).map Prod.fst = q.compile := by
    rw [map_statement hrun, funext fun s => map_select hrun n s]
    rfl
  have htemplate : (q.toSql assemble (Select.whole assemble n) d).map Prod.snd
      = q.toSql (Runtime.template φ d) (Select.whole (Runtime.template φ d) n) d := by
    rw [map_statement hread, funext fun s => map_select hread n s]
  rw [hc] at hcompile
  obtain ⟨r, hr, rfl⟩ := Option.map_eq_some_iff.mp hcompile
  rw [hr] at htemplate
  exact ⟨r.2, htemplate.symm, sound_statement hφ hsub hclosed hr⟩

theorem filled_of_settles {X : Type} {φ : Piece → X} {c : CompiledSql} {xs : List X}
    (h : Settles φ d c xs) :
    ∃ pieces, fill d 0 c.binds (tokens d c.sql) = some pieces ∧ pieces.map φ = xs := by
  obtain ⟨pieces, hfill, hmap⟩ := h.renumbered 0
  exact ⟨pieces, by simpa [Push.text, CompiledSql.renumbered] using hfill, hmap⟩

theorem placeholders_aligned {q : Statement (Select d n)} (hclosed : q.Closed d (Select.Closed n))
    {c : CompiledSql} (hc : q.compile = some c) :
    ∃ slots, q.template = some slots ∧ Aligned d c slots := by
  obtain ⟨slots, htemplate, hsettles⟩ := settles_compile Piece.slot_renumber hclosed hc
  exact ⟨slots, htemplate, hsettles.outside, filled_of_settles hsettles⟩

end Statement

section Example

variable {S : Type}

def users : Model := ⟨"users", ["id", "data"], "id", none⟩

-- The rows of users that a filter leaves.
def usersWhere (filter : FilterNode S) : SelectQuery S :=
  ⟨users, filter, [], [], none, none, false, [], none, false, false⟩

theorem usersWhere_closed {d : Dialect} {sub : S → Prop} {filter : FilterNode S}
    (h : filter.Closed d sub) : (usersWhere filter).Closed d sub :=
  ⟨h, by simp [usersWhere], by simp [usersWhere], by simp [usersWhere]⟩

def withKey (key : String) : FilterNode S := .json "users" "data" [] false .hasKey (.str key)

def firstUser : FilterNode S := .cmp "users" "id" .eq (.i64 1)

def nestedQuery : Statement (Select .postgres 1) :=
  let inner : Select .postgres 1 := ⟨usersWhere (Filter.and (withKey "name") firstUser), rfl⟩
  .select (usersWhere (Filter.and firstUser (.inSubquery "users" "id" inner false)))

theorem nestedQuery_closed : nestedQuery.Closed .postgres (Select.Closed 1) := by
  refine usersWhere_closed (.flattenAnd fun node hnode => ?_)
  simp only [List.mem_cons, List.not_mem_nil, or_false] at hnode
  rcases hnode with rfl | rfl
  · exact .cmp _ _ _ _
  · refine .inSubquery _ _ _ (usersWhere_closed (.flattenAnd fun node hnode => ?_))
    simp only [List.mem_cons, List.not_mem_nil, or_false] at hnode
    rcases hnode with rfl | rfl
    · exact .json _ _ _ (Or.inl rfl)
    · exact .cmp _ _ _ _

theorem placeholders_aligned_nested :
    ∃ c, nestedQuery.compile = some c ∧
      ∃ slots, nestedQuery.template = some slots ∧ Aligned .postgres c slots :=
  ⟨_, rfl, Statement.placeholders_aligned nestedQuery_closed rfl⟩

-- The quote of the key ends its literal, and the placeholder after it stands
-- inside of a quoted name.
theorem placeholder_in_name :
    ∃ (q : Statement (Select .sqlite 0)) (c : CompiledSql), q.compile = some c ∧
      ∀ slots, ¬ Aligned .sqlite c slots := by
  let q : Statement (Select .sqlite 0) :=
    .select (usersWhere (Filter.and (withKey "it's") firstUser))
  have hinside : q.compile.map (fun c => decide (modeAfter .sqlite c.sql).Outside) = some false := by
    decide +kernel
  obtain ⟨c, hc, hout⟩ := Option.map_eq_some_iff.mp hinside
  exact ⟨q, c, hc, fun slots h => absurd h.ends (of_decide_eq_false hout)⟩

end Example

end Ruprizzle.Runtime
