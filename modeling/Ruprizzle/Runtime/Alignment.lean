import Ruprizzle.Runtime.Clauses

namespace Ruprizzle.Runtime

-- A map that respects how pushes are assembled respects whatever is built of
-- them.

section Naturality

variable {S R R' : Type} {assemble : List (Push R) → R} {assemble' : List (Push R') → R'}
  {π : R → R'}

def Cte.map (π : R → R') (cte : Cte R) : Cte R' := ⟨cte.name, π cte.compiled, cte.recursive⟩

theorem map_separated {S R : Type} (f : S → R) (sep : String) (items : List (List (Push S))) :
    (separated sep items).map (Push.map f)
      = separated sep (items.map (List.map (Push.map f))) := by
  induction items with
  | nil => rfl
  | cons item rest ih =>
      cases rest with
      | nil => rfl
      | cons next rest => simpa [separated, Push.map] using ih

theorem map_ctePrefix (π : R → R') (ctes : List (Cte R)) (main : R) :
    (ctePrefix ctes main).map (Push.map π) = ctePrefix (ctes.map (Cte.map π)) (π main) := by
  have hany : (ctes.map (Cte.map π)).any Cte.recursive = ctes.any Cte.recursive := by
    rw [List.any_map]
    rfl
  have hpush : (ctes.map pushCte).map (List.map (Push.map π))
      = (ctes.map (Cte.map π)).map pushCte := by
    rw [List.map_map, List.map_map]
    rfl
  simp only [ctePrefix, List.flatten_cons, List.flatten_nil, List.append_nil, List.map_append,
    map_separated, hany, hpush]
  rfl

theorem map_setOp (π : R → R') (d : Dialect) (op : SetOp) (left right : R) :
    (setOp d op left right).map (Push.map π) = setOp d op (π left) (π right) := by
  unfold setOp
  split <;> rfl

theorem map_map (f : S → R) (π : R → R') (pushes : List (Push S)) :
    (pushes.map (Push.map f)).map (Push.map π) = pushes.map (Push.map fun s => π (f s)) := by
  rw [List.map_map]
  refine List.map_congr_left fun p _ => ?_
  cases p <;> rfl

variable (hπ : ∀ pushes, π (assemble pushes) = assemble' (pushes.map (Push.map π)))
include hπ

theorem map_cte (inner : S → R) (q : CteQuery S) :
    (q.compile assemble inner).map π = q.compile assemble' fun s => π (inner s) := by
  cases q with
  | with_ name query => rfl
  | withRecursive name anchor recursive =>
      simp only [CteQuery.compile, Cte.map, hπ]
      rfl

theorem map_withCtePrefix (ctes : List (Cte R)) (main : R) :
    π (withCtePrefix assemble ctes main)
      = withCtePrefix assemble' (ctes.map (Cte.map π)) (π main) := by
  cases ctes with
  | nil => rfl
  | cons cte ctes =>
      simp only [withCtePrefix, List.isEmpty_cons, List.map_cons, Bool.false_eq_true, ite_false, hπ,
        map_ctePrefix]

theorem map_paged (clause : String) (n : Option Nat) (main : R) :
    π (paged assemble clause n main) = paged assemble' clause n (π main) := by
  cases n with
  | none => rfl
  | some n =>
      simp only [paged, hπ]
      rfl

theorem map_ctes (inner : S → R) (ctes : List (CteQuery S)) :
    (ctes.map (CteQuery.compile assemble inner)).map (Cte.map π)
      = ctes.map (CteQuery.compile assemble' fun s => π (inner s)) := by
  rw [List.map_map]
  exact List.map_congr_left fun q _ => map_cte hπ inner q

theorem map_whole (inner : S → R) (d : Dialect) (q : SelectQuery S) :
    π (q.whole assemble inner d) = q.whole assemble' (fun s => π (inner s)) d := by
  simp only [SelectQuery.whole, SelectQuery.main, SelectQuery.cteList, map_withCtePrefix hπ,
    map_ctes hπ, hπ, map_map]

theorem map_setOpQuery (inner : S → R) (d : Dialect) (q : SetOpQuery S) :
    (q.toSql assemble inner d).map π = q.toSql assemble' (fun s => π (inner s)) d := by
  unfold SetOpQuery.toSql
  split
  · simp only [Option.map_some, map_paged hπ, map_withCtePrefix hπ, List.map_append,
      SelectQuery.main, SelectQuery.cteList, map_ctes hπ, hπ, map_setOp, map_map]
  · rfl

theorem map_statement (inner : S → R) (d : Dialect) (q : Statement S) :
    (q.toSql assemble inner d).map π = q.toSql assemble' (fun s => π (inner s)) d := by
  cases q with
  | select q =>
      simp only [Statement.toSql, SelectQuery.toSql]
      split
      · simp only [Option.map_some, map_whole hπ]
      · rfl
  | count q =>
      simp only [Statement.toSql]
      split
      · simp only [Option.map_some, map_withCtePrefix hπ, SelectQuery.cteList, map_ctes hπ, hπ,
          map_map]
      · rfl
  | exists_ q =>
      simp only [Statement.toSql]
      split
      · simp only [Option.map_some, map_withCtePrefix hπ, SelectQuery.cteList, map_ctes hπ, hπ,
          map_map]
      · rfl
  | setOp q => exact map_setOpQuery hπ inner d q
  | aggregate q =>
      simp only [Statement.toSql, Option.map_some, map_withCtePrefix hπ, map_ctes hπ, hπ, map_map]
  | partitioned | insert | insertMany | upsert | update | delete =>
      simp only [Statement.toSql, Option.map_some, hπ, map_map]

theorem map_select {d : Dialect} (n : Nat) (q : Select d n) :
    π (Select.whole assemble n q) = Select.whole assemble' n q := by
  induction n with
  | zero => exact nomatch q
  | succ n ih =>
      simp only [Select.whole, map_whole hπ, ih]

end Naturality

-- What has to be closed in each statement.

def CteQuery.Closed {S : Type} (sub : S → Prop) : CteQuery S → Prop
  | with_ _ query => sub query
  | withRecursive _ anchor recursive => sub anchor ∧ sub recursive

structure SelectQuery.Closed {S : Type} (d : Dialect) (sub : S → Prop) (q : SelectQuery S) :
    Prop where
  filter : q.filter.Closed d sub
  order : ∀ o ∈ q.order, o.Closed d
  join : ∀ j ∈ q.join, j.on.Closed d sub
  ctes : ∀ c ∈ q.ctes, c.Closed sub

def Statement.Closed {S : Type} (d : Dialect) (sub : S → Prop) : Statement S → Prop
  | .select q | .count q | .exists_ q => q.Closed d sub
  | .setOp q => q.left.Closed d sub ∧ q.right.Closed d sub
  | .aggregate q => q.filter.Closed d sub ∧ q.having.Closed d sub ∧
      (∀ o ∈ q.order, o.Closed d) ∧ ∀ c ∈ q.ctes, c.Closed sub
  | .partitioned _ _ filter order _ => filter.Closed d sub ∧ ∀ o ∈ order, o.Closed d
  | .insert _ _ _ | .insertMany _ _ _ => True
  | .upsert _ _ conflict _ _ => ConflictClosed d conflict
  | .update _ sets filter _ => (∀ set ∈ sets, set.Closed) ∧ filter.Closed d sub
  | .delete _ filter _ => filter.Closed d sub

def Select.Closed {d : Dialect} : (n : Nat) → Select d n → Prop
  | 0, _ => False
  | n + 1, q => q.val.Closed d (Select.Closed n)

section Soundness

variable {S X : Type} {φ : Piece → X} {d : Dialect} {sub : S → Prop}

theorem FilterNode.Closed.flattenAnd {nodes : List (FilterNode S)}
    (h : ∀ node ∈ nodes, node.Closed d sub) : (FilterNode.flattenAnd nodes).Closed d sub := by
  refine .and fun node hnode => ?_
  obtain ⟨parent, hparent, hmem⟩ := List.mem_flatMap.mp hnode
  have hclosed := h parent hparent
  cases parent with
  | and children =>
      cases hclosed with
      | and hchildren => exact hchildren node hmem
  | _ => exact (List.mem_singleton.mp hmem) ▸ hclosed

theorem SelectQuery.Closed.effectiveFilter {q : SelectQuery S} (h : q.Closed d sub) :
    q.effectiveFilter.Closed d sub := by
  unfold SelectQuery.effectiveFilter
  split
  · next col _ =>
      split
      · exact h.filter
      · refine .flattenAnd fun node hnode => ?_
        simp only [List.mem_cons, List.not_mem_nil, or_false] at hnode
        rcases hnode with rfl | rfl
        · exact h.filter
        · exact .null _ col _
  · exact h.filter

theorem SelectQuery.Closed.spans {q : SelectQuery S} (h : q.Closed d sub) :
    Spans d sub Edge.Gap (q.pushes d) Edge.Outside := by
  unfold SelectQuery.pushes
  split
  · next join hjoin =>
      have hon : (q.joinOn join).Closed d sub := by
        have hon := h.join join hjoin
        unfold SelectQuery.joinOn
        split
        · next column _ =>
            split
            · exact hon
            · refine .and fun node hnode => ?_
              simp only [List.mem_cons, List.not_mem_nil, or_false] at hnode
              rcases hnode with rfl | rfl
              · exact hon
              · exact .null _ column _
        · exact hon
      exact spans_joinSelect _ _ _ _ _ _ _ _ _ hon h.effectiveFilter h.order
  · exact spans_select _ _ _ _ h.effectiveFilter h.order

-- A statement and what it is read as, assembled side by side.
def sideBySide (φ : Piece → X) (d : Dialect) (pushes : List (Push (CompiledSql × List X))) :
    CompiledSql × List X :=
  (Compiler.run d (pushes.map (Push.map Prod.fst)), template φ d (pushes.map (Push.map Prod.snd)))

def Sound (φ : Piece → X) (d : Dialect) (p : CompiledSql × List X) : Prop := Settles φ d p.1 p.2

theorem flow_map {R : Type} (f : S → R) (e : Edge) (pushes : List (Push S)) :
    flow d e (pushes.map (Push.map f)) = flow d e pushes := by
  induction pushes generalizing e with
  | nil => rfl
  | cons p rest ih =>
      have hp : flowPush d e (p.map f) = flowPush d e p := by cases p <;> rfl
      rw [List.map_cons]
      cases h : flowPush d e p with
      | none => simp only [flow, Run.foldlM_cons, hp, h, Option.bind_none]
      | some e' => rw [flow_cons (hp.trans h), flow_cons h, ih]

theorem embedded_map {R : Type} (f : S → R) (pushes : List (Push S)) :
    embedded (pushes.map (Push.map f)) = (embedded pushes).map f := by
  induction pushes with
  | nil => rfl
  | cons p rest ih =>
      simp only [embedded] at ih ⊢
      cases p with
      | subquery s => exact congrArg (f s :: ·) ih
      | renumbered s => exact congrArg (f s :: ·) ih
      | str | quoted | bind => exact ih

theorem Spans.map {R : Type} {sub' : R → Prop} {f : S → R} {pre post : Edge → Prop}
    {pushes : List (Push S)} (hf : ∀ s, sub s → sub' (f s)) (h : Spans d sub pre pushes post) :
    Spans d sub' pre (pushes.map (Push.map f)) post := by
  refine ⟨fun e he => ?_, fun r hr => ?_⟩
  · rw [flow_map]
    exact h.flows e he
  · rw [embedded_map] at hr
    obtain ⟨s, hs, rfl⟩ := List.mem_map.mp hr
    exact hf s (h.embeds s hs)

variable (hφ : ∀ k p, φ (renumberPiece k p) = φ p)
include hφ

theorem sound_assemble {pushes : List (Push (CompiledSql × List X))}
    (h : Spans d (Sound φ d) Edge.Gap pushes Edge.Outside) : Sound φ d (sideBySide φ d pushes) := by
  obtain ⟨e, hflow, hout⟩ := h.flows (.at_ .gap) rfl
  refine Settles.of_reads hφ (Reads.of_flow hflow fun p hp => ?_) hout
  cases p with
  | subquery s => exact h.embeds s (List.mem_filterMap.mpr ⟨_, hp, rfl⟩)
  | renumbered s => exact h.embeds s (List.mem_filterMap.mpr ⟨_, hp, rfl⟩)
  | str | quoted | bind => trivial

variable {inner : S → CompiledSql × List X} (hinner : ∀ s, sub s → Sound φ d (inner s))
include hinner

theorem sound_pushes {pushes : List (Push S)} (h : Spans d sub Edge.Gap pushes Edge.Outside) :
    Sound φ d (sideBySide φ d (pushes.map (Push.map inner))) :=
  sound_assemble hφ (h.map hinner)

theorem sound_cte {c : CteQuery S} (h : c.Closed sub) :
    Sound φ d (c.compile (sideBySide φ d) inner).compiled := by
  cases c with
  | with_ name query => exact hinner query h
  | withRecursive name anchor recursive =>
      obtain ⟨hanchor, hrecursive⟩ := h
      refine sound_assemble hφ ?_
      have hopen : Spans d (Sound φ d) Edge.Gap [.str "("] Edge.Gap := by
        cases d <;> exact .of_flow rfl rfl rfl
      have hunion : Spans d (Sound φ d) Edge.Outside [.str ") UNION ALL ("] Edge.Gap :=
        .break_ rfl (by cases d <;> exact .of_flow rfl rfl rfl)
      exact .cons hopen (.cons (.renumbered (hinner anchor hanchor))
        (.cons hunion (.cons (.renumbered (hinner recursive hrecursive)) Spans.close.weaken)))

theorem sound_withCtePrefix {ctes : List (CteQuery S)} {main : CompiledSql × List X}
    (hctes : ∀ c ∈ ctes, c.Closed sub) (hmain : Sound φ d main) :
    Sound φ d (withCtePrefix (sideBySide φ d)
      (ctes.map (CteQuery.compile (sideBySide φ d) inner)) main) := by
  unfold withCtePrefix
  split
  · exact hmain
  · refine sound_assemble hφ ?_
    have hkeyword : ∀ recursive : Bool, Spans d (Sound φ d) Edge.Gap
        [.str (if recursive then "WITH RECURSIVE " else "WITH ")] Edge.Gap := by
      intro recursive
      cases d <;> cases recursive <;> exact .of_flow rfl rfl rfl
    have has : Spans d (Sound φ d) Edge.Outside [.str " AS ("] Edge.Gap :=
      .break_ rfl (by cases d <;> exact .of_flow rfl rfl rfl)
    have hlist : Spans d (Sound φ d) Edge.Gap (separated ", "
        ((ctes.map (CteQuery.compile (sideBySide φ d) inner)).map pushCte)) Edge.Outside := by
      refine .separated .comma fun item hitem => ?_
      obtain ⟨cte, hcte, rfl⟩ := List.mem_map.mp hitem
      obtain ⟨c, hc, rfl⟩ := List.mem_map.mp hcte
      exact .cons (.quoted _) (.cons has
        (.cons (.renumbered (sound_cte hφ hinner (hctes c hc))) Spans.close.weaken))
    unfold ctePrefix
    simp only [List.flatten_cons, List.flatten_nil, List.append_nil]
    exact (hkeyword _).append (hlist.append (.cons blank (.renumbered hmain)))

omit hinner in
theorem sound_paged {clause : String} {main : CompiledSql × List X} (n : Option Nat)
    (hclause : Spans d (Sound φ d) Edge.Outside [.str clause] Edge.Gap) (hmain : Sound φ d main) :
    Sound φ d (paged (sideBySide φ d) clause n main) := by
  cases n with
  | none => exact hmain
  | some n => exact sound_assemble hφ (.cons (.renumbered hmain) (.cons hclause (.number n)))

omit hinner in
theorem sound_setOp (op : SetOp) {left right : CompiledSql × List X} (hleft : Sound φ d left)
    (hright : Sound φ d right) : Sound φ d (sideBySide φ d (setOp d op left right)) := by
  refine sound_assemble hφ ?_
  have hop : Spans d (Sound φ d) Edge.Gap [.str op.sql] Edge.Outside := by
    cases d <;> cases op <;> exact .of_flow rfl trivial rfl
  unfold setOp
  split
  · have hopen : Spans d (Sound φ d) Edge.Gap [.str "SELECT * FROM ("] Edge.Gap := by
      cases d <;> exact .of_flow rfl rfl rfl
    have hmiddle : Spans d (Sound φ d) Edge.Outside [.str ") AS __rz_l "] Edge.Gap :=
      .break_ rfl (by cases d <;> exact .of_flow rfl rfl rfl)
    have hselect : Spans d (Sound φ d) Edge.Outside [.str " SELECT * FROM ("] Edge.Gap :=
      .break_ rfl (by cases d <;> exact .of_flow rfl rfl rfl)
    have hlast : Spans d (Sound φ d) Edge.Outside [.str ") AS __rz_r"] Edge.Outside :=
      .break_ rfl (by cases d <;> exact .of_flow rfl trivial rfl)
    exact .cons hopen (.cons (.renumbered hleft) (.cons hmiddle (.cons hop
      (.cons hselect (.cons (.renumbered hright) hlast)))))
  · have hopen : Spans d (Sound φ d) Edge.Gap [.str "("] Edge.Gap := by
      cases d <;> exact .of_flow rfl rfl rfl
    have hmiddle : Spans d (Sound φ d) Edge.Outside [.str ") "] Edge.Gap :=
      .break_ rfl (by cases d <;> exact .of_flow rfl rfl rfl)
    have hsecond : Spans d (Sound φ d) Edge.Outside [.str " ("] Edge.Gap :=
      .break_ rfl (by cases d <;> exact .of_flow rfl rfl rfl)
    exact .cons hopen (.cons (.renumbered hleft) (.cons hmiddle (.cons hop
      (.cons hsecond (.cons (.renumbered hright) Spans.close.weaken)))))

theorem sound_whole {q : SelectQuery S} (h : q.Closed d sub) :
    Sound φ d (q.whole (sideBySide φ d) inner d) :=
  sound_withCtePrefix hφ hinner h.ctes (sound_pushes hφ hinner h.spans)

theorem sound_setOpQuery {q : SetOpQuery S} {r : CompiledSql × List X}
    (hl : q.left.Closed d sub) (hr : q.right.Closed d sub)
    (h : q.toSql (sideBySide φ d) inner d = some r) : Sound φ d r := by
  unfold SetOpQuery.toSql at h
  split at h
  · obtain rfl := Option.some.inj h
    refine sound_paged hφ _ spans_offset_clause (sound_paged hφ _ spans_limit_clause ?_)
    have hctes : ∀ c ∈ q.left.ctes ++ q.right.ctes, c.Closed sub := fun c hc =>
      (List.mem_append.mp hc).elim (hl.ctes c) (hr.ctes c)
    have hmain := sound_setOp hφ q.op (sound_pushes hφ hinner hl.spans)
      (sound_pushes hφ hinner hr.spans)
    simpa only [SelectQuery.cteList, SelectQuery.main, List.map_append] using
      sound_withCtePrefix hφ hinner hctes hmain
  · cases h

theorem sound_statement {q : Statement S} {r : CompiledSql × List X} (hq : q.Closed d sub)
    (h : q.toSql (sideBySide φ d) inner d = some r) : Sound φ d r := by
  cases q with
  | select q =>
      simp only [Statement.toSql, SelectQuery.toSql] at h
      split at h
      · exact (Option.some.inj h) ▸ sound_whole hφ hinner hq
      · cases h
  | count q =>
      have hq : q.Closed d sub := hq
      simp only [Statement.toSql] at h
      split at h
      · exact (Option.some.inj h) ▸ sound_withCtePrefix hφ hinner hq.ctes
          (sound_pushes hφ hinner (spans_count _ hq.effectiveFilter))
      · cases h
  | exists_ q =>
      have hq : q.Closed d sub := hq
      simp only [Statement.toSql] at h
      split at h
      · exact (Option.some.inj h) ▸ sound_withCtePrefix hφ hinner hq.ctes
          (sound_pushes hφ hinner (spans_exists _ hq.effectiveFilter))
      · cases h
  | setOp q => exact sound_setOpQuery hφ hinner hq.1 hq.2 h
  | aggregate q =>
      obtain ⟨hf, hh, ho, hctes⟩ := hq
      exact (Option.some.inj h) ▸ sound_withCtePrefix hφ hinner hctes
        (sound_pushes hφ hinner (spans_aggregateSelect _ _ _ _ _ hf hh ho))
  | partitioned m partitionBy filter order take =>
      exact (Option.some.inj h) ▸
        sound_pushes hφ hinner (spans_selectPartitioned m partitionBy take hq.1 hq.2)
  | insert m values returning =>
      exact (Option.some.inj h) ▸ sound_pushes hφ hinner (spans_insert _ values returning)
  | insertMany m rows returning =>
      exact (Option.some.inj h) ▸ sound_pushes hφ hinner (spans_insertMany _ rows returning)
  | upsert m values conflict updated returning =>
      exact (Option.some.inj h) ▸ sound_pushes hφ hinner (spans_upsert _ values updated returning hq)
  | update m sets filter returning =>
      exact (Option.some.inj h) ▸ sound_pushes hφ hinner (spans_update _ returning hq.1 hq.2)
  | delete m filter returning =>
      exact (Option.some.inj h) ▸ sound_pushes hφ hinner (spans_delete _ returning hq)

end Soundness

theorem sound_select {X : Type} {φ : Piece → X} {d : Dialect}
    (hφ : ∀ k p, φ (renumberPiece k p) = φ p) {n : Nat} {q : Select d n} (h : q.Closed) :
    Sound φ d (Select.whole (sideBySide φ d) n q) := by
  induction n with
  | zero => exact h.elim
  | succ n ih => exact sound_whole hφ (fun s hs => ih hs) h

end Ruprizzle.Runtime
