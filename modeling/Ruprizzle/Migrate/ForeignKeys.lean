import Ruprizzle.Data.Matching
import Ruprizzle.Migrate.Panic

namespace Ruprizzle

-- What a database holds of a relation.
structure ForeignKey where
  owner : ModelName
  constraintName : String
  ownerCols : List String
  target : ModelName
  targetCols : List String
  onDelete : ReferentialAction
  onUpdate : ReferentialAction
  deriving DecidableEq, Repr

def ResolvedRelation.foreignKey (r : ResolvedRelation) : ForeignKey :=
  ⟨r.owner, r.constraintName, r.ownerCols, r.target, r.targetCols, r.onDelete, r.onUpdate⟩

namespace Change

def addedRelation? : Change → Option ResolvedRelation
  | addForeignKey _ r => some r
  | _ => none

def droppedRelation? : Change → Option ResolvedRelation
  | dropForeignKey _ r => some r
  | _ => none

def droppedModel? : Change → Option ModelName
  | dropModel model _ => some model
  | _ => none

end Change

-- The database of no migration yet.
def Schema.emptyLike (s : Schema) : Schema := ⟨IR_VERSION, s.datasource, s.generator, .empty, .empty, []⟩

namespace Diff

-- Everything relations have in the database but for the table they are on.
theorem relationChanged_eq_false {p r : ResolvedRelation} :
    relationChanged p r = false ↔ { p.foreignKey with owner := r.owner } = r.foreignKey := by
  simp only [relationChanged, ResolvedRelation.foreignKey, ForeignKey.mk.injEq,
    decide_eq_false_iff_not, ne_eq]
  tauto

theorem foreignKey_eq {p r : ResolvedRelation} (hc : ¬ relationChanged p r = true)
    (ho : p.owner = r.owner) : p.foreignKey = r.foreignKey := by
  have h := relationChanged_eq_false.mp (Bool.eq_false_iff.mpr hc)
  rw [← h, ← ho]
  rfl

def addedRelations (changes : List Change) : Multiset ResolvedRelation :=
  ↑(changes.filterMap Change.addedRelation?)

def droppedRelations (changes : List Change) : Multiset ResolvedRelation :=
  ↑(changes.filterMap Change.droppedRelation?)

def keysOf (relations : Multiset ResolvedRelation) : Multiset ForeignKey :=
  relations.map ResolvedRelation.foreignKey

-- The foreign keys of a schema after changes: without the dropped ones, with
-- the added ones, without those of dropped tables.
def keysLeft (prev : Schema) (changes : List Change) : Multiset ForeignKey :=
  (keysOf ↑(foreignKeys prev) - keysOf (droppedRelations changes) +
    keysOf (addedRelations changes)).filter
      (fun k => k.owner ∉ changes.filterMap Change.droppedModel?)

-- The last relation under each name, and those behind which another one stands.
def visible (s : Schema) : Multiset ResolvedRelation :=
  ↑(lastOfKey ResolvedRelation.name (foreignKeys s))

def hidden (s : Schema) : Multiset ResolvedRelation :=
  ↑(overwritten ResolvedRelation.name (foreignKeys s))

def paired (prev next : Schema) : Multiset (ResolvedRelation × ResolvedRelation) :=
  matching ResolvedRelation.name ResolvedRelation.name (visible prev) (visible next)

-- Relations that went to another model and took their name along.
def moved (prev next : Schema) : Multiset (ResolvedRelation × ResolvedRelation) :=
  (paired prev next).filter (fun e => relationChanged e.1 e.2 = false ∧ e.1.owner ≠ e.2.owner)

def keptHere (next : Schema) (relations : Multiset ResolvedRelation) : Multiset ResolvedRelation :=
  relations.filter (fun r => r.owner ∈ next.models.keys)

theorem foreignKeys_eq (s : Schema) :
    (↑(foreignKeys s) : Multiset ResolvedRelation) = visible s + hidden s := by
  rw [visible, hidden, Multiset.coe_add]
  exact Multiset.coe_eq_coe.mpr (perm_lastOfKey _)

theorem nodup_visible (s : Schema) : ((visible s).map ResolvedRelation.name).Nodup :=
  nodup_lastOfKey _

theorem hidden_eq_zero {s : Schema} :
    hidden s = 0 ↔ ((foreignKeys s).map ResolvedRelation.name).Nodup := by
  rw [← overwritten_eq_nil, hidden, Multiset.coe_eq_zero]

theorem mem_foldl_insert {l : List ResolvedRelation} {m : IndexMap String ResolvedRelation}
    {n : String} {r : ResolvedRelation} :
    (n, r) ∈ (l.foldl (fun m r => m.insert r.name r) m).entries ↔
      (r ∈ lastOfKey ResolvedRelation.name l ∧ r.name = n) ∨
        (n ∉ l.map ResolvedRelation.name ∧ (n, r) ∈ m.entries) := by
  induction l generalizing m with
  | nil => simp [lastOfKey]
  | cons a rest ih =>
      rw [List.foldl_cons, ih, IndexMap.mem_entries_insert, List.map_cons, List.mem_cons,
        lastOfKey_cons]
      split
      · rename_i ha
        have hn : n ∉ rest.map ResolvedRelation.name → n ≠ a.name := by
          rintro h rfl
          exact h ha
        tauto
      · rename_i ha
        rw [List.mem_cons]
        constructor
        · rintro (⟨h, hn⟩ | ⟨h, ⟨rfl, rfl⟩ | ⟨hne, hm⟩⟩)
          · exact Or.inl ⟨Or.inr h, hn⟩
          · exact Or.inl ⟨Or.inl rfl, rfl⟩
          · exact Or.inr ⟨by tauto, hm⟩
        · rintro (⟨rfl | h, rfl⟩ | ⟨h, hm⟩)
          · exact Or.inr ⟨ha, Or.inl ⟨rfl, rfl⟩⟩
          · exact Or.inl ⟨h, rfl⟩
          · exact Or.inr ⟨by tauto, Or.inr ⟨by tauto, hm⟩⟩

theorem mem_relationMap {s : Schema} {n : String} {r : ResolvedRelation} :
    (n, r) ∈ (relationMap s).entries ↔ r ∈ visible s ∧ r.name = n := by
  unfold relationMap
  rw [mem_foldl_insert]
  simp [visible]

theorem mem_keys_relationMap {s : Schema} {n : String} :
    n ∈ (relationMap s).keys ↔ n ∈ (visible s).map ResolvedRelation.name := by
  rw [IndexMap.mem_keys, Multiset.mem_map]
  simp only [mem_relationMap]

-- The map holds the visible relations, each under its name.
theorem entries_relationMap (s : Schema) :
    (↑(relationMap s).entries : Multiset (String × ResolvedRelation)) =
      (visible s).map (fun r => (r.name, r)) := by
  refine (Multiset.Nodup.ext ?_ ?_).mpr ?_
  · exact Multiset.coe_nodup.mpr (List.Nodup.of_map _ (relationMap s).nodup)
  · refine Multiset.Nodup.of_map Prod.fst ?_
    rw [Multiset.map_map]
    exact nodup_visible s
  · rintro ⟨n, r⟩
    rw [Multiset.mem_coe, mem_relationMap, Multiset.mem_map]
    constructor
    · rintro ⟨h, rfl⟩
      exact ⟨r, h, rfl⟩
    · rintro ⟨q, h, heq⟩
      cases heq
      exact ⟨h, rfl⟩

theorem mem_paired {prev next : Schema} {p r : ResolvedRelation} :
    (p, r) ∈ paired prev next ↔ p ∈ visible prev ∧ r ∈ visible next ∧ p.name = r.name :=
  mem_matching

-- One side of a pair or nothing, over all pairs.
theorem bind_ite {α β : Type} (s : Multiset α) (c : α → Prop) [DecidablePred c] (f : α → β) :
    s.bind (fun e => if c e then {f e} else 0) = (s.filter c).map f := by
  induction s using Multiset.induction_on with
  | empty => rfl
  | cons e s ih =>
      rw [Multiset.cons_bind, ih]
      by_cases h : c e
      · rw [if_pos h, Multiset.filter_cons_of_pos s h, Multiset.map_cons, Multiset.singleton_add]
      · rw [if_neg h, Multiset.filter_cons_of_neg s h, zero_add]

theorem filterMap_eq_zero {α : Type} {f : Change → Option α} {l : List Change}
    (h : ∀ c ∈ l, f c = none) : l.filterMap f = [] :=
  List.filterMap_eq_nil_iff.mpr h

theorem filterMap_diff_relations {α : Type} {host : Host} {prev next : Schema}
    {f : Change → Option α} (hf : ∀ c, c.kind ≠ .foreignKey → f c = none) :
    (diff host prev next).filterMap f = (diffRelations host prev next).filterMap f := by
  unfold diff
  rw [List.filterMap_append, List.filterMap_append,
    filterMap_eq_zero (fun c hc => hf c (by simp [(mem_diffEnums hc).1])),
    filterMap_eq_zero (fun c hc => hf c ?_)]
  · rfl
  · rcases mem_diffModels.mp hc with ⟨_, _, rfl, _⟩ | ⟨_, _, rfl, _⟩ | ⟨_, _, _, _, _, hc⟩
    · simp [Change.kind]
    · simp [Change.kind]
    · rcases hc with hc | hc | hc
      · simp [(kind_of_mem_diffColumns hc).1]
      · simp [(kind_of_mem_diffIndexes hc).1]
      · simp [(kind_of_mem_diffUniques hc).1]

-- What the two passes over the relation maps give, one relation at a time.
theorem filterMap_diffRelations {α : Type} {host : Host} {prev next : Schema}
    {f : Change → Option α} :
    (↑((diffRelations host prev next).filterMap f) : Multiset α) =
      (visible next).bind (fun r => ↑((match (relationMap prev).get? r.name with
        | none => [Change.addForeignKey r.owner r]
        | some p => if relationChanged p r then [.dropForeignKey p.owner p, .addForeignKey r.owner r]
            else []).filterMap f)) +
      (visible prev).bind (fun r => ↑((if r.owner ∈ prev.models.keys ∧ r.owner ∉ next.models.keys
        then [] else if r.name ∉ (relationMap next).keys then [Change.dropForeignKey r.owner r]
          else []).filterMap f)) := by
  unfold diffRelations
  rw [List.filterMap_append, List.filterMap_flatMap, List.filterMap_flatMap, ← Multiset.coe_add,
    ← Multiset.coe_bind, ← Multiset.coe_bind,
    Multiset.coe_eq_coe.mpr (host.nextRelations.perm _),
    Multiset.coe_eq_coe.mpr (host.prevRelations.perm _), entries_relationMap, entries_relationMap]
  exact congrArg₂ (· + ·) (Multiset.bind_map ..) (Multiset.bind_map ..)

theorem get?_paired {prev next : Schema} {p r : ResolvedRelation} (h : (p, r) ∈ paired prev next) :
    (relationMap prev).get? r.name = some p := by
  obtain ⟨hp, _, hname⟩ := mem_paired.mp h
  exact IndexMap.get?_eq_some.mpr (mem_relationMap.mpr ⟨hp, hname⟩)

theorem get?_unpaired {prev : Schema} {n : String}
    (h : n ∉ (visible prev).map ResolvedRelation.name) : (relationMap prev).get? n = none :=
  IndexMap.get?_eq_none.mpr fun hn => h (mem_keys_relationMap.mp hn)

theorem visible_next (prev next : Schema) : visible next = (paired prev next).map Prod.snd +
    (visible next).filter (fun r => r.name ∉ (visible prev).map ResolvedRelation.name) :=
  eq_matching_right (nodup_visible prev)

theorem visible_prev (prev next : Schema) : visible prev = (paired prev next).map Prod.fst +
    (visible prev).filter (fun p => p.name ∉ (visible next).map ResolvedRelation.name) :=
  eq_matching_left (nodup_visible next)

def changedPairs (prev next : Schema) : Multiset (ResolvedRelation × ResolvedRelation) :=
  (paired prev next).filter (fun e => relationChanged e.1 e.2 = true)

theorem added_diff (host : Host) (prev next : Schema) :
    addedRelations (diff host prev next) = (changedPairs prev next).map Prod.snd +
      (visible next).filter (fun r => r.name ∉ (visible prev).map ResolvedRelation.name) := by
  unfold addedRelations
  rw [filterMap_diff_relations (by intro c hc; cases c <;> first | rfl | exact absurd rfl hc),
    filterMap_diffRelations]
  have hprev : ∀ r ∈ visible prev,
      ((if r.owner ∈ prev.models.keys ∧ r.owner ∉ next.models.keys then [] else
        if r.name ∉ (relationMap next).keys then [Change.dropForeignKey r.owner r] else []).filterMap
          Change.addedRelation? : Multiset ResolvedRelation) = 0 := by
    intro r _
    split
    · rfl
    · split <;> rfl
  rw [Multiset.bind_congr hprev, Multiset.bind_zero, add_zero]
  conv_lhs => rw [visible_next prev next]
  rw [Multiset.add_bind, Multiset.bind_map]
  congr 1
  · rw [changedPairs, ← bind_ite]
    refine Multiset.bind_congr ?_
    rintro ⟨p, r⟩ h
    simp only [get?_paired h]
    split <;> rfl
  · refine (Multiset.bind_congr ?_).trans ((Multiset.bind_singleton _ id).trans (Multiset.map_id _))
    intro r h
    simp only [get?_unpaired (Multiset.mem_filter.mp h).2]
    rfl

theorem dropped_diff (host : Host) (prev next : Schema) :
    droppedRelations (diff host prev next) = (changedPairs prev next).map Prod.fst +
      ((visible prev).filter (fun p => p.name ∉ (visible next).map ResolvedRelation.name)).filter
        (fun p => ¬ (p.owner ∈ prev.models.keys ∧ p.owner ∉ next.models.keys)) := by
  unfold droppedRelations
  rw [filterMap_diff_relations (by intro c hc; cases c <;> first | rfl | exact absurd rfl hc),
    filterMap_diffRelations]
  congr 1
  · conv_lhs => rw [visible_next prev next]
    rw [Multiset.add_bind, Multiset.bind_map]
    have hnew : ∀ r ∈ (visible next).filter
        (fun r => r.name ∉ (visible prev).map ResolvedRelation.name),
        ((match (relationMap prev).get? r.name with
          | none => [Change.addForeignKey r.owner r]
          | some p => if relationChanged p r then [.dropForeignKey p.owner p, .addForeignKey r.owner r]
              else []).filterMap Change.droppedRelation? : Multiset ResolvedRelation) = 0 := by
      intro r h
      simp only [get?_unpaired (Multiset.mem_filter.mp h).2]
      rfl
    rw [Multiset.bind_congr hnew, Multiset.bind_zero, add_zero, changedPairs, ← bind_ite]
    refine Multiset.bind_congr ?_
    rintro ⟨p, r⟩ h
    simp only [get?_paired h]
    split <;> rfl
  · rw [Multiset.filter_filter, ← Multiset.map_id (Multiset.filter _ _), ← bind_ite]
    refine Multiset.bind_congr fun p _ => ?_
    simp only [id_eq, ← mem_keys_relationMap]
    by_cases hgone : p.owner ∈ prev.models.keys ∧ p.owner ∉ next.models.keys
    · rw [if_pos hgone, if_neg (fun h => h.1 hgone)]
      rfl
    · by_cases hname : p.name ∉ (relationMap next).keys
      · rw [if_neg hgone, if_pos hname, if_pos ⟨hgone, hname⟩]
        rfl
      · rw [if_neg hgone, if_neg hname, if_neg (fun h => hname h.2)]
        rfl

theorem mem_droppedModels {host : Host} {prev next : Schema} {name : ModelName} :
    name ∈ (diff host prev next).filterMap Change.droppedModel? ↔
      name ∈ prev.models.keys ∧ name ∉ next.models.keys := by
  rw [filterMap_diff (by intro c hc; cases c <;> first | rfl | exact absurd rfl hc)]
  simp [Change.droppedModel?, IndexMap.mem_keys, IndexMap.contains]

theorem mem_foreignKeys_of_visible {s : Schema} {r : ResolvedRelation} (h : r ∈ visible s) :
    r ∈ s.relations := by
  have hr : r ∈ (↑(foreignKeys s) : Multiset ResolvedRelation) := by
    rw [foreignKeys_eq]
    exact Multiset.mem_add.mpr (Or.inl h)
  exact (List.mem_filter.mp (Multiset.mem_coe.mp hr)).1

theorem keysOf_add (s t : Multiset ResolvedRelation) : keysOf (s + t) = keysOf s + keysOf t :=
  Multiset.map_add _ s t

-- Of relations that are in the schema before, only those of kept models are left.
theorem filter_keysOf {prev next : Schema} {host : Host} {s : Multiset ResolvedRelation}
    (hs : ∀ r ∈ s, r.owner ∈ prev.models.keys ∨ r.owner ∈ next.models.keys) :
    (keysOf s).filter (fun k => k.owner ∉ (diff host prev next).filterMap Change.droppedModel?) =
      keysOf (keptHere next s) := by
  unfold keysOf keptHere
  rw [Multiset.filter_map]
  congr 1
  refine Multiset.filter_congr fun r hr => ?_
  simp only [Function.comp, ResolvedRelation.foreignKey, mem_droppedModels]
  have := hs r hr
  tauto

theorem keptHere_add (next : Schema) (s t : Multiset ResolvedRelation) :
    keptHere next (s + t) = keptHere next s + keptHere next t :=
  Multiset.filter_add _ s t

theorem keptHere_of_owners {next : Schema} {s : Multiset ResolvedRelation}
    (h : ∀ r ∈ s, r.owner ∈ next.models.keys) : keptHere next s = s :=
  Multiset.filter_eq_self.mpr h

-- The pairs that are not changed stay where they are or move.
def stayed (prev next : Schema) : Multiset (ResolvedRelation × ResolvedRelation) :=
  (paired prev next).filter (fun e => relationChanged e.1 e.2 = false ∧ e.1.owner = e.2.owner)

theorem paired_eq (prev next : Schema) :
    paired prev next = changedPairs prev next + stayed prev next + moved prev next := by
  unfold changedPairs stayed moved
  rw [add_assoc]
  conv_lhs => rw [← Multiset.filter_add_not (fun e => relationChanged e.1 e.2 = true) (paired prev next)]
  congr 1
  rw [← Multiset.filter_add_not (fun e => e.1.owner = e.2.owner)
    ((paired prev next).filter (fun e => ¬ relationChanged e.1 e.2 = true)), Multiset.filter_filter,
    Multiset.filter_filter]
  congr 1 <;>
    · refine Multiset.filter_congr fun e _ => ?_
      rw [Bool.not_eq_true, and_comm]

theorem keysOf_stayed (prev next : Schema) :
    keysOf ((stayed prev next).map Prod.fst) = keysOf ((stayed prev next).map Prod.snd) := by
  unfold keysOf
  rw [Multiset.map_map, Multiset.map_map]
  refine Multiset.map_congr rfl fun e he => ?_
  obtain ⟨hc, ho⟩ := (Multiset.mem_filter.mp he).2
  exact foreignKey_eq (by simp [hc]) ho

theorem owner_mem_of_visible {s : Schema} (h : s.WellFormed) {r : ResolvedRelation}
    (hr : r ∈ visible s) : r.owner ∈ s.models.keys :=
  h.owners r (mem_foreignKeys_of_visible hr)

theorem keysLeft_diff (host : Host) {prev next : Schema} (hp : prev.WellFormed)
    (hn : next.WellFormed) : keysLeft prev (diff host prev next) =
      keysOf ((stayed prev next).map Prod.fst) +
        keysOf (keptHere next (hidden prev + (moved prev next).map Prod.fst)) +
          keysOf (addedRelations (diff host prev next)) := by
  have hprev := visible_prev prev next
  rw [paired_eq, Multiset.map_add, Multiset.map_add] at hprev
  generalize hO : (visible prev).filter
    (fun p => p.name ∉ (visible next).map ResolvedRelation.name) = others at hprev
  -- Of the relations whose name is gone, those of kept models and those of dropped ones.
  have hsplit := Multiset.filter_add_not
    (fun p : ResolvedRelation => ¬ (p.owner ∈ prev.models.keys ∧ p.owner ∉ next.models.keys)) others
  generalize hgone : others.filter (fun p : ResolvedRelation =>
    ¬ ¬ (p.owner ∈ prev.models.keys ∧ p.owner ∉ next.models.keys)) = gone at hsplit
  generalize hthere : others.filter (fun p : ResolvedRelation =>
    ¬ (p.owner ∈ prev.models.keys ∧ p.owner ∉ next.models.keys)) = there at hsplit
  have hkeys : keysOf ↑(foreignKeys prev) = keysOf (droppedRelations (diff host prev next)) +
      keysOf ((stayed prev next).map Prod.fst + (moved prev next).map Prod.fst + gone +
        hidden prev) := by
    rw [foreignKeys_eq, hprev, dropped_diff, hO, hthere, ← hsplit]
    simp only [keysOf_add]
    ac_rfl
  have hgone' : keptHere next gone = 0 := by
    refine Multiset.filter_eq_nil.mpr fun r hr hmem => ?_
    rw [← hgone] at hr
    exact (not_not.mp (Multiset.mem_filter.mp hr).2).2 hmem
  have hstay : keptHere next ((stayed prev next).map Prod.fst) = (stayed prev next).map Prod.fst := by
    refine keptHere_of_owners fun r hr => ?_
    obtain ⟨e, he, rfl⟩ := Multiset.mem_map.mp hr
    obtain ⟨hpair, _, ho⟩ := Multiset.mem_filter.mp he
    rw [ho]
    exact owner_mem_of_visible hn (mem_paired.mp hpair).2.1
  have hadded : keptHere next (addedRelations (diff host prev next)) =
      addedRelations (diff host prev next) := by
    refine keptHere_of_owners fun r hr => owner_mem_of_visible hn ?_
    rw [added_diff, Multiset.mem_add] at hr
    rcases hr with hr | hr
    · obtain ⟨e, he, rfl⟩ := Multiset.mem_map.mp hr
      exact (mem_paired.mp (Multiset.mem_filter.mp he).1).2.1
    · exact (Multiset.mem_filter.mp hr).1
  unfold keysLeft
  rw [hkeys, add_tsub_cancel_left, Multiset.filter_add, filter_keysOf, filter_keysOf, hadded]
  · simp only [keptHere_add, keysOf_add, hgone', hstay]
    simp only [keysOf, Multiset.map_zero, add_zero]
    ac_rfl
  · intro r hr
    rw [← hadded] at hr
    exact Or.inr (Multiset.mem_filter.mp hr).2
  · intro r hr
    left
    have hall : r ∈ (↑(foreignKeys prev) : Multiset ResolvedRelation) := by
      rw [foreignKeys_eq, hprev, ← hsplit]
      simp only [Multiset.mem_add] at hr ⊢
      tauto
    exact hp.owners r (List.mem_filter.mp (Multiset.mem_coe.mp hall)).1

theorem keysOf_next (host : Host) (prev next : Schema) : keysOf ↑(foreignKeys next) =
    keysOf ((stayed prev next).map Prod.fst) + keysOf (hidden next + (moved prev next).map Prod.snd) +
      keysOf (addedRelations (diff host prev next)) := by
  have hnext := visible_next prev next
  rw [paired_eq, Multiset.map_add, Multiset.map_add] at hnext
  rw [foreignKeys_eq, hnext, added_diff, keysOf_stayed]
  simp only [keysOf_add]
  ac_rfl

theorem emptyLike_visible (s : Schema) : visible s.emptyLike = 0 := rfl

-- Posts and comments of a user under one relation name.
def wroteBoth : Ast :=
  let author (name : String) := Build.model name [Build.idField,
    Build.field "authorId" "Int" .required [], Build.field "author" "User" .required
      [Build.relation ["authorId"] ["id"] [Build.str "Wrote"]]] []
  let list (name type : String) :=
    Build.field name type .list [Build.attr "relation" [Build.str "Wrote"]]
  Build.schema "postgres" [Build.model "User" [Build.idField, list "posts" "Post",
    list "comments" "Comment"] [], author "Post", author "Comment"]

end Diff

end Ruprizzle
