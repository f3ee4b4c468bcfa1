import Ruprizzle.Data.Like
import Ruprizzle.Runtime.FilterLaw

namespace Ruprizzle.Runtime.Search

-- The searches in a column of texts, and what each database makes of them.

inductive Kind
  | contains
  | startsWith
  | endsWith
  | ilike
  deriving DecidableEq, Repr

def contains (table column pattern : String) : Built :=
  .cmp table column .like (.str ("%" ++ pattern ++ "%"))

def startsWith (table column start : String) : Built :=
  .cmp table column .like (.str (start ++ "%"))

def endsWith (table column suffix : String) : Built :=
  .cmp table column .like (.str ("%" ++ suffix))

def ilike (table column pattern : String) : Built :=
  .cmp table column .ilike (.str ("%" ++ pattern ++ "%"))

def Kind.search : Kind → String → String → String → Built
  | .contains => Search.contains
  | .startsWith => Search.startsWith
  | .endsWith => Search.endsWith
  | .ilike => Search.ilike

-- The patterns of each database where no ESCAPE is given. A backslash at the end stands for itself
-- in MySQL and is an error in PostgreSQL.
def writing : Dialect → Like.Writing Char
  | .sqlite => ⟨'%', '_', none, false⟩
  | .mysql => ⟨'%', '_', some '\\', true⟩
  | .postgres => ⟨'%', '_', some '\\', false⟩

-- The characters that a database takes for one another. Letters are folded, so nothing else is
-- taken for a sign of patterns.
structure Folding where
  fold : Char → Char
  sign : ∀ c d, c ∈ ['%', '_', '\\'] → fold c = fold d → c = d

def Folding.Same (f : Folding) (c d : Char) : Prop := f.fold c = f.fold d

instance (f : Folding) : DecidableRel f.Same := fun c d =>
  inferInstanceAs (Decidable (f.fold c = f.fold d))

structure Collation where
  like : Folding
  ilike : Folding

def SameLetter (c d : Char) : Prop := c.toLower = d.toLower

instance : DecidableRel SameLetter := fun c d =>
  inferInstanceAs (Decidable (c.toLower = d.toLower))

-- What a database says to a text and a pattern.
def verdict (d : Dialect) (f : Folding) (t p : String) : Option Truth :=
  (Like.read (writing d) p.toList).map fun signs =>
    Truth.ofBool (decide (Like.Matches f.Same signs t.toList))

structure Obeys (engine : Engine) (d : Dialect) (c : Collation) : Prop where
  like : ∀ t p truth, verdict d c.like t p = some truth →
    engine.compare .like (.str t) (.str p) = truth
  ilike : ∀ t p truth, verdict d c.ilike t p = some truth →
    engine.compare .ilike (.str t) (.str p) = truth

-- What the name of a search says.
def Kind.Finds (c : Collation) (s t : String) : Kind → Prop
  | .contains => Like.Found c.like.Same true true s.toList t.toList
  | .startsWith => Like.Found c.like.Same false true s.toList t.toList
  | .endsWith => Like.Found c.like.Same true false s.toList t.toList
  | .ilike => Like.Found SameLetter true true s.toList t.toList

-- The compiled search is a condition that holds of the texts it finds.
def Means (d : Dialect) (c : Collation) (kind : Kind) (table column s : String) : Prop :=
  ∃ pieces, fill d 0 ((kind.search table column s).compile d).binds
      (tokens d ((kind.search table column s).compile d).sql) = some pieces ∧
    ∀ engine, Obeys engine d c → ∀ db env t, env table column = .str t →
      (engine.truth db d env (pieces.map (Word.of d)) = .yes ↔ kind.Finds c s t)

-- A text without signs of patterns.
def Plain (d : Dialect) (s : List Char) : Prop :=
  '%' ∉ s ∧ '_' ∉ s ∧ (d ≠ .sqlite → '\\' ∉ s)

def Clear (d : Dialect) (c : Collation) (s : String) : Kind → Prop
  | .contains | .startsWith => Plain d s.toList
  | .endsWith => Plain d s.toList ∨ d = .mysql ∧ ∃ s', s.toList = s' ++ ['\\'] ∧ Plain d s'
  | .ilike => d = .postgres ∧ Plain d s.toList ∧
      ∀ a ∈ s.toList, ∀ b, c.ilike.Same a b ↔ SameLetter a b

section Patterns

variable {d : Dialect}

theorem plain_iff {s : List Char} : Plain d s ↔ Like.Plain (writing d) s := by
  unfold Plain Like.Plain
  constructor
  · rintro ⟨hany, hone, hescape⟩ a ha
    have hany' : a ≠ '%' := fun h => hany (h ▸ ha)
    have hone' : a ≠ '_' := fun h => hone (h ▸ ha)
    cases d with
    | sqlite => exact ⟨hany', hone', fun h => by cases h⟩
    | mysql | postgres =>
        exact ⟨hany', hone', fun h => hescape (by decide) (Option.some.inj h ▸ ha)⟩
  · intro h
    cases d with
    | sqlite =>
        exact ⟨fun ha => (h _ ha).1 rfl, fun ha => (h _ ha).2.1 rfl, fun hne => absurd rfl hne⟩
    | mysql | postgres =>
        exact ⟨fun ha => (h _ ha).1 rfl, fun ha => (h _ ha).2.1 rfl, fun _ ha => (h _ ha).2.2 rfl⟩

theorem lone_iff {after : Bool} {s : List Char} : Like.Lone (writing d) after s ↔
    after = false ∧ d = .mysql ∧ ∃ s', s = s' ++ ['\\'] ∧ Plain d s' := by
  unfold Like.Lone
  cases d with
  | sqlite => exact iff_of_false (fun h => by cases h.2.1) fun h => by cases h.2.1
  | postgres => exact iff_of_false (fun h => by cases h.2.1) fun h => by cases h.2.1
  | mysql =>
      refine and_congr_right fun _ => ⟨?_, ?_⟩
      · rintro ⟨-, s', a, rfl, ha, hplain⟩
        obtain rfl := Option.some.inj ha
        exact ⟨rfl, s', rfl, plain_iff.mpr hplain⟩
      · rintro ⟨-, s', rfl, hplain⟩
        exact ⟨rfl, s', '\\', rfl, rfl, plain_iff.mp hplain⟩

-- Where the text of a search stands in its pattern.
theorem searched_iff {f : Folding} {meant : Char → Char → Prop} {before after : Bool}
    {s : List Char} (hmeant : ∀ a, meant a a) (hletter : ¬meant '_' 'a') :
    (∃ signs, Like.read (writing d) (Like.around (writing d) before after s) = some signs ∧
        ∀ text, Like.Matches f.Same signs text ↔ Like.Found meant before after s text) ↔
      (Plain d s ∨ after = false ∧ d = .mysql ∧ ∃ s', s = s' ++ ['\\'] ∧ Plain d s') ∧
        ∀ a ∈ s, ∀ b, f.Same a b ↔ meant a b := by
  have hescape : ∀ a, (writing d).escape = some a → ¬f.Same (writing d).any a := by
    intro a ha hsame
    cases d with
    | sqlite => cases ha
    | mysql | postgres =>
        obtain rfl := Option.some.inj ha
        exact absurd (f.sign '%' '\\' (by decide) hsame) (by decide)
  have hone : ¬meant (writing d).one 'a' := by cases d <;> exact hletter
  have hany : (writing d).escape ≠ some (writing d).any := by cases d <;> decide
  have hsame : ∀ a, f.Same a a := fun a => rfl
  rw [Like.around_iff hsame hmeant hescape hany hone, ← plain_iff, lone_iff]

end Patterns

section Compiled

variable {d : Dialect} {c : Collation} {engine : Engine} {db : Database} {env : Env}
  {table column t p : String}

-- The words of a search, and what becomes of them.
theorem compiled_words (op : CmpOp) : ∃ pieces,
    fill d 0 ((Built.cmp table column op (.str p)).compile d).binds
      (tokens d ((Built.cmp table column op (.str p)).compile d).sql) = some pieces ∧
    pieces.map (Word.of d)
      = (FilterNode.cmp table column op (.str p) : FilterNode Empty).words d Empty.elim :=
  Built.words_of_compiled (.cmp table column op (.str p))

theorem truth_search {op : CmpOp} (hop : op = .ilike → d = .postgres)
    (ht : env table column = .str t) :
    engine.truth db d env
        ((FilterNode.cmp table column op (.str p) : FilterNode Empty).words d Empty.elim)
      = engine.compare op (.str t) (.str p) := by
  have hnull : ¬((Value.str p).isNull ∧ (op = .eq ∨ op = .ne)) := by simp [Value.isNull]
  rw [truth_compared hnull hop, Engine.compareTo, if_neg (by simp [Value.isNull]),
    if_neg (by simp [Value.isNull]), ht]

theorem truth_ilike (hd : d ≠ .postgres) : engine.truth db d env
    ((FilterNode.cmp table column .ilike (.str p) : FilterNode Empty).words d Empty.elim)
      = engine.other env
        ((FilterNode.cmp table column .ilike (.str p) : FilterNode Empty).words d Empty.elim) := by
  have htail : Conditions.Tight (language d) [Word.op .ilike, Word.value (.str p)] := rfl
  have hnone : engine.columnTest d env (env table column) [.op .ilike, .value (.str p)] = none :=
    if_pos ⟨rfl, hd⟩
  have hwords : (FilterNode.cmp table column .ilike (.str p) : FilterNode Empty).words d Empty.elim
      = columnWords table column ++ [.op .ilike, .value (.str p)] := words_cmp _ _ _ _
  rw [hwords, Engine.truth_predicate (tight_column htail) rfl]
  show (engine.columnTest d env (env table column) [.op .ilike, .value (.str p)]).getD _ = _
  rw [hnone]
  rfl

-- A database that says no more than it has to.
def silent (d : Dialect) (c : Collation) : Engine where
  compare op x y :=
    match op, x, y with
    | .like, .str t, .str p => (verdict d c.like t p).getD .unknown
    | .ilike, .str t, .str p => (verdict d c.ilike t p).getD .unknown
    | _, _, _ => .unknown
  other _ _ := .unknown
  compare_null op v := by cases op <;> cases v <;> rfl
  null_compare op v := by cases op <;> cases v <;> rfl

theorem silent_obeys (d : Dialect) (c : Collation) : Obeys (silent d c) d c where
  like t p truth h := by
    show (verdict d c.like t p).getD .unknown = truth
    rw [h, Option.getD_some]
  ilike t p truth h := by
    show (verdict d c.ilike t p).getD .unknown = truth
    rw [h, Option.getD_some]

theorem verdict_yes {f : Folding} {signs : List (Like.Sign Char)}
    (h : Like.read (writing d) p.toList = some signs) (t : String) : ∃ truth,
      verdict d f t p = some truth ∧ (truth = .yes ↔ Like.Matches f.Same signs t.toList) := by
  refine ⟨Truth.ofBool (decide (Like.Matches f.Same signs t.toList)), ?_, ?_⟩
  · rw [verdict, h, Option.map_some]
  · rw [Truth.ofBool_eq_yes, decide_eq_true_iff]

-- A compiled comparison with a pattern holds of what the pattern stands for, and an error of none.
theorem compiled_iff {op : CmpOp} {f : Folding} {finds : String → Prop}
    (hop : op = .ilike → d = .postgres)
    (hobeys : ∀ engine, Obeys engine d c → ∀ t p truth, verdict d f t p = some truth →
      engine.compare op (.str t) (.str p) = truth)
    (hsilent : ∀ t p, (silent d c).compare op (.str t) (.str p) = (verdict d f t p).getD .unknown)
    (hfinds : ∃ t, finds t) :
    (∃ pieces, fill d 0 ((Built.cmp table column op (.str p)).compile d).binds
        (tokens d ((Built.cmp table column op (.str p)).compile d).sql) = some pieces ∧
      ∀ engine, Obeys engine d c → ∀ db env t, env table column = .str t →
        (engine.truth db d env (pieces.map (Word.of d)) = .yes ↔ finds t)) ↔
      ∃ signs, Like.read (writing d) p.toList = some signs ∧
        ∀ text, Like.Matches f.Same signs text ↔ finds (String.ofList text) := by
  obtain ⟨pieces, hfill, hwords⟩ : ∃ pieces,
      fill d 0 ((Built.cmp table column op (.str p)).compile d).binds
        (tokens d ((Built.cmp table column op (.str p)).compile d).sql) = some pieces ∧
      pieces.map (Word.of d)
        = (FilterNode.cmp table column op (.str p) : FilterNode Empty).words d Empty.elim :=
    compiled_words op
  constructor
  · rintro ⟨pieces', hfill', hall⟩
    obtain rfl := Option.some.inj (hfill.symm.trans hfill')
    have hsaid : ∀ t, (verdict d f t p).getD .unknown = .yes ↔ finds t := by
      intro t
      have hone := hall (silent d c) (silent_obeys d c) (fun _ => []) (fun _ _ => .str t) t rfl
      rwa [hwords, truth_search hop rfl, hsilent] at hone
    cases hread : Like.read (writing d) p.toList with
    | none =>
        obtain ⟨t, ht⟩ := hfinds
        have hyes := (hsaid t).mpr ht
        rw [verdict, hread] at hyes
        cases hyes
    | some signs =>
        refine ⟨signs, rfl, fun text => ?_⟩
        obtain ⟨truth, hverdict, hyes⟩ := verdict_yes (f := f) hread (String.ofList text)
        have hone := hsaid (String.ofList text)
        rw [hverdict, Option.getD_some, hyes, String.toList_ofList] at hone
        exact hone
  · rintro ⟨signs, hread, hall⟩
    refine ⟨pieces, hfill, fun engine hengine db env t ht => ?_⟩
    obtain ⟨truth, hverdict, hyes⟩ := verdict_yes (f := f) hread t
    rw [hwords, truth_search hop ht, hobeys engine hengine t p truth hverdict, hyes, hall,
      String.ofList_toList]

end Compiled

section Law

variable {d : Dialect} {c : Collation} {table column s : String}

theorem like_iff {kind : Kind} {before after : Bool} {p : String}
    (hsearch : kind.search table column s = .cmp table column .like (.str p))
    (hp : p.toList = Like.around (writing d) before after s.toList)
    (hfinds : ∀ t, kind.Finds c s t ↔
      Like.Found c.like.Same before after s.toList t.toList) :
    Means d c kind table column s ↔ Plain d s.toList ∨
      after = false ∧ d = .mysql ∧ ∃ s', s.toList = s' ++ ['\\'] ∧ Plain d s' := by
  have hrefl : ∀ a, c.like.Same a a := fun a => rfl
  have hletter : ¬c.like.Same '_' 'a' := fun h =>
    absurd (c.like.sign '_' 'a' (by decide) h) (by decide)
  unfold Means
  rw [hsearch, compiled_iff (f := c.like) (fun h => by cases h) (fun engine h => h.like)
    (fun t p => rfl) ⟨s, (hfinds s).mpr (Like.found_refl hrefl s.toList)⟩, hp]
  simp only [hfinds, String.toList_ofList]
  rw [searched_iff hrefl hletter]
  exact and_iff_left fun a _ b => Iff.rfl

theorem sameLetter_refl (a : Char) : SameLetter a a := rfl

theorem ilike_iff : Means .postgres c .ilike table column s ↔
    Plain .postgres s.toList ∧ ∀ a ∈ s.toList, ∀ b, c.ilike.Same a b ↔ SameLetter a b := by
  have hself : ∃ t, Kind.Finds c s t .ilike := ⟨s, Like.found_refl sameLetter_refl s.toList⟩
  have hp : ("%" ++ s ++ "%").toList = Like.around (writing .postgres) true true s.toList := by
    simp [String.toList_append, Like.around, writing]
  refine (compiled_iff (f := c.ilike) (fun _ => rfl) (fun engine h => h.ilike) (fun t p => rfl)
    hself).trans ?_
  rw [hp]
  simp only [Kind.Finds, String.toList_ofList]
  rw [searched_iff sameLetter_refl (by decide)]
  simp

-- There is no ILIKE but in PostgreSQL.
theorem not_means_ilike (hd : d ≠ .postgres) : ¬Means d c .ilike table column s := by
  rintro ⟨pieces, hfill, hall⟩
  obtain ⟨pieces', hfill', hwords⟩ : ∃ pieces,
      fill d 0 ((Kind.ilike.search table column s).compile d).binds
        (tokens d ((Kind.ilike.search table column s).compile d).sql) = some pieces ∧
      pieces.map (Word.of d) = (FilterNode.cmp table column .ilike (.str ("%" ++ s ++ "%")) :
        FilterNode Empty).words d Empty.elim := compiled_words .ilike
  obtain rfl := Option.some.inj (hfill.symm.trans hfill')
  have hone := hall (silent d c) (silent_obeys d c) (fun _ => []) (fun _ _ => .str s) s rfl
  rw [hwords, truth_ilike hd] at hone
  have hyes : Truth.unknown = .yes := hone.mpr (Like.found_refl sameLetter_refl s.toList)
  cases hyes

-- A search finds what its name says exactly where the text has no signs of patterns (a backslash at
-- the end of a suffix apart in MySQL), and without regard to case where the database folds the
-- letters of the text like those of ASCII.
theorem search_iff (d : Dialect) (c : Collation) (kind : Kind) (table column s : String) :
    Means d c kind table column s ↔ Clear d c s kind := by
  have hany : (writing d).any = '%' := by cases d <;> rfl
  cases kind with
  | contains =>
      refine (like_iff rfl ?_ fun t => Iff.rfl).trans ?_
      · simp [String.toList_append, Like.around, hany]
      · simp [Clear]
  | startsWith =>
      refine (like_iff rfl ?_ fun t => Iff.rfl).trans ?_
      · simp [String.toList_append, Like.around, hany]
      · simp [Clear]
  | endsWith =>
      refine (like_iff rfl ?_ fun t => Iff.rfl).trans ?_
      · simp [String.toList_append, Like.around, hany]
      · simp [Clear]
  | ilike =>
      by_cases hd : d = .postgres
      · subst hd
        exact ilike_iff.trans (and_iff_right rfl).symm
      · exact iff_of_false (not_means_ilike hd) fun h => hd h.1

-- A database that folds the letters of ASCII.
def ascii : Folding where
  fold := Char.toLower
  sign c d hc h := by
    have hlower : c.toLower = c := by
      simp only [List.mem_cons, List.not_mem_nil, or_false] at hc
      rcases hc with rfl | rfl | rfl <;> rfl
    rw [hlower] at h
    delta Char.toLower at h
    split at h
    case isFalse => exact h
    case isTrue hupper =>
      -- a lower-case letter is none of the signs
      have hval := congrArg (fun x => x.val.toNat) h
      simp only [ge_iff_le, UInt32.le_iff_toNat_le, Char.reduceVal, UInt32.reduceToNat] at hupper
      simp only [Char.reduceVal, UInt32.reduceSub, UInt32.toNat_add, UInt32.reduceToNat] at hval
      simp only [List.mem_cons, List.not_mem_nil, or_false] at hc
      rcases hc with rfl | rfl | rfl <;>
        (simp only [Char.reduceVal, UInt32.reduceToNat] at hval; omega)

-- A hundred and fifty are found where fifty percent are looked for, and SQLite has no ILIKE.
theorem search_misses : (¬∀ s, Means .sqlite ⟨ascii, ascii⟩ .contains "items" "label" s) ∧
    ¬∀ s, Means .sqlite ⟨ascii, ascii⟩ .ilike "items" "label" s := by
  have hp : ("%" ++ "50%" ++ "%").toList
      = Like.around (writing .sqlite) true true "50%".toList := by decide
  refine ⟨fun hall => ?_, fun hall => not_means_ilike (by decide) (hall "a")⟩
  rcases (like_iff rfl hp fun t => Iff.rfl).mp (hall "50%") with hplain | hlone
  · exact hplain.1 (by decide)
  · cases hlone.1

end Law

end Ruprizzle.Runtime.Search
