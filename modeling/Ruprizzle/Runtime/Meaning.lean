import Ruprizzle.Data.Truth
import Ruprizzle.Runtime.Words

namespace Ruprizzle.Runtime

-- What a database makes of the condition that a text is.

abbrev Row := String → Value

-- What a qualified name stands for where a condition is tested.
abbrev Env := String → String → Value

-- Inside of a subquery its own table hides what has the same name outside.
def Env.bind (env : Env) (table : String) (row : Row) : Env :=
  fun t => if t = table then row else env t

abbrev Database := String → List Row

-- What a database does with values, and with the texts that are not looked into
-- here, those that are no predicates among them. Nothing compares with NULL.
structure Engine where
  compare : CmpOp → Value → Value → Truth
  other : Env → List Word → Truth
  compare_null : ∀ op v, compare op v .null = .unknown
  null_compare : ∀ op v, compare op .null v = .unknown

def connectives : Conditions.Connectives Truth where
  any := Truth.any
  odd := Truth.odd
  all := Truth.all
  not := Truth.not
  any_single := Truth.or_no
  odd_single := Truth.xor_no
  all_single := Truth.and_yes
  any_flatten xss := by simpa [List.flatMap] using Truth.any_flatMap id xss
  all_flatten xss := by simpa [List.flatMap] using Truth.all_flatMap id xss

def isNullTest (x : Value) (negated : Bool) : Truth := Truth.ofBool (x.isNull != negated)

namespace Engine

variable (engine : Engine) (db : Database)

def isIn (x : Value) (values : List Value) : Truth :=
  Truth.any (values.map (engine.compare .eq x))

def isBetween (x lo hi : Value) : Truth :=
  (engine.compare .gte x lo).and (engine.compare .lte x hi)

variable (d : Dialect)

-- Only PostgreSQL has ILIKE, and only SQLite a list without values.
def compares (op : CmpOp) (x y : Value) : Option Truth :=
  if op = .ilike ∧ d ≠ .postgres then none else some (engine.compare op x y)

def listed (x : Value) (values : List Value) : Option Truth :=
  if values.isEmpty ∧ d ≠ .sqlite then none else some (engine.isIn x values)

-- The values of a list up to the bracket that closes it.
def inList : List Word → Option (List Value)
  | [.close] => some []
  | [.value v, .close] => some [v]
  | .value v :: .comma :: rest => (inList rest).map (v :: ·)
  | _ => none

-- What is said of a column after it is named.
def columnTest (env : Env) (x : Value) : List Word → Option Truth
  | [.op o, .value v] => engine.compares d o x v
  | [.op o, .name table, .dot, .name column] => engine.compares d o x (env table column)
  | [.keyword .is_, .keyword .null] => some (isNullTest x false)
  | [.keyword .is_, .keyword .not_, .keyword .null] => some (isNullTest x true)
  | [.keyword .between, .value lo, .keyword .and_, .value hi] => some (engine.isBetween x lo hi)
  | .keyword .in_ :: .open_ :: rest => (inList rest).bind (engine.listed d x)
  | .keyword .not_ :: .keyword .in_ :: .open_ :: rest =>
      ((inList rest).bind (engine.listed d x)).map Truth.not
  | _ => none

-- A predicate, where conditions in subqueries are already understood.
def predicate (inner : Env → List Word → Truth) (env : Env) (ws : List Word) : Truth :=
  match ws with
  | [.keyword .true_] => .yes
  | [.keyword .false_] => .no
  | .name table :: .dot :: .name column :: rest =>
      (engine.columnTest d env (env table column) rest).getD (engine.other env ws)
  | .keyword .exists_ :: .open_ :: .keyword .select :: .number _ :: .keyword .from_ ::
      .name table :: .keyword .where_ :: rest =>
      Truth.ofBool ((db table).any fun row => inner (env.bind table row) rest.dropLast = .yes)
  | _ => engine.other env ws

def truthWithin : Nat → Env → List Word → Truth
  | 0, env, ws => engine.other env ws
  | n + 1, env, ws =>
      Conditions.read (language d) connectives (engine.predicate db d (truthWithin n) env) ws

-- What the dialect understands a condition to say.
def truth (env : Env) (ws : List Word) : Truth := engine.truthWithin db d (ws.length + 1) env ws

variable {engine db d}

theorem predicate_congr {inner inner' : Env → List Word → Truth} {ws : List Word}
    (h : ∀ env body, body.length < ws.length → inner env body = inner' env body) (env : Env) :
    engine.predicate db d inner env ws = engine.predicate db d inner' env ws := by
  unfold predicate
  split
  · rfl
  · rfl
  · rfl
  · next table rest =>
      have hrows : ∀ row, inner (env.bind table row) rest.dropLast
          = inner' (env.bind table row) rest.dropLast := fun row => by
        refine h _ _ ?_
        simp only [List.length_dropLast, List.length_cons]
        omega
      simp only [hrows]
  · rfl

theorem truthWithin_congr {n m : Nat} {ws : List Word} (hn : ws.length < n) (hm : ws.length < m)
    (env : Env) : engine.truthWithin db d n env ws = engine.truthWithin db d m env ws := by
  induction n generalizing m env ws with
  | zero => omega
  | succ n ih =>
      cases m with
      | zero => omega
      | succ m =>
          refine Conditions.read_congr fun body hbody => predicate_congr (fun env' later hlater => ?_) env
          exact ih (by omega) (by omega) env'

theorem truth_eq (env : Env) (ws : List Word) :
    engine.truth db d env ws
      = Conditions.read (language d) connectives (engine.predicate db d (engine.truth db d) env) ws := by
  refine Conditions.read_congr fun body hbody => predicate_congr (fun env' later hlater => ?_) env
  exact truthWithin_congr (by omega) (by omega) env'

open Conditions Nesting

theorem truth_read (env : Env) :
    engine.truth db d env
      = Conditions.read (language d) connectives (engine.predicate db d (engine.truth db d) env) :=
  funext (truth_eq env)

variable {env : Env} {ws : List Word} {items : List (List Word)}

theorem truth_disjunction (hne : items ≠ []) (h : ∀ item ∈ items, Nesting.Whole turn item) :
    engine.truth db d env (Nesting.joined (.keyword .or_) items)
      = Truth.any (items.map (engine.truth db d env)) := by
  rw [truth_read]
  exact read_disjunction rfl hne h

theorem truth_conjunction (hne : items ≠ []) (h : ∀ item ∈ items, Contained (language d) item) :
    engine.truth db d env (Nesting.joined (.keyword .and_) items)
      = Truth.all (items.map (engine.truth db d env)) := by
  rw [truth_read]
  refine read_conjunction rfl hne ?_ h
  simp [Language.loose, language, Word.isKeyword]

theorem truth_brackets (h : Nesting.Whole turn ws) :
    engine.truth db d env (.open_ :: ws ++ [Word.close]) = engine.truth db d env ws := by
  rw [truth_read]
  exact read_wrapped (L := language d) rfl rfl h

theorem truth_not (h : Tight (language d) ws) :
    engine.truth db d env (.keyword .not_ :: ws) = (engine.truth db d env ws).not := by
  have hstay : bar (language d).connects turn none (.keyword .not_) = some .stay := by
    simp [bar, Language.connects, language, Word.isKeyword, turn]
  rw [truth_read]
  exact read_not rfl (h.cons hstay)

theorem truth_predicate (h : Tight (language d) ws)
    (hfirst : ws.head?.any (fun w => w.isKeyword .not_ || w.isOpen) = false) :
    engine.truth db d env ws = engine.predicate db d (engine.truth db d) env ws := by
  rw [truth_read]
  refine read_leaf h ?_ ?_
  · cases ws with
    | nil => rfl
    | cons w rest =>
        simp only [List.head?_cons, Option.any_some, Bool.or_eq_false_iff] at hfirst
        exact hfirst.1
  · cases ws with
    | nil => rfl
    | cons w rest =>
        simp only [List.head?_cons, Option.any_some, Bool.or_eq_false_iff] at hfirst
        simp [unwrap, language, hfirst.2]

end Engine

end Ruprizzle.Runtime
