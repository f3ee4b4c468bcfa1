import Ruprizzle.Data.Sorting
import Ruprizzle.Migrate.Change

namespace Ruprizzle.Cycle

-- Foreign-key cycles: Tarjan's algorithm on the graph from each model to the
-- models it references.

abbrev Graph := IndexMap ModelName (List ModelName)

def fkGraph (schema : Schema) : Graph :=
  let graph := schema.relations.foldl (fun (g : Graph) r =>
    g.insert r.owner ((g.get? r.owner).getD [] ++ [r.target])) .empty
  schema.models.keys.foldl (fun (g : Graph) name =>
    if g.contains name then g else g.insert name []) graph

def successors (graph : Graph) (v : ModelName) : List ModelName := (graph.get? v).getD []

-- The stack has its top at the head.
structure Tarjan where
  index : Nat
  stack : List ModelName
  onStack : List ModelName
  indices : IndexMap ModelName Nat
  lowlinks : IndexMap ModelName Nat
  sccs : List (List ModelName)
  deriving Repr

def Tarjan.start : Tarjan := ⟨0, [], [], .empty, .empty, []⟩

def Tarjan.enter (s : Tarjan) (v : ModelName) : Tarjan :=
  { s with
    index := s.index + 1
    stack := v :: s.stack
    onStack := v :: s.onStack
    indices := s.indices.insert v s.index
    lowlinks := s.lowlinks.insert v s.index }

-- Lowers the link of v to a number read from a map; no entry is a panic.
def Tarjan.lower (s : Tarjan) (v : ModelName) (bound : Option Nat) : Option Tarjan := do
  let lowV ← s.lowlinks.get? v
  let low ← bound
  return { s with lowlinks := s.lowlinks.insert v (min lowV low) }

-- Pops down to v; an empty stack is a panic.
def popTo (v : ModelName) : List ModelName → Option (List ModelName × List ModelName)
  | [] => none
  | w :: rest =>
      if w = v then some ([w], rest)
      else (popTo v rest).map fun (scc, left) => (w :: scc, left)

def Tarjan.leave (s : Tarjan) (v : ModelName) : Option Tarjan := do
  let low ← s.lowlinks.get? v
  let index ← s.indices.get? v
  if low = index then
    let (scc, left) ← popTo v s.stack
    return { s with
      stack := left
      onStack := s.onStack.filter (fun w => w ∉ scc)
      sccs := s.sccs ++ [scc] }
  else return s

-- The fuel bounds the depth of the recursion, one level for each model entered.
def strongconnect (graph : Graph) : Nat → ModelName → Tarjan → Option Tarjan
  | 0, _, _ => none
  | fuel + 1, v, s => do
      let s ← (successors graph v).foldlM (fun (s : Tarjan) w =>
        if ¬ s.indices.contains w then do
          let s ← strongconnect graph fuel w s
          s.lower v (s.lowlinks.get? w)
        else if w ∈ s.onStack then s.lower v (s.indices.get? w)
        else some s) (s.enter v)
      s.leave v

def tarjanScc (order : HashOrder) (graph : Graph) : Option (List (List ModelName)) := do
  let s ← (order.order graph.keys).foldlM (fun (s : Tarjan) v =>
    if ¬ s.indices.contains v then strongconnect graph (graph.keys.length + 1) v s else some s)
    Tarjan.start
  return s.sccs

-- Components with more than one model, and models that reference themselves.
def fkCycles (order : HashOrder) (schema : Schema) : Option (List (List ModelName)) := do
  let graph := fkGraph schema
  let sccs ← tarjanScc order graph
  sccs.foldlM (fun cycles scc =>
    match scc with
    | [] => none
    | [model] => some (if (successors graph model).contains model then cycles ++ [scc] else cycles)
    | _ => some (cycles ++ [scc])) []

structure CycleInfo where
  models : List ModelName
  relations : List String
  fields : List (ModelName × String)
  deriving Repr

def sameScc (cycles : List (List ModelName)) (a b : ModelName) : Bool :=
  cycles.any (fun scc => scc.contains a && scc.contains b)

def detectCycles (order : HashOrder) (schema : Schema) : Option CycleInfo := do
  let cycles ← fkCycles order schema
  let inside := schema.relations.filter (fun r => sameScc cycles r.owner r.target)
  return {
    models := cycles.flatten
    relations := inside.map ResolvedRelation.name
    fields := inside.flatMap fun r =>
      (r.owner, r.ownerField.str) :: r.ownerCols.map (fun c => (r.owner, c)) }

def cycleTableNames (order : HashOrder) (schema : Schema) : Option (List String) := do
  let info ← detectCycles order schema
  return (schema.models.values.filter (fun m => info.models.contains m.name)).map Model.table

namespace CycleInfo

def touches (cycle : CycleInfo) (model : ModelName) (name : FieldName) (column : String) : Bool :=
  cycle.models.contains model &&
    (cycle.fields.contains (model, name.str) || cycle.fields.contains (model, column))

-- Whether a change touches the detected cycles.
def affectedBy (cycle : CycleInfo) : Change → Bool
  | .createModel m => cycle.models.contains m.name
  | .dropModel m _ => cycle.models.contains m
  | .renameModel fromName toName _ => cycle.models.contains fromName || cycle.models.contains toName
  | .addColumn model field => cycle.touches model field.name field.column
  | .alterColumn model fromField toField _ => cycle.touches model fromField.name fromField.column ||
      cycle.touches model toField.name toField.column
  | .dropColumn model column => cycle.models.contains model && cycle.fields.contains (model, column)
  | .renameColumn model fromName toName fromColumn toColumn =>
      cycle.touches model fromName fromColumn || cycle.touches model toName toColumn
  | .addForeignKey _ r | .dropForeignKey _ r => cycle.relations.contains r.name
  | _ => false

end CycleInfo

end Ruprizzle.Cycle
