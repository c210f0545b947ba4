import HeapShape.Graph.Basic

/-
  Graphs of functions.

  Functions that call each other share one graph. The store numbers the
  graphs in the order of their arrival and knows the owner of each.

  Key definitions include:
    * `Store`
    * `Store.insert`
    * `Store.graph?`
    * `Store.pair?`
    * `Store.graphsOf`
-/

namespace HeapShape

/- The graphs of a program and their owners. -/
structure Store where
  graphs : Array Graph := #[]
  owner : OrdMap FunctionId Nat := OrdMap.empty
deriving DecidableEq, Inhabited

namespace Store

/- Add a graph owned by some functions. -/
def insert
    (s : Store)
    (fs : List FunctionId)
    (g : Graph) : Nat × Store :=
  let slot := s.graphs.size
  let g := fs.foldl Graph.addFunction g
  let owner := fs.foldl (fun m f => m.insert f slot) s.owner
  (slot, { graphs := s.graphs.push g, owner := owner })

/- The number of the graph of a function. -/
def slot?
    (s : Store)
    (f : FunctionId) : Option Nat :=
  s.owner.get? f

/- Whether a function has a graph. -/
def contains
    (s : Store)
    (f : FunctionId) : Bool :=
  s.owner.contains f

/- The graph of a function. -/
def graph?
    (s : Store)
    (f : FunctionId) : Option Graph :=
  (s.slot? f).bind fun i => s.graphs[i]?

/- Replace the graph of a function. -/
def setGraph
    (s : Store)
    (f : FunctionId)
    (g : Graph) : Store :=
  match s.slot? f with
  | some i => { s with graphs := s.graphs.setIfInBounds i g }
  | none => s

/- Whether two functions own the same graph. -/
def sameGraph
    (s : Store)
    (a b : FunctionId) : Bool :=
  match s.slot? a, s.slot? b with
  | some i, some j => i == j
  | _, _ => false

/- The graphs of two functions, if they are different. -/
def pair?
    (s : Store)
    (a b : FunctionId) : Option (Graph × Graph) :=
  if s.sameGraph a b then none
  else
    match s.graph? a, s.graph? b with
    | some g, some h => some (g, h)
    | _, _ => none

/- The graphs of some functions, each at its first owner. -/
def graphsOf
    (s : Store)
    (fs : List FunctionId) : List Graph :=
  let slots := (fs.filterMap s.slot?).eraseDups
  slots.filterMap fun i => s.graphs[i]?

/- Change every graph in order. -/
def mapGraphs
    {α : Type}
    (s : Store)
    (f : Graph → Checked (α × Graph)) :
    Checked (List α × Store) := do
  let out ← s.graphs.toList.mapM f
  return (out.map Prod.fst,
    { s with graphs := (out.map Prod.snd).toArray })

end Store

end HeapShape
