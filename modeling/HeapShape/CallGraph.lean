import HeapShape.Ordered.Set
import HeapShape.Program.Basic

/-
  Call graphs.

  A call graph has one vertex per function and one edge per call site and
  matching callee. Its components are the classes of functions that call
  each other, listed callees first: a component is listed when a depth-first
  walk leaves the last of its members.

  Key definitions include:
    * `CallResolution`
    * `Digraph`
    * `Digraph.finishOrder`
    * `Digraph.components`
    * `CallGraph`
    * `CallGraph.ofProgram`
-/

-- Directed Graphs

namespace HeapShape

/- Vertices `0` to `size - 1` and edges, oldest first. -/
structure Digraph where
  size : Nat := 0
  edges : List (Nat × Nat) := []
deriving DecidableEq, Repr, Inhabited

namespace Digraph

/- The targets of the edges of a vertex, latest first. -/
def successors
    (d : Digraph)
    (v : Nat) : List Nat :=
  (d.edges.filter fun e => e.1 == v).map Prod.snd |>.reverse

/- A walk in progress: visited and finished vertices. -/
structure Walk where
  visited : OrdSet Nat := OrdSet.empty
  /- The vertices that were left, the latest first. -/
  finished : List Nat := []

/-
  Visit a vertex and what it leads to, then leave it. The walk is at most as
  deep as there are vertices.
-/
def visitWithin
    (d : Digraph) :
    Nat → Walk → Nat → Walk
| 0, w, _ => w
| fuel + 1, w, v =>
    if w.visited.contains v then w
    else
      let w := { w with visited := w.visited.insert v }
      let w := (d.successors v).foldl (d.visitWithin fuel) w
      { w with finished := v :: w.finished }

/- The vertices in the order in which they are left. -/
def finishOrder
    (d : Digraph) : List Nat :=
  let w := (List.range d.size).foldl
    (d.visitWithin (d.size + 1)) {}
  w.finished.reverse

/- Visit the vertices on a stack, at most `fuel` of them. -/
def reachWithin
    (d : Digraph) :
    Nat → List Nat → OrdSet Nat → OrdSet Nat
| 0, _, seen => seen
| _, [], seen => seen
| fuel + 1, v :: stack, seen =>
    if seen.contains v then d.reachWithin fuel stack seen
    else
      d.reachWithin fuel (d.successors v ++ stack)
        (seen.insert v)

/- The vertices a vertex leads to, itself included. -/
def reachable
    (d : Digraph)
    (v : Nat) : OrdSet Nat :=
  d.reachWithin (d.edges.length + 1) [v] OrdSet.empty

/- Whether two vertices lead to each other. -/
def connected
    (reach : Nat → OrdSet Nat)
    (u v : Nat) : Bool :=
  (reach u).contains v && (reach v).contains u

/-
  List the class of each vertex at its last occurrence in the order of
  leaving.
-/
def classesInOrder
    (same : Nat → Nat → Bool) :
    List Nat → List Nat → List (List Nat)
| _, [] => []
| before, v :: rest =>
    let others := classesInOrder same (before ++ [v]) rest
    if rest.any (same v) then others
    else (before.filter (same v) ++ [v]) :: others

/- The classes of connected vertices, inner ones first. -/
def components
    (d : Digraph) : List (List Nat) :=
  let table := ((List.range d.size).map d.reachable).toArray
  let reach := fun v => table.getD v OrdSet.empty
  classesInOrder (connected reach) [] d.finishOrder

end Digraph

-- Call Graphs

/- The functions that a call site was matched with. -/
structure CallResolution where
  callSite : CallSiteId
  caller : FunctionId
  callees : List FunctionId
  fullyResolved : Bool
deriving DecidableEq, Repr, Inhabited

/-
  The call graph of a program. Functions and call sites are remembered by
  their place in the program; where an identifier repeats, the last place
  counts.
-/
structure CallGraph where
  digraph : Digraph := {}
  vertexOf : OrdMap FunctionId Nat := OrdMap.empty
  /- The call sites that may call a function. -/
  usesOf : OrdMap FunctionId (List CallSiteId) :=
    OrdMap.empty
  /- The call sites inside a function. -/
  defsOf : OrdMap FunctionId (List CallSiteId) :=
    OrdMap.empty
  /- The components, callees first, members by name. -/
  components : List (List FunctionId) := []
  componentOf : OrdMap FunctionId Nat := OrdMap.empty
  resolutions : OrdMap CallSiteId CallResolution :=
    OrdMap.empty
  /- The call sites in the order passes visit them. -/
  order : List CallSiteId := []
  functionPlace : OrdMap FunctionId Nat := OrdMap.empty
  callSitePlace : OrdMap CallSiteId Nat := OrdMap.empty
deriving Inhabited

namespace CallGraph

/- The place of each identifier; a later one counts. -/
def placesOf
    (ids : List Nat) : OrdMap Nat Nat :=
  OrdMap.ofList ids.zipIdx

/- Add an item to the list under a key. -/
def appendTo
    {α : Type}
    (m : OrdMap Nat (List α))
    (key : Nat)
    (item : α) : OrdMap Nat (List α) :=
  m.insert key ((m.get? key).getD [] ++ [item])

/- The callees of a call site that can take its actuals. -/
def matchingCallees
    (p : Program)
    (cs : CallSite) : List FunctionId :=
  cs.callees.filter fun id =>
    match p.lastFunction? id with
    | some f => cs.fits f
    | none => false

/- Add an edge, if both functions have a vertex. -/
def addEdge
    (c : CallGraph)
    (caller callee : FunctionId) : CallGraph :=
  match c.vertexOf.get? caller, c.vertexOf.get? callee with
  | some u, some v =>
    let d := c.digraph
    { c with
      digraph := { d with edges := d.edges ++ [(u, v)] } }
  | _, _ => c

/- Add one call site. -/
def addCallSite
    (p : Program)
    (c : CallGraph)
    (cs : CallSite) : CallGraph :=
  let callees := matchingCallees p cs
  let c := callees.foldl
    (fun c callee =>
      ({ c with
        usesOf := appendTo c.usesOf callee cs.id }).addEdge
          cs.caller callee)
    { c with defsOf := appendTo c.defsOf cs.caller cs.id }
  let resolution : CallResolution :=
    { callSite := cs.id
      caller := cs.caller
      callees := callees
      fullyResolved := cs.isFullyResolved }
  { c with
    resolutions := c.resolutions.insert cs.id resolution
    order := c.order ++ [cs.id] }

/- Members of a component by name, then by number. -/
def sortMembers
    (p : Program)
    (ids : List FunctionId) : List FunctionId :=
  ids.mergeSort fun a b =>
    ((compare (p.functionName a) (p.functionName b)).then
      (compare a b)).isLE

/- The call graph of a program. -/
def ofProgram
    (p : Program) : CallGraph :=
  let ids := p.functions.map FunctionDef.id
  let start : CallGraph :=
    { digraph := { size := ids.length }
      vertexOf := placesOf ids
      functionPlace := placesOf ids
      callSitePlace := placesOf (p.callSites.map CallSite.id) }
  let c := p.sortedCallSites.foldl (addCallSite p) start
  let components := c.digraph.components.map fun vs =>
    sortMembers p (vs.filterMap fun v => ids[v]?)
  let componentOf := OrdMap.ofList <|
    (components.zipIdx.map fun (ms, i) =>
      ms.map fun f => (f, i)).flatten
  { c with
    components := components
    componentOf := componentOf }

-- Questions

/-
  A function of a program by its remembered place. The program should be the
  one the call graph is of.
-/
def function?
    (c : CallGraph)
    (p : Program)
    (id : FunctionId) : Option FunctionDef :=
  match (c.functionPlace.get? id).bind (p.functions[·]?) with
  | some f => if f.id = id then some f else none
  | none => none

/- A call site of a program by its remembered place. -/
def callSite?
    (c : CallGraph)
    (p : Program)
    (id : CallSiteId) : Option CallSite :=
  match (c.callSitePlace.get? id).bind (p.callSites[·]?) with
  | some cs => if cs.id = id then some cs else none
  | none => none

/- The call sites that may call a function. -/
def uses
    (c : CallGraph)
    (f : FunctionId) : List CallSiteId :=
  (c.usesOf.get? f).getD []

/- The call sites inside a function. -/
def defs
    (c : CallGraph)
    (f : FunctionId) : List CallSiteId :=
  (c.defsOf.get? f).getD []

/- The number of the component of a function. -/
def component?
    (c : CallGraph)
    (f : FunctionId) : Option Nat :=
  c.componentOf.get? f

/- Whether two functions are in one component. -/
def sameComponent
    (c : CallGraph)
    (f g : FunctionId) : Bool :=
  match c.component? f, c.component? g with
  | some i, some j => i == j
  | _, _ => false

/- Whether a function may call itself, also through others. -/
def isRecursive
    (c : CallGraph)
    (f : FunctionId) : Bool :=
  match c.component? f with
  | none => false
  | some i =>
    let members := c.components.getD i []
    let loops :=
      match c.vertexOf.get? f with
      | some v => c.digraph.edges.contains (v, v)
      | none => false
    members.length > 1 || loops

/- How a call site was resolved. -/
def resolution?
    (c : CallGraph)
    (cs : CallSiteId) : Option CallResolution :=
  c.resolutions.get? cs

/- The number of edges. -/
def edgeCount
    (c : CallGraph) : Nat :=
  c.digraph.edges.length

end CallGraph

end HeapShape
