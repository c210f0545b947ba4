import HeapShape.CallGraph
import HeapShape.Graph.Collect
import HeapShape.Graph.Copy
import HeapShape.Simulation
import HeapShape.Store

/-
  Propagation across one call.

  `bottomUpStep` copies what a callee does into its caller, `topDownStep`
  copies what a caller knows into its callee. If both share a graph the call
  is resolved in place, and if the callee is unknown the memory it is given
  is marked as external.

  `Context.decide` says which of the two steps a call needs, if any: up if
  the caller does not simulate the callee, and down if it does but not
  injectively.

  Key definitions include:
    * `Propagation`
    * `Context`
    * `Context.decide`
    * `resolveInPlace`
    * `markExternal`
    * `Junction`
    * `bottomUpStep`
    * `topDownStep`
-/

-- Decisions

namespace HeapShape

/- What a call still needs. -/
inductive Propagation where
  /- Nothing: the caller simulates the callee. -/
  | settled
  /- The callee must learn what the caller merges. -/
  | down
  /- The caller must learn what the callee does. -/
  | up
deriving DecidableEq, Repr, Inhabited

namespace Propagation

/- The name of a decision. -/
def name : Propagation → String
| settled => "none"
| down => "down"
| up => "up"

/- The name of a decision in messages. -/
def label : Propagation → String
| settled => "NONE"
| down => "DOWN"
| up => "UP"

end Propagation

/- What a pass works on. -/
structure Context where
  program : Program
  callGraph : CallGraph
  config : Config

namespace Context

/- A function of the program. -/
def function?
    (ctx : Context)
    (f : FunctionId) : Option FunctionDef :=
  ctx.callGraph.function? ctx.program f

/- A call site of the program. -/
def callSite?
    (ctx : Context)
    (cs : CallSiteId) : Option CallSite :=
  ctx.callGraph.callSite? ctx.program cs

/- The matched callees of a call, as they are resolved. -/
def callees
    (ctx : Context)
    (cs : CallSite) : List FunctionDef :=
  match ctx.callGraph.resolution? cs.id with
  | some r => r.callees.filterMap ctx.function?
  | none => []

/- The matched callees that have a body. -/
def definedCallees
    (ctx : Context)
    (cs : CallSite) : List FunctionDef :=
  (ctx.callees cs).filter FunctionDef.hasBody

/-
  Whether a call is propagated through: all its callees are known, and there
  is one.
-/
def isPropagatable
    (ctx : Context)
    (cs : CallSite) : Bool :=
  match ctx.callGraph.resolution? cs.id with
  | some r => r.fullyResolved && !r.callees.isEmpty
  | none => false

/- What a call needs for one callee. -/
def decide
    (ctx : Context)
    (s : Store)
    (cs : CallSite)
    (callee : FunctionDef) : Checked Propagation :=
  match s.pair? cs.caller callee.id with
  | none => .ok .settled
  | some (callerGraph, calleeGraph) => do
      let sim ←
        Simulation.ofCall cs callee calleeGraph callerGraph
      if sim.isFunction then
        let only := ctx.config.fixpoint.onlyModifiedInjectivity
        if ← sim.isInjective only then
          return .settled
        else
          return .down
      else
        return .up

end Context

-- Calls Inside One Graph

/- The cells of a list of values that may be absent. -/
def valueCells
    (g : Graph) :
    List (Option ValueId) →
      Checked (List (Option Cell) × Graph)
| [] => .ok ([], g)
| none :: rest => do
    let (cells, g) ← valueCells g rest
    return (none :: cells, g)
| some v :: rest => do
    let (c, g) ← g.valueCell v
    let (cells, g) ← valueCells g rest
    return (some c :: cells, g)

/- The cells of a call in its caller's graph. -/
def callSiteCells
    (g : Graph)
    (cs : CallSite) : Checked (CallSiteCells × Graph) := do
  let (actuals, g) ← valueCells g cs.actuals
  match cs.result? with
  | none => return ({ actuals := actuals }, g)
  | some v => do
      let (c, g) ← g.valueCell v
      return ({ actuals := actuals, result? := some c }, g)

/-
  Connect a call and a callee that share a graph: result with result,
  formals with actuals.
-/
def resolveInPlace
    (g : Graph)
    (cs : CallSite)
    (callee : FunctionDef) : Checked Graph := do
  let (cells, g) ← callSiteCells g cs
  let g ←
    match callee.returnsPointer, cells.result? with
    | true, some result => do
        let (ret, g) ← g.resultCell callee.id
        g.unify ret result
    | _, _ => pure g
  (callee.pointerPairs cells.actuals).foldlM
    (fun g (formal, actual) => do
      let (c, g) ← g.formalCell formal
      g.unify c actual)
    g

/-
  Mark everything that the values of a call reach as external and
  incomplete.
-/
def markExternal
    (g : Graph)
    (cs : CallSite) : Checked Graph := do
  let (cells, g) ← callSiteCells g cs
  let nodes ← g.reachable (cells.cells.map Cell.node)
  nodes.toList.foldlM
    (fun g id =>
      g.addFlags id (Flags.ofList [.external, .incomplete]))
    g

-- Calls Between Graphs

/-
  Copy a cell of the source and merge the copy with a cell of the
  destination, which is looked up after the copy.
-/
def copyAndMerge
    (k : Copier)
    (c : Cell)
    (force : Bool)
    (own : Graph → Checked (Cell × Graph)) :
    Checked Copier := do
  let (copy, k) ← k.copyCell c force
  k.mapDest fun g => do
    let (place, g) ← own g
    g.unify place copy

/-
  What a call joins in two graphs. Both sides may be absent, and what has no
  place in the destination is not copied.
-/
structure Junction where
  /- The cell of the source. -/
  cell : Checked (Option Cell)
  /- Whether the copy keeps all allocation sites. -/
  force : Bool
  /- The cell of the destination, looked up when needed. -/
  place? : Option (Graph → Checked (Cell × Graph))

/- Copy one side of a junction and merge it with the other. -/
def Copier.join
    (k : Copier)
    (j : Junction) : Checked Copier := do
  match ← j.cell, j.place? with
  | some c, some place => copyAndMerge k c j.force place
  | _, _ => return k

-- Bottom-Up Steps

/-
  A callee meets its caller at its globals, at the result of the call and at
  the actuals.
-/
def bottomUpJunctions
    (callee : FunctionDef)
    (calleeGraph : Graph)
    (cells : CallSiteCells) : List Junction :=
  (calleeGraph.globalNames.map fun v =>
    { cell := calleeGraph.rootCell? (.global v)
      force := true
      place? := some fun g => g.globalCell v }) ++
  [{ cell := calleeGraph.rootCell? (.result callee.id)
     force := false
     place? := cells.result?.map fun c g => .ok (c, g) }] ++
  ((callee.pointerPairs cells.actuals).map fun pair =>
    { cell := calleeGraph.rootCell? (.formal pair.1)
      force := false
      place? := some fun g => .ok (pair.2, g) })

/-
  Record the cells of a call in the caller, copy the summary of the callee
  and merge it with the caller's globals, the result and the actuals.
-/
def bottomUpCopy
    (config : Config)
    (cs : CallSite)
    (callee : FunctionDef)
    (calleeGraph callerGraph : Graph) : Checked Copier := do
  let (cells, callerGraph) ← callSiteCells callerGraph cs
  let k : Copier :=
    { source := calleeGraph
      dest := callerGraph.recordCallSite cs.id cells
      options :=
        CopyOptions.bottomUp config.cloning callee.id }
  (bottomUpJunctions callee calleeGraph cells).foldlM
    Copier.join k

/-
  Bring the summary of a callee into the caller of a call. There is no step
  if both share a graph or one has none.
-/
def bottomUpStep
    (config : Config)
    (s : Store)
    (cs : CallSite)
    (callee : FunctionDef) : Checked (Option Store) :=
  match s.pair? callee.id cs.caller with
  | none => .ok none
  | some (calleeGraph, callerGraph) => do
      let k ←
        bottomUpCopy config cs callee calleeGraph callerGraph
      let g ← k.dest.compress
      return some (s.setGraph cs.caller g)

-- Top-Down Steps

/-
  A caller meets its callee at the globals of the caller, at the result of
  the callee and at its formals. The policy may skip globals that the callee
  does not use.
-/
def topDownJunctions
    (policy : CloningPolicy)
    (cs : CallSite)
    (callee : FunctionDef)
    (callerGraph calleeGraph : Graph) : List Junction :=
  let globals := callerGraph.globalNames.filter fun v =>
    !policy.skipUnusedGlobals ||
      calleeGraph.roots.contains (.global v)
  let result? :=
    if callee.returnsPointer then cs.result? else none
  (globals.map fun v =>
    { cell := callerGraph.rootCell? (.global v)
      force := true
      place? := some fun g => g.globalCell v }) ++
  (result?.toList.map fun v =>
    { cell := callerGraph.cell? v
      force := false
      place? := some fun g => g.resultCell callee.id }) ++
  ((callee.pointerPairs cs.actuals).map fun pair =>
    { cell := callerGraph.cell? pair.2
      force := false
      place? := some fun g => g.formalCell pair.1 })

/-
  Copy the context of a call and merge it with the globals of the callee,
  its result and its formals. The copies are foreign.
-/
def topDownCopy
    (policy : CloningPolicy)
    (cs : CallSite)
    (callee : FunctionDef)
    (callerGraph calleeGraph : Graph) : Checked Copier :=
  let k : Copier :=
    { source := callerGraph
      dest := calleeGraph
      options := CopyOptions.topDown policy cs.caller }
  (topDownJunctions policy cs callee callerGraph
    calleeGraph).foldlM Copier.join k

/-
  Bring the context of a call into its callee. The copies are pruned if the
  policy says so, and the number counts the pruned nodes.
-/
def topDownStep
    (config : Config)
    (s : Store)
    (cs : CallSite)
    (callee : FunctionDef) :
    Checked (Option (Nat × Store)) :=
  match s.pair? cs.caller callee.id with
  | none => .ok none
  | some (callerGraph, calleeGraph) => do
      let k ← topDownCopy config.cloning cs callee callerGraph
        calleeGraph
      if config.cloning.pruneForeign then
        let (pruned, g) ← k.dest.pruneForeign
        return some (pruned, s.setGraph callee.id g)
      else
        let g ← k.dest.compress
        return some (0, s.setGraph callee.id g)

end HeapShape
