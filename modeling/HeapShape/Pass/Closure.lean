import HeapShape.Pass.BottomUp
import HeapShape.Worklist

/-
  Closures across calls.

  After the main fixpoint two facts about nodes are made to
  agree between each callee node and its image:

    * a unique scalar is cleared on both sides where they
      differ;
    * each side gets the allocation sites of the other, but
      for stack sites that the policy keeps at home.

  A change in the graph of a function queues every call that involves the
  function.

  Key definitions include:
    * `ClosureStats`
    * `uniqueScalarClosure`
    * `allocSiteClosure`
-/

-- Running A Closure

namespace HeapShape

/- What a closure did. -/
structure ClosureStats where
  iterations : Nat := 0
  changes : Nat := 0
deriving DecidableEq, Repr, Inhabited

/- The calls of a function and the calls inside it. -/
def Context.dependents
    (ctx : Context)
    (f : FunctionId) : List CallSiteId :=
  ctx.callGraph.uses f ++ ctx.callGraph.defs f

/- Changes made on the two sides of a call. -/
structure Reconciled where
  caller : Nat := 0
  callee : Nat := 0
  store : Store

/- Makes the two sides of a call agree. -/
abbrev Reconcile :=
  Store → CallSite → FunctionDef → Checked Reconciled

/- Changes so far, the store, and the waiting calls. -/
abbrev ClosureState :=
  Nat × Store × Worklist CallSiteId

/- Make a call agree with one of its callees. -/
def closeCallee
    (ctx : Context)
    (reconcile : Reconcile)
    (cs : CallSite)
    (state : ClosureState)
    (callee : FunctionDef) : Checked ClosureState := do
  let (changes, s, w) := state
  if s.sameGraph cs.caller callee.id then
    return (changes, s, w)
  else
    let r ← reconcile s cs callee
    let w :=
      if r.caller > 0 then w.pushAll (ctx.dependents cs.caller)
      else w
    let w :=
      if r.callee > 0 then w.pushAll (ctx.dependents callee.id)
      else w
    return (changes + r.caller + r.callee, r.store, w)

/- Make a waiting call agree with its callees. -/
def closureStep
    (ctx : Context)
    (reconcile : Reconcile) :
    Worklist.Step CallSiteId (Nat × Store) :=
  fun id (changes, s) w =>
    match ctx.callSite? id with
    | none => .ok (.ok (), (changes, s), w)
    | some cs =>
      if ctx.isPropagatable cs then do
        let (changes, s, w) ←
          (ctx.definedCallees cs).foldlM
            (closeCallee ctx reconcile cs) (changes, s, w)
        return (.ok (), (changes, s), w)
      else .ok (.ok (), (changes, s), w)

/- Make calls agree until nothing changes. -/
def runClosure
    (ctx : Context)
    (reconcile : Reconcile)
    (s : Store) : Checked (Answered ClosureStats) := do
  let start : Worklist CallSiteId := {}
  let run ← Worklist.drain
    ctx.config.fixpoint.maxIterations
    (closureStep ctx reconcile)
    (0, s)
    (start.pushAll ctx.callGraph.order)
  let (changes, s) := run.state
  match run.outcome with
  | .ok iterations =>
    return (.ok
      { iterations := iterations, changes := changes }, s)
  | .error e => return (.error e, s)

/-
  The graphs of a call's caller and callee with their simulation, if it is a
  function.
-/
def boundary?
    (s : Store)
    (cs : CallSite)
    (callee : FunctionDef) :
    Checked (Option (Graph × Graph × Simulation)) :=
  match s.graph? cs.caller, s.graph? callee.id with
  | some callerGraph, some calleeGraph => do
      let sim ←
        Simulation.ofCall cs callee calleeGraph callerGraph
      if sim.isFunction then
        return some (callerGraph, calleeGraph, sim)
      else
        return none
  | _, _ => .ok none

/- A live callee node, its image and the image's contents. -/
structure Mapped where
  id : NodeId
  node : Node
  imageId : NodeId
  image : Node

/- The live callee nodes that have an image. -/
def mappedNodes
    (callerGraph calleeGraph : Graph)
    (sim : Simulation) : Checked (List Mapped) :=
  (calleeGraph.liveNodes.filterMap fun (id, n) =>
    (sim.image? id).map fun img => (id, n, img)).mapM
      fun (id, n, img) => do
        let image ← callerGraph.contents img.node
        return {
          id := id
          node := n
          imageId := img.node
          image := image }

-- Unique Scalars

/- Whether both sides had a unique scalar and now differ. -/
def Mapped.scalarsDiffer
    (m : Mapped) : Bool :=
  m.node.uniqueScalar.everHad && m.image.uniqueScalar.everHad
    && m.node.uniqueScalar.value?
      != m.image.uniqueScalar.value?

/- Clear the unique scalars of some nodes. -/
def clearScalars
    (g : Graph)
    (ids : OrdSet NodeId) : Checked Graph :=
  ids.toList.foldlM Graph.clearUniqueScalar g

/- Clear unique scalars on which the sides differ. -/
def reconcileScalars : Reconcile :=
  fun s cs callee => do
    match ← boundary? s cs callee with
    | none => return { store := s }
    | some (callerGraph, calleeGraph, sim) => do
        let mapped ← mappedNodes callerGraph calleeGraph sim
        let differing := mapped.filter Mapped.scalarsDiffer
        let inCallee := OrdSet.ofList <|
          (differing.filter fun m =>
            m.node.uniqueScalar.value?.isSome).map Mapped.id
        let inCaller := OrdSet.ofList <|
          (differing.filter fun m =>
            m.image.uniqueScalar.value?.isSome).map
              Mapped.imageId
        let callerGraph ← clearScalars callerGraph inCaller
        let calleeGraph ← clearScalars calleeGraph inCallee
        return {
          caller := inCaller.size
          callee := inCallee.size
          store :=
            (s.setGraph cs.caller callerGraph).setGraph
              callee.id calleeGraph }

/-
  Clear unique scalars wherever a callee node and its image both had one and
  differ.
-/
def uniqueScalarClosure
    (ctx : Context)
    (s : Store) : Checked (Answered ClosureStats) :=
  runClosure ctx reconcileScalars s

-- Allocation Sites

/- Whether a set has a site with the same number. -/
def hasSiteId
    (sites : OrdSet AllocSite)
    (site : AllocSite) : Bool :=
  sites.toList.any fun s => s.id == site.id

/- The sites missing on the other side, but for some. -/
def missingSites
    (keepStack : Bool)
    (fromSites intoSites : OrdSet AllocSite) :
    List AllocSite :=
  fromSites.toList.filter fun s =>
    !(keepStack && s.isStack) && !hasSiteId intoSites s

/- Add sites to nodes. -/
def addSites
    (g : Graph)
    (sites : List (NodeId × AllocSite)) : Checked Graph :=
  sites.foldlM (fun g (id, s) => g.addAllocSite id s) g

/- Give each side the sites of the other. -/
def reconcileSites
    (policy : CloningPolicy) : Reconcile :=
  fun s cs callee => do
    match ← boundary? s cs callee with
    | none => return { store := s }
    | some (callerGraph, calleeGraph, sim) => do
        let mapped ← mappedNodes callerGraph calleeGraph sim
        let up := (mapped.map fun m =>
          (missingSites policy.stripAllocas
            m.node.allocSites m.image.allocSites).map
              fun s => (m.imageId, s)).flatten
        let down := (mapped.map fun m =>
          (missingSites policy.noEscape
            m.image.allocSites m.node.allocSites).map
              fun s => (m.id, s)).flatten
        let callerGraph ← addSites callerGraph up
        let calleeGraph ← addSites calleeGraph down
        return {
          caller := up.length
          callee := down.length
          store :=
            (s.setGraph cs.caller callerGraph).setGraph
              callee.id calleeGraph }

/-
  Give each callee node and its image the same allocation sites, but for
  stack sites kept at home.
-/
def allocSiteClosure
    (ctx : Context)
    (s : Store) : Checked (Answered ClosureStats) :=
  runClosure ctx (reconcileSites ctx.config.cloning) s

end HeapShape
