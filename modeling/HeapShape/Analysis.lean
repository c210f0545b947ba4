import HeapShape.Pass.Fixpoint
import HeapShape.Pass.TopDown

/-
  The five analyses of a program.

    * flat: one collapsed node stands for all memory;
    * context-insensitive: one graph for the program;
    * bottom-up: callee effects reach their callers;
    * bottom-up and top-down: caller context then reaches
      the callees, in one pass;
    * context-sensitive: both, until every call is settled.

  An `Analysis` holds the result of its last run. A run that ends with an
  error leaves behind what it had computed; the summaries and the call graph
  are replaced only once they are complete.

  Key definitions include:
    * `Analysis`
    * `Analysis.run`
    * `Analysis.graph?`
    * `Analysis.summaryGraph?`
    * `Analysis.mayAlias`
    * `Analysis.allocSitesOf`
-/

-- State And Statistics

namespace HeapShape

/- What a context-sensitive run did. -/
structure ContextSensitiveStats where
  bottomUp : BottomUpStats := {}
  fixpoint : FixpointStats := {}
  uniqueScalars? : Option ClosureStats := none
  allocSites? : Option ClosureStats := none
  deadNodesRemoved : Nat := 0
deriving DecidableEq, Repr, Inhabited

/- What a run of any kind did. -/
structure AnalysisStats where
  kind : AnalysisKind
  /- Functions with a graph. -/
  functions : Nat := 0
  graphs : Nat := 0
  liveNodes : Nat := 0
  bottomUp? : Option BottomUpStats := none
  topDown? : Option TopDownStats := none
  fixpoint? : Option FixpointStats := none
deriving DecidableEq, Repr, Inhabited

/- An analysis and the result of its last run. -/
structure Analysis where
  config : Config
  store : Store := {}
  /- The graphs after the bottom-up pass. -/
  summaries? : Option Store := none
  callGraph? : Option CallGraph := none
  stats : ContextSensitiveStats := {}
deriving Inhabited

namespace Analysis

/-
  An analysis that has not run. A context-sensitive one has summaries of its
  own from the start.
-/
def new
    (config : Config) : Analysis where
  config := config
  summaries? :=
    match config.kind with
    | .contextSensitive => some {}
    | _ => none

/- The passes of this analysis on a program. -/
def context
    (a : Analysis)
    (p : Program)
    (c : CallGraph) : Context where
  program := p
  callGraph := c
  config := a.config

end Analysis

-- Runs

/- Forget the calls of a graph and free its dead nodes. -/
def Graph.clean
    (g : Graph) : Checked (Nat × Graph) :=
  g.clearCallSites.removeDead

/- Clean every graph, counting the freed nodes of each. -/
def Store.clean
    (s : Store) : Checked (List Nat × Store) :=
  s.mapGraphs Graph.clean

/- Merge a node into the node that stands for all memory. -/
def Graph.flattenInto
    (state : NodeId × Graph)
    (id : NodeId) : Checked (NodeId × Graph) := do
  let (rep, g) := state
  let (node, g) ← g.findNode id
  if node = rep then
    return (rep, g)
  else
    let (node, g) ← g.collapse node
    let g ← g.unify (Cell.start rep) (Cell.start node)
    g.findNode rep

/- Merge all nodes of a graph into one collapsed node. -/
def Graph.flatten
    (g : Graph) : Checked Graph := do
  match g.liveNodes.map Prod.fst with
  | [] => return g
  | first :: rest => do
      let (rep, g) ← g.collapse first
      let (_, g) ← rest.foldlM Graph.flattenInto (rep, g)
      g.compress

namespace Analysis

/- The answer of a run, or its error, and what is left. -/
abbrev Ran
    (α : Type) :=
  Except AnalysisError α × Analysis

/- Resolve a call in the one graph of a program. -/
def mergeCall
    (ctx : Context)
    (g : Graph)
    (id : CallSiteId) : Checked Graph :=
  match ctx.callSite? id with
  | none => .ok g
  | some cs =>
    match ctx.function? cs.caller with
    | none => .ok g
    | some caller =>
      if caller.hasBody then do
        let callees := ctx.definedCallees cs
        let g ← callees.foldlM
          (fun g callee => resolveInPlace g cs callee) g
        let complete :=
          match ctx.callGraph.resolution? cs.id with
          | some r =>
            r.fullyResolved
              && r.callees.length == callees.length
          | none => false
        if !complete || callees.isEmpty then
          markExternal g cs
        else
          return g
      else .ok g

/- One graph for every function with a body. -/
def runContextInsensitive
    (a : Analysis)
    (p : Program) : Checked (Ran Unit) := do
  let a := { a with store := {}, summaries? := none }
  let c := CallGraph.ofProgram p
  let defs := p.functions.filter FunctionDef.hasBody
  let empty : Graph := { config := a.config.graph }
  match ← lowerFunctions p defs empty with
  | .error e => return (.error e, a)
  | .ok g => do
      let ctx := a.context p c
      let g ← c.order.foldlM (mergeCall ctx) g
      let g ← g.compress
      let (_, g) ← g.clean
      let members := defs.map FunctionDef.id
      let (_, store) := a.store.insert members g
      return (.ok (),
        { a with store := store, callGraph? := some c })

/- One collapsed node for all memory. -/
def runFlat
    (a : Analysis)
    (p : Program) : Checked (Ran Unit) := do
  match ← a.runContextInsensitive p with
  | (.error e, a) => return (.error e, a)
  | (.ok (), a) => do
      let (_, store) ← a.store.mapGraphs fun g => do
        return ((), ← g.flatten)
      return (.ok (), { a with store := store })

/- A bottom-up pass, and a top-down pass if asked for. -/
def runBottomUp
    (a : Analysis)
    (p : Program)
    (topDown : Bool) :
    Checked (Ran (BottomUpStats × Option TopDownStats)) := do
  let a := { a with store := {}, summaries? := none }
  let c := CallGraph.ofProgram p
  let ctx := a.context p c
  match ← bottomUpPass ctx a.store with
  | (.error e, s) => return (.error e, { a with store := s })
  | (.ok up, s) => do
      let summaries := s
      let (down?, s) ←
        if topDown then do
          let (down, s) ← topDownPass ctx s
          pure (some down, s)
        else pure (none, s)
      let (_, s) ← s.clean
      return (.ok (up, down?),
        { a with
          store := s
          summaries? := some summaries
          callGraph? := some c })

/- The closures and the final check, as configured. -/
def closeAndCheck
    (a : Analysis)
    (ctx : Context) : Checked (Ran Unit) := do
  let settings := a.config.fixpoint
  let (scalars, s) ←
    if settings.uniqueScalarClosure then do
      let (r, s) ← uniqueScalarClosure ctx a.store
      pure (r.map some, s)
    else pure (.ok none, a.store)
  let a := { a with store := s }
  match scalars with
  | .error e => return (.error e, a)
  | .ok scalars? => do
      let a := { a with
        stats := { a.stats with uniqueScalars? := scalars? } }
      let (sites, s) ←
        if settings.allocSiteClosure then do
          let (r, s) ← allocSiteClosure ctx a.store
          pure (r.map some, s)
        else pure (.ok none, a.store)
      let a := { a with store := s }
      match sites with
      | .error e => return (.error e, a)
      | .ok sites? => do
          let a := { a with
            stats := { a.stats with allocSites? := sites? } }
          let verdict ←
            if settings.checkPostcondition then
              checkStable ctx a.store
            else pure (.ok ())
          return (verdict, a)

/-
  A bottom-up pass, the fixpoint, the closures and the final check.
-/
def runContextSensitive
    (a : Analysis)
    (p : Program) : Checked (Ran ContextSensitiveStats) := do
  let a := { a with store := {}, stats := {} }
  let c := CallGraph.ofProgram p
  let ctx := a.context p c
  match ← bottomUpPass ctx a.store with
  | (.error e, s) => return (.error e, { a with store := s })
  | (.ok up, s) => do
      let a := { a with
        store := s
        summaries? := some s
        callGraph? := some c
        stats := { bottomUp := up } }
      match ← runFixpoint ctx a.store with
      | (.error e, s) =>
        return (.error e, { a with store := s })
      | (.ok fix, s) => do
          let a := { a with
            store := s
            stats := { a.stats with fixpoint := fix } }
          match ← a.closeAndCheck ctx with
          | (.error e, a) => return (.error e, a)
          | (.ok (), a) => do
              let (dead, s) ← a.store.clean
              let stats := { a.stats with
                deadNodesRemoved := dead.foldl (· + ·) 0 }
              return (.ok stats,
                { a with store := s, stats := stats })

/- Analyse a program, replacing the last result. -/
def runParts
    (a : Analysis)
    (p : Program) : Checked (Ran AnalysisStats) := do
  let blank : AnalysisStats := { kind := a.config.kind }
  match a.config.kind with
  | .flat =>
    let (r, a) ← a.runFlat p
    return (r.map fun _ => blank, a)
  | .contextInsensitive =>
    let (r, a) ← a.runContextInsensitive p
    return (r.map fun _ => blank, a)
  | .bottomUp =>
    let (r, a) ← a.runBottomUp p false
    return (r.map fun (up, _) =>
      { blank with bottomUp? := some up }, a)
  | .bottomUpTopDown =>
    let (r, a) ← a.runBottomUp p true
    return (r.map fun (up, down?) =>
      { blank with
        bottomUp? := some up
        topDown? := down? }, a)
  | .contextSensitive =>
    let (r, a) ← a.runContextSensitive p
    return (r.map fun stats =>
      { blank with
        bottomUp? := some stats.bottomUp
        fixpoint? := some stats.fixpoint }, a)

/- Analyse a program and count what there is. -/
def run
    (a : Analysis)
    (p : Program) : Checked (Ran AnalysisStats) := do
  let (r, a) ← a.runParts p
  let owned := p.functions.filter fun f =>
    a.store.contains f.id
  let counted := r.map fun stats =>
    { stats with
      functions := owned.length
      graphs := a.store.graphs.size
      liveNodes :=
        (a.store.graphs.toList.map Graph.liveCount).foldl
          (· + ·) 0 }
  return (counted, a)

-- Questions

/- The final graph of a function. -/
def graph?
    (a : Analysis)
    (f : FunctionId) : Option Graph :=
  a.store.graph? f

/-
  The graphs after the bottom-up pass; the final graphs where there is no
  such pass.
-/
def summaryStore
    (a : Analysis) : Store :=
  a.summaries?.getD a.store

/- The graph of a function after the bottom-up pass. -/
def summaryGraph?
    (a : Analysis)
    (f : FunctionId) : Option Graph :=
  a.summaryStore.graph? f

/- The final graph of a function, or an error. -/
def requireGraph
    (a : Analysis)
    (f : FunctionId) : Except AnalysisError Graph :=
  match a.graph? f with
  | some g => .ok g
  | none => .error (.unknownFunction f)

/- How a call site was resolved. -/
def callResolution?
    (a : Analysis)
    (cs : CallSiteId) : Option CallResolution :=
  a.callGraph?.bind fun c => c.resolution? cs

/-
  Run the fixpoint again on the last result. This needs the call graph of an
  earlier run.
-/
def propagate
    (a : Analysis)
    (p : Program) : Checked (Ran FixpointStats) :=
  match a.callGraph? with
  | none =>
    .ok (.error
      (.other "no call graph: run_on_module first"), a)
  | some c => do
      let (r, s) ← runFixpoint (a.context p c) a.store
      return (r, { a with store := s })

/- What a call site still needs. -/
def decide
    (a : Analysis)
    (p : Program)
    (cs : CallSiteId) : Checked Propagation :=
  match a.callGraph? with
  | none => .ok .settled
  | some c =>
    let ctx := a.context p c
    match ctx.callSite? cs with
    | none => .ok .settled
    | some cs => ctx.pending a.store cs

/-
  Whether two values of a function may address the same memory.
-/
def mayAlias
    (a : Analysis)
    (f : FunctionId)
    (v w : ValueId) : Checked Bool :=
  match a.graph? f with
  | none => .ok false
  | some g => do
      match ← g.cell? v, ← g.cell? w with
      | some c, some d => do
          let c ← g.effective c
          let d ← g.effective d
          let n ← g.contents c.node
          return c.node == d.node
            && (n.isCollapsed || c.offset == d.offset)
      | _, _ => return false

/-
  The pairs of a list of values that may alias, each value with itself and
  with those after it.
-/
def aliasPairs
    (a : Analysis)
    (f : FunctionId) :
    List ValueId → Checked (List (ValueId × ValueId))
| [] => .ok []
| v :: rest => do
    let hits ← (v :: rest).filterM fun w => a.mayAlias f v w
    let others ← aliasPairs a f rest
    return hits.map (fun w => (v, w)) ++ others

/- The sites that the memory of a value may come from. -/
def allocSitesOf
    (a : Analysis)
    (f : FunctionId)
    (v : ValueId) : Checked (List AllocSiteId) :=
  match a.graph? f with
  | none => .ok []
  | some g => do
      match ← g.cell? v with
      | none => return []
      | some c => do
          let n ← g.nodeOf c
          return n.allocSites.toList.map AllocSite.id

end Analysis

end HeapShape
