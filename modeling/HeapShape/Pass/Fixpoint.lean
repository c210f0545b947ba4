import HeapShape.Pass.Closure

/-
  The fixpoint over call sites.

  Every call is driven to a state in which its caller simulates its callees
  injectively. A step up queues the calls that involve the caller, a step
  down those that involve the callee.

  Key definitions include:
    * `Context.pending`
    * `FixpointStats`
    * `runFixpoint`
    * `checkStable`
-/

-- Pending Calls

namespace HeapShape

namespace Context

/- The first need of a call over some callees. -/
def firstNeed
    (ctx : Context)
    (s : Store)
    (cs : CallSite) :
    List FunctionDef → Checked Propagation
| [] => .ok .settled
| callee :: rest => do
    match ← ctx.decide s cs callee with
    | .settled => ctx.firstNeed s cs rest
    | need => return need

/- What a call still needs. -/
def pending
    (ctx : Context)
    (s : Store)
    (cs : CallSite) : Checked Propagation :=
  if ctx.isPropagatable cs then
    ctx.firstNeed s cs (ctx.definedCallees cs)
  else .ok .settled

end Context

/- What a fixpoint run did. -/
structure FixpointStats where
  seeded : Nat := 0
  itemsProcessed : Nat := 0
  downSteps : Nat := 0
  upSteps : Nat := 0
deriving DecidableEq, Repr, Inhabited

/- The number of propagation steps. -/
def FixpointStats.steps
    (s : FixpointStats) : Nat :=
  s.downSteps + s.upSteps

-- The Main Loop

/- Steps so far, the store, and the waiting calls. -/
abbrev FixpointState :=
  FixpointStats × Store × Worklist CallSiteId

/- Do what a call needs for one callee. -/
def settleCallee
    (ctx : Context)
    (cs : CallSite)
    (state : FixpointState)
    (callee : FunctionDef) : Checked FixpointState := do
  let (stats, s, w) := state
  match ← ctx.decide s cs callee with
  | .settled => return (stats, s, w)
  | .down =>
    match ← topDownStep ctx.config s cs callee with
    | none => return (stats, s, w)
    | some (_, s) =>
      return ({ stats with
        downSteps := stats.downSteps + 1 }, s,
        w.pushAll (ctx.dependents callee.id))
  | .up =>
    match ← bottomUpStep ctx.config s cs callee with
    | none => return (stats, s, w)
    | some s =>
      return ({ stats with upSteps := stats.upSteps + 1 },
        s, w.pushAll (ctx.dependents cs.caller))

/- Do what a waiting call needs. -/
def fixpointStep
    (ctx : Context) :
    Worklist.Step CallSiteId (FixpointStats × Store) :=
  fun id (stats, s) w =>
    match ctx.callSite? id with
    | none => .ok (.ok (), (stats, s), w)
    | some cs =>
      if ctx.isPropagatable cs then do
        let (stats, s, w) ←
          (ctx.definedCallees cs).foldlM
            (settleCallee ctx cs) (stats, s, w)
        return (.ok (), (stats, s), w)
      else .ok (.ok (), (stats, s), w)

/- The calls that need something, in order. -/
def pendingCalls
    (ctx : Context)
    (s : Store) : Checked (List CallSiteId) :=
  ctx.callGraph.order.filterM fun id =>
    match ctx.callSite? id with
    | none => .ok false
    | some cs => do
        return (← ctx.pending s cs) != .settled

/- Drive every call to a settled state. -/
def runFixpoint
    (ctx : Context)
    (s : Store) : Checked (Answered FixpointStats) := do
  let seeds ← pendingCalls ctx s
  let start : Worklist CallSiteId := {}
  let w := start.pushAll seeds
  let run ← Worklist.drain
    ctx.config.fixpoint.maxIterations
    (fixpointStep ctx)
    ({ seeded := w.size }, s)
    w
  let (stats, s) := run.state
  match run.outcome with
  | .ok n => return (.ok { stats with itemsProcessed := n }, s)
  | .error e => return (.error e, s)

/- The first call of a list that needs something. -/
def firstUnstable
    (ctx : Context)
    (s : Store) :
    List CallSiteId → Checked (Except AnalysisError Unit)
| [] => .ok (.ok ())
| id :: rest =>
    match ctx.callSite? id with
    | none => firstUnstable ctx s rest
    | some cs => do
        match ← ctx.pending s cs with
        | .settled => firstUnstable ctx s rest
        | need =>
            return .error (.unstable cs.id need.label)

/- Every call must be settled. -/
def checkStable
    (ctx : Context)
    (s : Store) : Checked (Except AnalysisError Unit) :=
  firstUnstable ctx s ctx.callGraph.order

end HeapShape
