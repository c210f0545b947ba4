import HeapShape.Lowering
import HeapShape.Propagation

/-
  The bottom-up pass.

  Components are visited callees first. Each gets one graph with the bodies
  of its members; its calls are then resolved against the finished summaries
  of other components, or in place inside the component.

  Key definitions include:
    * `Answered`
    * `BottomUpStats`
    * `bottomUpPass`
-/

-- Passes

namespace HeapShape

/-
  The answer of a pass, or its error, with the store it leaves behind in
  either case.
-/
abbrev Answered
    (α : Type) :=
  Except AnalysisError α × Store

/- What a bottom-up pass did. -/
structure BottomUpStats where
  components : Nat := 0
  functions : Nat := 0
  callSitesResolved : Nat := 0
  inPlace : Nat := 0
  externalCalls : Nat := 0
deriving DecidableEq, Repr, Inhabited

-- One Call

/- Connect a call with one callee that has a body. -/
def resolveCallee
    (ctx : Context)
    (cs : CallSite)
    (state : BottomUpStats × Store)
    (callee : FunctionDef) :
    Checked (BottomUpStats × Store) := do
  let (stats, s) := state
  if s.sameGraph cs.caller callee.id then
    match s.graph? cs.caller with
    | none => return (stats, s)
    | some g => do
        let g ← resolveInPlace g cs callee
        return ({ stats with inPlace := stats.inPlace + 1 },
          s.setGraph cs.caller g)
  else
    match ← bottomUpStep ctx.config s cs callee with
    | none => return (stats, s)
    | some s =>
      return ({ stats with
        callSitesResolved := stats.callSitesResolved + 1 },
        s)

/-
  Resolve a call: connect it with every callee that has a body, and mark its
  memory if there may be others.
-/
def resolveCall
    (ctx : Context)
    (state : BottomUpStats × Store)
    (cs : CallSite) : Checked (BottomUpStats × Store) :=
  match ctx.callGraph.resolution? cs.id with
  | none => .ok state
  | some r => do
      let callees := ctx.callees cs
      let external :=
        !r.fullyResolved || r.callees.isEmpty
          || callees.any fun f => !f.hasBody
      let defined := callees.filter FunctionDef.hasBody
      let (stats, s) ←
        defined.foldlM (resolveCallee ctx cs) state
      match external, s.graph? cs.caller with
      | true, some g => do
          let g ← markExternal g cs
          return ({ stats with
            externalCalls := stats.externalCalls + 1 },
            s.setGraph cs.caller g)
      | _, _ => return (stats, s)

-- All Components

/- The calls inside some functions, function by function. -/
def Context.callSitesIn
    (ctx : Context)
    (fs : List FunctionId) : List CallSite :=
  (fs.map ctx.callGraph.defs).flatten.filterMap ctx.callSite?

/- Compress the graph of a function. -/
def compressGraph
    (s : Store)
    (f? : Option FunctionId) : Checked Store :=
  match f? with
  | none => .ok s
  | some f =>
    match s.graph? f with
    | none => .ok s
    | some g => do
        return s.setGraph f (← g.compress)

/- Build and resolve the graph of one component. -/
def bottomUpComponent
    (ctx : Context)
    (stats : BottomUpStats)
    (s : Store)
    (component : List FunctionId) :
    Checked (Answered BottomUpStats) := do
  let defs := (component.filterMap ctx.function?).filter
    FunctionDef.hasBody
  let members := defs.map FunctionDef.id
  if members.isEmpty then
    return (.ok stats, s)
  else
    let empty : Graph := { config := ctx.config.graph }
    match ← lowerFunctions ctx.program defs empty with
    | .error e => return (.error e, s)
    | .ok g => do
        let (_, s) := s.insert members g
        let stats := { stats with
          components := stats.components + 1
          functions := stats.functions + members.length }
        let (stats, s) ← (ctx.callSitesIn members).foldlM
          (resolveCall ctx) (stats, s)
        let s ← compressGraph s members.head?
        return (.ok stats, s)

/- Build and resolve components until one fails. -/
def bottomUpComponents
    (ctx : Context) :
    BottomUpStats → Store → List (List FunctionId) →
      Checked (Answered BottomUpStats)
| stats, s, [] => .ok (.ok stats, s)
| stats, s, component :: rest => do
    match ← bottomUpComponent ctx stats s component with
    | (.ok stats, s) => bottomUpComponents ctx stats s rest
    | (.error e, s) => return (.error e, s)

/- Build and summarize every function with a body. -/
def bottomUpPass
    (ctx : Context)
    (s : Store) : Checked (Answered BottomUpStats) :=
  bottomUpComponents ctx {} s ctx.callGraph.components

end HeapShape
