import HeapShape.Propagation

/-
  The top-down pass.

  Components are visited callers first. Every call copies its context into
  each of its callees that has a graph of its own.

  Key definitions include:
    * `TopDownStats`
    * `topDownPass`
-/

-- Statistics

namespace HeapShape

/- What a top-down pass did. -/
structure TopDownStats where
  components : Nat := 0
  callSitesPropagated : Nat := 0
  nodesPruned : Nat := 0
deriving DecidableEq, Repr, Inhabited

-- Calls And Components

/- Copy the context of a call into one callee. -/
def pushContext
    (ctx : Context)
    (cs : CallSite)
    (state : TopDownStats × Store)
    (callee : FunctionDef) :
    Checked (TopDownStats × Store) := do
  let (stats, s) := state
  match ← topDownStep ctx.config s cs callee with
  | none => return (stats, s)
  | some (pruned, s) =>
    return ({ stats with
      callSitesPropagated := stats.callSitesPropagated + 1
      nodesPruned := stats.nodesPruned + pruned }, s)

/- Copy the context of a call into all its callees. -/
def pushCall
    (ctx : Context)
    (state : TopDownStats × Store)
    (cs : CallSite) : Checked (TopDownStats × Store) :=
  if ctx.isPropagatable cs then
    (ctx.definedCallees cs).foldlM (pushContext ctx cs) state
  else .ok state

/- Push the calls of one component, counting it if any. -/
def topDownComponent
    (ctx : Context)
    (state : TopDownStats × Store)
    (component : List FunctionId) :
    Checked (TopDownStats × Store) := do
  let sites :=
    (component.map ctx.callGraph.defs).flatten.filterMap
      ctx.callSite?
  let before := state.1.callSitesPropagated
  let (stats, s) ← sites.foldlM (pushCall ctx) state
  if stats.callSitesPropagated > before then
    return ({ stats with
      components := stats.components + 1 }, s)
  else
    return (stats, s)

/- Push every call, callers first. -/
def topDownPass
    (ctx : Context)
    (s : Store) : Checked (TopDownStats × Store) :=
  ctx.callGraph.components.reverse.foldlM
    (topDownComponent ctx) ({}, s)

end HeapShape
