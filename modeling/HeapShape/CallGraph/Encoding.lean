import HeapShape.CallGraph
import HeapShape.Json.Record

/-
  Call graphs as JSON documents.

  Key definitions include:
    * `CallResolution.toJson`
    * `CallGraph.functionJson`
    * `CallGraph.toJson`
-/

-- Resolutions And Functions

namespace HeapShape

open Json

/- Write how a call site was resolved. -/
def CallResolution.toJson
    (r : CallResolution) : Json :=
  obj [
    ("call_site", nat r.callSite),
    ("caller", nat r.caller),
    ("callees", arr (r.callees.map nat)),
    ("fully_resolved", bool r.fullyResolved)]

namespace CallGraph

/-
  Write what is known of a function, which need not be in the program.
  Components are compared with that of the first function of the program.
-/
def functionJson
    (c : CallGraph)
    (p : Program)
    (f : FunctionId) : Json :=
  let withFirst :=
    match p.functions.head? with
    | some first => c.sameComponent f first.id
    | none => false
  obj [
    ("id", nat f),
    ("name", str (p.functionName f)),
    ("scc", ofOption nat (c.component? f)),
    ("recursive", bool (c.isRecursive f)),
    ("uses", arr ((c.uses f).map nat)),
    ("defs", arr ((c.defs f).map nat)),
    ("found",
      ofOption (fun d => str d.name) (c.function? p f)),
    ("same_scc_as_first", bool withFirst)]

end CallGraph

-- Whole Graphs

open Json

namespace CallGraph

/-
  Write a call graph, with its program's functions and some others.
-/
def toJson
    (c : CallGraph)
    (p : Program)
    (others : List FunctionId) : Json :=
  let ids := fun (ns : List Nat) => arr (ns.map nat)
  let asked := p.functions.map FunctionDef.id ++ others
  obj [
    ("sccs", arr (c.components.map ids)),
    ("top_down", arr (c.components.reverse.map ids)),
    ("functions", arr (asked.map (c.functionJson p))),
    ("resolutions",
      arr (c.resolutions.values.map CallResolution.toJson)),
    ("order", ids c.order),
    ("found_call_sites",
      arr (c.order.map fun cs =>
        bool (c.callSite? p cs).isSome)),
    ("sorted", ids (p.sortedCallSites.map CallSite.id)),
    ("edges", nat c.edgeCount)]

end CallGraph

end HeapShape
