import HeapShape.Analysis
import HeapShape.Json.Record

/-
  Statistics as JSON documents.

  Key definitions include:
    * `AnalysisStats.toJson`
    * `ContextSensitiveStats.toJson`
-/

-- Passes

namespace HeapShape

open Json

/- Write what a bottom-up pass did. -/
def BottomUpStats.toJson
    (s : BottomUpStats) : Json :=
  obj [
    ("sccs", nat s.components),
    ("functions", nat s.functions),
    ("call_sites_resolved", nat s.callSitesResolved),
    ("in_place", nat s.inPlace),
    ("external_calls", nat s.externalCalls)]

/- Write what a top-down pass did. -/
def TopDownStats.toJson
    (s : TopDownStats) : Json :=
  obj [
    ("sccs", nat s.components),
    ("call_sites_propagated", nat s.callSitesPropagated),
    ("nodes_pruned", nat s.nodesPruned)]

/- Write what a fixpoint run did. -/
def FixpointStats.toJson
    (s : FixpointStats) : Json :=
  obj [
    ("seeded", nat s.seeded),
    ("items_processed", nat s.itemsProcessed),
    ("down_steps", nat s.downSteps),
    ("up_steps", nat s.upSteps)]

/- Write what a closure did. -/
def ClosureStats.toJson
    (s : ClosureStats) : Json :=
  obj [
    ("iterations", nat s.iterations),
    ("changes", nat s.changes)]

-- Runs

open Json

/- Write what a context-sensitive run did. -/
def ContextSensitiveStats.toJson
    (s : ContextSensitiveStats) : Json :=
  obj [
    ("bottom_up", s.bottomUp.toJson),
    ("fixpoint", s.fixpoint.toJson),
    ("unique_scalars",
      ofOption ClosureStats.toJson s.uniqueScalars?),
    ("alloc_sites",
      ofOption ClosureStats.toJson s.allocSites?),
    ("dead_nodes_removed", nat s.deadNodesRemoved)]

/- Write what a run of any kind did. -/
def AnalysisStats.toJson
    (s : AnalysisStats) : Json :=
  obj [
    ("kind", str s.kind.name),
    ("functions", nat s.functions),
    ("graphs", nat s.graphs),
    ("live_nodes", nat s.liveNodes),
    ("bottom_up", ofOption BottomUpStats.toJson s.bottomUp?),
    ("top_down", ofOption TopDownStats.toJson s.topDown?),
    ("fixpoint", ofOption FixpointStats.toJson s.fixpoint?)]

end HeapShape
