import HeapShape.Analysis
import HeapShape.Graph.Encoding
import HeapShape.Json.Printer

/-
  The report of a run.

  A report says what the run did, how many nodes each function has and what
  each call site may call. If asked for, the snapshots of the graphs follow.
  A snapshot can fail; what was written before it stands.

  Key definitions include:
    * `Report`
    * `Report.summary`
    * `Report.render`
-/

-- Lines

namespace HeapShape

/- Fill a text with blanks on its right. -/
def padRight
    (width : Nat)
    (s : String) : String :=
  s ++ String.ofList (List.replicate (width - s.length) ' ')

/- Fill a text with blanks on its left. -/
def padLeft
    (width : Nat)
    (s : String) : String :=
  String.ofList (List.replicate (width - s.length) ' ') ++ s

/- A program, its analysis and what the run did. -/
structure Report where
  program : Program
  analysis : Analysis
  stats : AnalysisStats
  /- The time of the run in milliseconds, as text. -/
  elapsed : String

namespace Report

/- The counts of the run. -/
def countLines
    (r : Report) : List String :=
  let s := r.stats
  let counts :=
    "  " ++ toString s.functions ++ " functions, "
      ++ toString s.graphs ++ " graphs, "
      ++ toString s.liveNodes ++ " live nodes, "
      ++ r.elapsed ++ " ms"
  match s.fixpoint? with
  | none => [counts]
  | some f =>
    [counts,
      "  fixpoint: " ++ toString f.seeded ++ " seeded, "
        ++ toString f.itemsProcessed ++ " processed, "
        ++ toString f.downSteps ++ " down, "
        ++ toString f.upSteps ++ " up"]

/- The size of the graph of a function. -/
def functionLine
    (r : Report)
    (f : FunctionDef) : String :=
  let name := "  " ++ padRight 32 f.name
  match r.analysis.graph? f.id with
  | some g =>
    name ++ " " ++ padLeft 6 (toString g.liveCount)
      ++ " nodes"
  | none => name ++ "   (no body)"

/- What a call site may call, if that was resolved. -/
def callSiteLine?
    (r : Report)
    (cs : CallSite) : Option String :=
  (r.analysis.callResolution? cs.id).map fun res =>
    let names := res.callees.map r.program.functionName
    "  cs#" ++ toString cs.id ++ " in "
      ++ r.program.functionName cs.caller ++ " -> ["
      ++ String.intercalate ", " names ++ "]"
      ++ (if res.fullyResolved then "" else " (incomplete)")

/- All lines before the snapshots. -/
def summaryLines
    (r : Report) : List String :=
  ("Module: " ++ r.program.name ++ " ("
      ++ r.stats.kind.name ++ ")")
    :: r.countLines
    ++ ["", "Functions:"]
    ++ r.program.functions.map r.functionLine
    ++ ["", "Call sites:"]
    ++ r.program.sortedCallSites.filterMap r.callSiteLine?

/- The text before the snapshots. -/
def summary
    (r : Report) : String :=
  String.join (r.summaryLines.map (· ++ "\n"))

-- Snapshots

/- The snapshot of a graph under the name of its function. -/
def snapshotText
    (f : FunctionDef)
    (g : Graph) : Checked String := do
  let snapshot ← g.snapshot
  return "\n" ++ f.name ++ ":\n" ++ snapshot.toJson.pretty
    ++ "\n"

/- The functions with a body that have a graph. -/
def snapshotGraphs
    (r : Report) : List (FunctionDef × Graph) :=
  (r.program.functions.filter FunctionDef.hasBody).filterMap
    fun f => (r.analysis.graph? f.id).map fun g => (f, g)

/- Add texts to a text until one fails. -/
def appendTexts :
    String → List (Checked String) → String × Option Fault
| text, [] => (text, none)
| text, .ok next :: rest => appendTexts (text ++ next) rest
| text, .error fault :: _ => (text, some fault)

/-
  The text of a report, and the fault that ended it early.
-/
def render
    (r : Report)
    (withSnapshots : Bool) : String × Option Fault :=
  if withSnapshots then
    appendTexts r.summary
      (r.snapshotGraphs.map fun (f, g) => snapshotText f g)
  else
    (r.summary, none)

end Report

end HeapShape
