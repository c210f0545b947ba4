import HeapShape.Graph.Basic

/-
  Listings of graphs.

  A listing shows a graph under labels: the nodes by number, the resolved
  cells of the roots, the cells of the chosen call sites as they are stored,
  and the functions. Two listings are compared label by label, so that the
  effect of one operation can be shown without the rest.

  Key definitions include:
    * `Listing`
    * `Graph.listing`
    * `Listing.changes`
-/

-- Entries

namespace HeapShape

/- What stands under one label of a listing. -/
inductive ListingEntry where
  | text (s : String)
  | call (cells : CallSiteCells)
  | functions (ids : List FunctionId)
deriving DecidableEq, Inhabited

/- Entries by label. -/
abbrev Listing :=
  OrdMap String ListingEntry

/- The text of a slot; a free slot has none. -/
def Slot.describe? : Slot → Option String
| .free => none
| .forward target => some ("forward -> " ++ target.render)
| .live node => some node.describe

namespace Graph

/- The occupied slots by number. -/
def slotEntries
    (g : Graph) : List (String × ListingEntry) :=
  (List.range g.slots.size).filterMap fun i =>
    (g.slot i).describe?.map fun text =>
      ("n" ++ toString i, .text text)

/- The roots by kind and number, with resolved cells. -/
def rootEntries
    (g : Graph) : Checked (List (String × ListingEntry)) := do
  return (← g.rootCells).map fun (r, c) =>
    (r.kindName ++ toString r.id, .text c.render)

/- Those of some call sites that have cells. -/
def callEntries
    (g : Graph)
    (ids : List CallSiteId) : List (String × ListingEntry) :=
  ids.filterMap fun id =>
    (g.callSites.get? id).map fun cells =>
      ("cs" ++ toString id, .call cells)

/- The functions of a graph that has any. -/
def functionEntries
    (g : Graph) : List (String × ListingEntry) :=
  if g.functions.isEmpty then []
  else [("functions", .functions g.functions.toList)]

/-
  The entries of a graph. Every label starts with `lead`.
-/
def listingEntries
    (g : Graph)
    (lead : String)
    (ids : List CallSiteId) :
    Checked (List (String × ListingEntry)) := do
  let entries := g.slotEntries ++ (← g.rootEntries)
    ++ g.callEntries ids ++ g.functionEntries
  return entries.map fun (label, e) => (lead ++ label, e)

/- The listing of one graph. -/
def listing
    (g : Graph)
    (ids : List CallSiteId) : Checked Listing := do
  return OrdMap.ofList (← g.listingEntries "" ids)

end Graph

-- Several Graphs

namespace Listing

/- The listing of graphs, each with a lead of its own. -/
def ofGraphs
    (ids : List CallSiteId)
    (graphs : List (String × Graph)) : Checked Listing := do
  let parts ← graphs.mapM fun (lead, g) =>
    g.listingEntries lead ids
  return OrdMap.ofList parts.flatten

/-
  The labels that changed, with what stands under them now; nothing for a
  label that is gone.
-/
def changes
    (old new : Listing) :
    List (String × Option ListingEntry) :=
  let changed := new.filter fun label e =>
    decide (old.get? label ≠ some e)
  let gone := old.filter fun label _ =>
    !new.contains label
  changed.entries.map (fun (label, e) => (label, some e))
    ++ gone.keys.map fun label => (label, none)

end Listing

end HeapShape
