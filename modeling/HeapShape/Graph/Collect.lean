import HeapShape.Graph.Basic

/-
  Collecting garbage.

  `compress` replaces every stored cell by the live cell it stands for and
  frees the forwarding slots. `removeDead` then frees what no root and no
  recorded call reaches, and `pruneForeign` what was copied in from a caller
  and is bound to nothing of the callee. Slots are freed in ascending order.

  Key definitions include:
    * `Graph.compress`
    * `Graph.reachable`
    * `Graph.removeDead`
    * `Graph.pruneForeign`
-/

-- Compression

namespace HeapShape

namespace Graph

/- Resolve the cells of a call. -/
def resolveCallSite
    (g : Graph)
    (cells : CallSiteCells) : Checked CallSiteCells := do
  let actuals ← cells.actuals.mapM fun a =>
    a.mapM g.resolve
  let result? ← cells.result?.mapM g.resolve
  return { actuals := actuals, result? := result? }

/- Resolve the links of a live node. -/
def resolveSlot
    (g : Graph) :
    Slot → Checked Slot
| .live n => do
    let links ← n.links.mapChecked g.resolve
    return .live { n with links := links }
| s => .ok s

/- Free the slots that fail a test, in ascending order. -/
def retain
    (g : Graph)
    (keep : NodeId → Slot → Bool) : Nat × Graph :=
  let drop := (List.range g.slots.size).filter fun i =>
    (g.slot i).isOccupied && !keep i (g.slot i)
  let g := drop.foldl
    (fun g i =>
      { g.setSlot i .free with free := i :: g.free }) g
  (drop.length, g)

/-
  Replace every stored cell by its live cell, then free the forwarding
  slots.
-/
def compress
    (g : Graph) : Checked Graph := do
  let slots ← g.slots.toList.mapM g.resolveSlot
  let roots ← g.roots.mapChecked g.resolve
  let callSites ← g.callSites.mapChecked g.resolveCallSite
  let g := { g with
    slots := slots.toArray
    roots := roots
    callSites := callSites }
  return (g.retain fun _ s => !s.isForward).2

-- Reachability

/- The number of links of all live nodes. -/
def linkCount
    (g : Graph) : Nat :=
  (g.liveNodes.map fun (_, n) => n.links.size).foldl
    (· + ·) 0

/-
  Visit the nodes on a stack and all they lead to, at most `fuel` of them.
-/
def reachWithin
    (g : Graph) :
    Nat → List NodeId → OrdSet NodeId →
      Checked (OrdSet NodeId)
| _, [], seen => .ok seen
| 0, _ :: _, _ => .error .unbounded
| fuel + 1, id :: stack, seen => do
    let c ← g.resolve (Cell.start id)
    if seen.contains c.node then
      g.reachWithin fuel stack seen
    else
      let n ← g.contents c.node
      let next := n.links.values.map Cell.node
      g.reachWithin fuel (next.reverse ++ stack)
        (seen.insert c.node)

/-
  The live nodes reached from some nodes through links. Each start and each
  link is visited at most once.
-/
def reachable
    (g : Graph)
    (starts : List NodeId) : Checked (OrdSet NodeId) :=
  g.reachWithin (starts.length + g.linkCount)
    starts.reverse OrdSet.empty

-- Removing Nodes

/- The nodes of the recorded calls. -/
def callSiteNodes
    (g : Graph) : List NodeId :=
  (g.callSites.values.map CallSiteCells.cells).flatten.map
    Cell.node

/-
  Free every node that no root and no recorded call reaches. The result is
  the number of freed nodes.
-/
def removeDead
    (g : Graph) : Checked (Nat × Graph) := do
  let g ← g.compress
  let roots ← g.rootCells
  let starts := roots.map fun (_, c) => c.node
  let live ← g.reachable (starts ++ g.callSiteNodes)
  return g.retain fun i _ => live.contains i

/-
  Free every foreign node that is bound to no root, with the links into it.
  A foreign node bound to a root stays and is foreign no longer. The result
  is the number of freed nodes.
-/
def pruneForeign
    (g : Graph) : Checked (Nat × Graph) := do
  let g ← g.compress
  let roots ← g.rootCells
  let rooted := OrdSet.ofList (roots.map fun (_, c) => c.node)
  let foreign := OrdSet.ofList <|
    (g.liveNodes.filter fun (i, n) =>
      n.isForeign && !rooted.contains i).map Prod.fst
  let g ← rooted.toList.foldlM
    (fun g i => g.modifyContents i fun n =>
      { n with flags := n.flags.erase .foreign })
    g
  if foreign.isEmpty then
    return (0, g)
  else
    let slots := g.slots.map fun s =>
      match s with
      | .live n =>
        .live { n with
          links := n.links.filter fun _ t =>
            !foreign.contains t.node }
      | s => s
    return { g with slots := slots }.retain fun i _ =>
      !foreign.contains i

end Graph

end HeapShape
