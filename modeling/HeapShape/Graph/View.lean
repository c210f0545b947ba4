import HeapShape.Graph.Basic

/-
  Views of a graph for its users.

  Key definitions include:
    * `MemoryRegion`
    * `Graph.memoryRegions`
    * `NodeSnapshot`
    * `GraphSnapshot`
    * `Graph.snapshot`
    * `Graph.placeAt`
-/

-- Memory Regions

namespace HeapShape

/- One position of a live node. -/
structure MemoryRegion where
  /- The place of the region in the list. -/
  id : Nat
  node : NodeId
  offset : Nat
  read : Bool
  modified : Bool
  allocSites : List AllocSiteId
deriving DecidableEq, Repr, Inhabited

namespace Graph

/- The start of a node and where it has types or links. -/
def regionOffsets
    (n : Node) : List Nat :=
  (OrdSet.ofList
    (0 :: n.types.keys
      ++ n.links.keys.map Field.offset)).toList

/- The regions of one node, not yet numbered. -/
def nodeRegions
    (id : NodeId)
    (n : Node) : List MemoryRegion :=
  (regionOffsets n).map fun offset =>
    { id := 0
      node := id
      offset := offset
      read := n.isRead
      modified := n.isModified
      allocSites := n.allocSites.toList.map AllocSite.id }

/- The regions of a graph, numbered in order. -/
def memoryRegions
    (g : Graph) : List MemoryRegion :=
  let all :=
    (g.liveNodes.map fun (id, n) => nodeRegions id n).flatten
  all.zipIdx.map fun (r, i) => { r with id := i }

end Graph

-- Snapshots

/- What a snapshot tells of a node. -/
structure NodeSnapshot where
  id : NodeId
  /- The letters of the flags. -/
  flags : String
  size : Nat
  types : List (Nat × List String)
  /- Each field as text, with the live cell it leads to. -/
  links : List (String × Cell)
  allocSites : List AllocSite
deriving DecidableEq, Repr, Inhabited

/- What a snapshot tells of a graph. -/
structure GraphSnapshot where
  functions : List FunctionId
  nodes : List NodeSnapshot
  roots : List (Root × Cell)
deriving DecidableEq, Repr, Inhabited

namespace Graph

/- The snapshot of a node. -/
def nodeSnapshot
    (g : Graph)
    (id : NodeId)
    (n : Node) : Checked NodeSnapshot := do
  let links ← n.links.entries.mapM fun (f, c) => do
    return (f.render, ← g.resolve c)
  return {
    id := id
    flags := n.flags.letters
    size := n.size
    types := n.types.entries.map fun (o, ts) =>
      (o, ts.toList)
    links := links
    allocSites := n.allocSites.toList }

/- The snapshot of a graph. -/
def snapshot
    (g : Graph) : Checked GraphSnapshot := do
  let nodes ← g.liveNodes.mapM fun (id, n) =>
    g.nodeSnapshot id n
  let roots ← g.rootCells
  return {
    functions := g.functions.toList
    nodes := nodes
    roots := roots }

end Graph

-- Places

/- A field of a graph and the live node it belongs to. -/
structure Place where
  node : Node
  /- The field after wrapping and collapsing. -/
  field : Field
deriving DecidableEq

/- The place that a cell and a type address. -/
def Graph.placeAt
    (g : Graph)
    (c : Cell)
    (type? : Option TypeTag) : Checked Place := do
  let n ← g.nodeOf c
  let field := Field.make g.config c.offset type?
  return { node := n, field := n.effectiveField field }

end HeapShape
