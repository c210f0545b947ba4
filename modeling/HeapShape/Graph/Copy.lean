import HeapShape.Graph.Bind

/-
  Copying structure between graphs.

  A `Copier` copies the nodes that chosen cells of a source graph reach into
  a destination graph. A source node is copied at most once, and its copy is
  noted before its links are visited, so cyclic structure is no obstacle.
  Copies are new nodes; merging them with what the destination holds is left
  to the user.

  Stack sites can be left behind. A forced copy takes them along.

  Key definitions include:
    * `CopyOptions`
    * `Copier`
    * `Copier.copyCell`
    * `Copier.copyNode`
    * `Graph.importFrom`
-/

-- Options

namespace HeapShape

/- How structure is copied. -/
structure CopyOptions where
  /- Leave stack sites behind, unless forced. -/
  stripAllocas : Bool := false
  /- Add `step?` to the call path of every copied site. -/
  trackCallPaths : Bool := false
  /- Mark every copy as foreign. -/
  markForeign : Bool := false
  step? : Option CallStep := none
deriving DecidableEq, Repr, Inhabited

namespace CopyOptions

/- From a callee into its caller. -/
def bottomUp
    (policy : CloningPolicy)
    (callee : FunctionId) : CopyOptions where
  stripAllocas := policy.stripAllocas
  trackCallPaths := policy.trackCallPaths
  markForeign := false
  step? := some { direction := .bottomUp, function := callee }

/- From a caller into its callee. -/
def topDown
    (policy : CloningPolicy)
    (caller : FunctionId) : CopyOptions where
  stripAllocas := policy.noEscape
  trackCallPaths := policy.trackCallPaths
  markForeign := true
  step? := some { direction := .topDown, function := caller }

end CopyOptions

-- Copying

/- A copy in progress between two graphs. -/
structure Copier where
  source : Graph
  dest : Graph
  options : CopyOptions := {}
  /- The copy of each source node, perhaps merged since. -/
  copies : OrdMap NodeId NodeId := OrdMap.empty
  /- The source nodes that were copied by force. -/
  forced : OrdSet NodeId := OrdSet.empty

namespace Copier

/- The sites a copy takes along, with their call paths. -/
def sitesOf
    (k : Copier)
    (n : Node)
    (force : Bool) : List (AllocSite × CallPath) :=
  let taken := n.allocSites.toList.filter fun s =>
    force || !k.options.stripAllocas || !s.isStack
  taken.map fun s =>
    let path := (n.callPaths.get? s.id).getD []
    let path :=
      if k.options.trackCallPaths then
        path ++ k.options.step?.toList
      else path
    (s, path)

/- Note sites, and their call paths if they are tracked. -/
def addSites
    (k : Copier)
    (node : NodeId)
    (sites : List (AllocSite × CallPath)) :
    Checked Copier := do
  let dest ← k.dest.modifyNode node fun n =>
    sites.foldl
      (fun n (s, path) =>
        { n with
          allocSites := n.allocSites.insert s
          callPaths :=
            if k.options.trackCallPaths then
              n.callPaths.insertIfNew s.id path
            else n.callPaths })
      n
  return { k with dest := dest }

/-
  A new destination node with what is known of a source node, apart from its
  links. The value that denotes it alone belongs to the source and is not
  copied.
-/
def copyContents
    (k : Copier)
    (src : NodeId)
    (force : Bool) : Checked (NodeId × Copier) := do
  let n ← k.source.contents src
  let flags :=
    if k.options.markForeign then n.flags.insert .foreign
    else n.flags.erase .foreign
  let (copy, dest) := k.dest.createNode flags n.size
  let dest ← dest.modifyContents copy fun m =>
    { m with types := n.types }
  let k := { k with dest := dest }
  let k ← k.addSites copy (k.sitesOf n force)
  return (copy, { k with copies := k.copies.insert src copy })

/- Copy one link; a target copied now is added to visit. -/
def copyLink
    (copy : NodeId)
    (state : Copier × List NodeId)
    (link : Field × Cell) :
    Checked (Copier × List NodeId) := do
  let (k, stack) := state
  let (field, target) := link
  let t ← k.source.resolve target
  let (targetCopy, k, stack) ←
    match k.copies.get? t.node with
    | some c => pure (c, k, stack)
    | none => do
        let (c, k) ← k.copyContents t.node false
        pure (c, k, t.node :: stack)
  let dest ← k.dest.addLink
    { node := copy, offset := field.offset }
    field.type?
    { node := targetCopy, offset := t.offset }
  return ({ k with dest := dest }, stack)

/- Copy the links of the nodes on a stack. -/
def copyLinksWithin :
    Nat → Copier → List NodeId → Checked Copier
| _, k, [] => .ok k
| 0, _, _ :: _ => .error .unbounded
| fuel + 1, k, src :: stack => do
    let copy := (k.copies.get? src).getD 0
    let n ← k.source.contents src
    let (k, stack) ←
      n.links.entries.foldlM (copyLink copy) (k, stack)
    copyLinksWithin fuel k stack

/-
  The copy of a source node, made on first use with all it reaches. Each
  source node is put on the stack once.
-/
def copyOf
    (k : Copier)
    (node : NodeId)
    (force : Bool) : Checked (NodeId × Copier) := do
  let src := (← k.source.resolve (Cell.start node)).node
  match k.copies.get? src with
  | some existing =>
    if force && k.options.stripAllocas
        && !k.forced.contains src then do
      let n ← k.source.contents src
      let k := { k with forced := k.forced.insert src }
      let k ← k.addSites existing (k.sitesOf n true)
      return (existing, k)
    else
      return (existing, k)
  | none =>
    let k :=
      if force then { k with forced := k.forced.insert src }
      else k
    let (copy, k) ← k.copyContents src force
    let k ←
      copyLinksWithin (k.source.slots.size + 1) k [src]
    return (copy, k)

/- Whether a source node was copied. -/
def hasNode
    (k : Copier)
    (node : NodeId) : Checked Bool := do
  let src := (← k.source.resolve (Cell.start node)).node
  return k.copies.contains src

/- The image of a source cell in the destination. -/
def copyCell
    (k : Copier)
    (c : Cell)
    (force : Bool) : Checked (Cell × Copier) := do
  let c ← k.source.resolve c
  let (copy, k) ← k.copyOf c.node force
  let (image, dest) ←
    k.dest.find { node := copy, offset := c.offset }
  return (image, { k with dest := dest })

/- The image of the start of a source node. -/
def copyNode
    (k : Copier)
    (node : NodeId)
    (force : Bool) : Checked (Cell × Copier) := do
  let (copy, k) ← k.copyOf node force
  let (image, dest) ← k.dest.find (Cell.start copy)
  return (image, { k with dest := dest })

/- Change the destination graph. -/
def mapDest
    (k : Copier)
    (f : Graph → Checked Graph) : Checked Copier := do
  return { k with dest := ← f k.dest }

end Copier

-- Importing A Graph

namespace Graph

/- Whether an import takes a root along. -/
def importsRoot
    (withFormals : Bool) :
    Root → Bool
| .scalar _ | .global _ => true
| .formal _ | .result _ => withFormals

/-
  Copy the roots of another graph, merged with the cells that the same roots
  have here. Formals and results are copied if asked for.
-/
def importFrom
    (g other : Graph)
    (withFormals : Bool) : Checked Graph := do
  let roots ← other.rootCells
  let start : Copier := { source := other, dest := g }
  let k ← (roots.filter fun (r, _) =>
      importsRoot withFormals r).foldlM
    (fun k (r, c) => do
      let force :=
        match r with
        | .global _ => true
        | _ => false
      let (copy, k) ← k.copyCell c force
      k.mapDest fun dest => do
        let (_, dest) ← dest.bindRoot r (some copy)
        return dest)
    start
  return other.functions.toList.foldl addFunction k.dest

end Graph

end HeapShape
