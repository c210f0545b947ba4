import HeapShape.Graph.Merge

/-
  Binding roots and noting facts about nodes.

  A root is bound to a cell on first use. Binding a root a second time
  merges the cells. A node whose start is denoted by one value alone
  remembers that value.

  Key definitions include:
    * `Graph.bindRoot`
    * `Graph.valueCell`
    * `Graph.addFlags`
    * `Graph.growSize`
    * `Graph.addAllocSite`
-/

-- Roots

namespace HeapShape

namespace Graph

/-
  Note that a value denotes a cell: at the start of its node it counts as
  the node's own value, elsewhere the node has none.
-/
def noteUniqueScalar
    (g : Graph)
    (v : ValueId)
    (c : Cell) : Checked Graph :=
  g.modifyContents c.node fun n =>
    { n with
      uniqueScalar :=
        if n.effectiveOffset c.offset = 0 then
          n.uniqueScalar.record v
        else n.uniqueScalar.clear }

/- The cell of a root, merged with `init?` or created. -/
def rootTarget
    (g : Graph)
    (r : Root)
    (init? : Option Cell) : Checked (Cell × Graph) := do
  match g.roots.get? r, init? with
  | some existing, some init =>
    let g ← g.unify existing init
    g.find existing
  | some existing, none => g.find existing
  | none, some init =>
    let (c, g) ← g.find init
    return (c, { g with roots := g.roots.insert r c })
  | none, none =>
    let (fresh, g) := g.createBlank
    let c := Cell.start fresh
    return (c, { g with roots := g.roots.insert r c })

/-
  The cell of a root, bound on first use. Scalars and formals are noted at
  their node.
-/
def bindRoot
    (g : Graph)
    (r : Root)
    (init? : Option Cell) : Checked (Cell × Graph) := do
  let (c, g) ← g.rootTarget r init?
  match r with
  | .scalar v | .formal v =>
    let g ← g.noteUniqueScalar v c
    return (c, g)
  | .result _ | .global _ => return (c, g)

/- The cell of a scalar, merged with `init?`. -/
def scalarCell
    (g : Graph)
    (v : ValueId)
    (init? : Option Cell) : Checked (Cell × Graph) :=
  g.bindRoot (.scalar v) init?

/- The cell of a formal. -/
def formalCell
    (g : Graph)
    (v : ValueId) : Checked (Cell × Graph) :=
  g.bindRoot (.formal v) none

/- The cell of a function's result. -/
def resultCell
    (g : Graph)
    (f : FunctionId) : Checked (Cell × Graph) :=
  g.bindRoot (.result f) none

/- The cell of a global. -/
def globalCell
    (g : Graph)
    (v : GlobalId) : Checked (Cell × Graph) :=
  g.bindRoot (.global v) none

/- The cell of a value: its formal, else its scalar. -/
def valueCell
    (g : Graph)
    (v : ValueId) : Checked (Cell × Graph) :=
  match g.roots.get? (.formal v) with
  | some c => g.find c
  | none => g.scalarCell v none

-- Facts About Nodes

/- Change the node that stands for a slot. -/
def modifyNode
    (g : Graph)
    (node : NodeId)
    (f : Node → Node) : Checked Graph := do
  let (rep, g) ← g.findNode node
  g.modifyContents rep f

/-
  Set flags of a node. The flags that change how offsets are read are left
  to `setArray` and `collapse`.
-/
def addFlags
    (g : Graph)
    (node : NodeId)
    (flags : Flags) : Checked Graph :=
  g.modifyNode node fun n =>
    { n with
      flags := n.flags.union
        ((flags.erase .array).erase .offsetCollapsed) }

/- Let a plain node have at least a size. -/
def growSize
    (g : Graph)
    (node : NodeId)
    (size : Nat) : Checked Graph :=
  g.modifyNode node fun n =>
    if n.isPlain then { n with size := max n.size size }
    else n

/- Note where memory of a node comes from. -/
def addAllocSite
    (g : Graph)
    (node : NodeId)
    (site : AllocSite) : Checked Graph :=
  g.modifyNode node fun n =>
    { n with allocSites := n.allocSites.insert site }

/- Forget the value that alone denotes a node. -/
def clearUniqueScalar
    (g : Graph)
    (node : NodeId) : Checked Graph :=
  g.modifyNode node fun n =>
    { n with uniqueScalar := n.uniqueScalar.clear }

end Graph

end HeapShape
