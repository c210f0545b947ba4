import HeapShape.Node

/-
  Memory graphs.

  The nodes of a graph live in numbered slots. A slot is free, holds a live
  node, or forwards to the cell its node was merged into. Freed slots are
  used again, the latest first. Program values name cells through the roots.

  `resolve` follows forwards to a live node and adds up the offsets on the
  way. `find` gives the same cell and also shortens the chain it followed.

  Key definitions include:
    * `Slot`
    * `Root`
    * `CallSiteCells`
    * `Graph`
    * `Graph.contents`
    * `Graph.createNode`
    * `Graph.resolve`
    * `Graph.find`
    * `Graph.effective`
    * `Graph.link?`
-/

-- Slots And Roots

namespace HeapShape

/- What a numbered slot of a graph holds. -/
inductive Slot where
  /- Nothing; the slot can be used again. -/
  | free
  /- The cell that the node was merged into. -/
  | forward (target : Cell)
  /- A live node. -/
  | live (node : Node)
deriving DecidableEq, Inhabited

namespace Slot

/- Whether the slot is in use. -/
def isOccupied : Slot → Bool
| free => false
| _ => true

/- Whether the slot forwards. -/
def isForward : Slot → Bool
| forward _ => true
| _ => false

/- The live node of the slot. -/
def node? : Slot → Option Node
| live n => some n
| _ => none

end Slot

/- A named entry point into a graph. -/
inductive Root where
  | scalar (value : ValueId)
  | formal (value : ValueId)
  | result (function : FunctionId)
  | global (name : GlobalId)
deriving DecidableEq, Repr, Inhabited

namespace Root

/- The place of a kind of root in the order. -/
def rank : Root → Nat
| scalar _ => 0
| formal _ => 1
| result _ => 2
| global _ => 3

/- The number of the entity a root stands for. -/
def id : Root → Nat
| scalar v => v
| formal v => v
| result f => f
| global g => g

/- The name of a kind of root. -/
def kindName : Root → String
| scalar _ => "scalar"
| formal _ => "formal"
| result _ => "return"
| global _ => "global"

/- The root of a kind and a number. -/
def ofKind?
    (kind : String)
    (id : Nat) : Option Root :=
  [scalar id, formal id, result id, global id].find?
    fun r => r.kindName == kind

/- Roots are ordered by kind, then by number. -/
instance : Ord Root where
  compare := compareLex (compareOn rank) (compareOn id)

instance : Std.TransOrd Root :=
  inferInstanceAs
    (Std.TransCmp
      (compareLex (compareOn rank) (compareOn id)))

/- Rank and number determine a root. -/
theorem eq_of_rank_id
    {r s : Root}
    (hRank : r.rank = s.rank)
    (hId : r.id = s.id) : r = s := by
  cases r <;> cases s <;>
    simp only [rank, id] at hRank hId <;>
    first
    | (subst hId; rfl)
    | (exact absurd hRank (by decide))

instance : Std.LawfulEqOrd Root where
  compare_self := Std.ReflCmp.compare_self
  eq_of_compare := by
    intro r s h
    change compareLex (compareOn rank) (compareOn id)
      r s = .eq at h
    rw [compareLex_eq_eq] at h
    exact eq_of_rank_id
      (Std.LawfulEqCmp.eq_of_compare h.1)
      (Std.LawfulEqCmp.eq_of_compare h.2)

end Root

/- The cells of one call while it is being resolved. -/
structure CallSiteCells where
  /- By position; none for an actual without a pointer. -/
  actuals : List (Option Cell) := []
  result? : Option Cell := none
deriving DecidableEq, Repr, Inhabited

/- The cells themselves, the result last. -/
def CallSiteCells.cells
    (c : CallSiteCells) : List Cell :=
  c.actuals.filterMap id ++ c.result?.toList

-- Graphs

/- An abstract memory graph. -/
structure Graph where
  config : GraphConfig := {}
  slots : Array Slot := #[]
  /- Freed slots, the latest first. -/
  free : List NodeId := []
  roots : OrdMap Root Cell := OrdMap.empty
  callSites : OrdMap CallSiteId CallSiteCells :=
    OrdMap.empty
  /- The functions whose effects the graph describes. -/
  functions : OrdSet FunctionId := OrdSet.empty
deriving DecidableEq, Inhabited

namespace Graph

/- The slot of a number; unused numbers are free. -/
def slot
    (g : Graph)
    (id : NodeId) : Slot :=
  g.slots.getD id .free

/- Change what a slot holds. -/
def setSlot
    (g : Graph)
    (id : NodeId)
    (s : Slot) : Graph :=
  { g with slots := g.slots.setIfInBounds id s }

/-
  The contents of an occupied slot. A forwarding slot has none of its own,
  so it reads as a blank node.
-/
def contents
    (g : Graph)
    (id : NodeId) : Checked Node :=
  match g.slot id with
  | .live n => .ok n
  | .forward _ => .ok {}
  | .free => .error (.deletedNode id)

/- Replace the contents of a slot, which must be live. -/
def setContents
    (g : Graph)
    (id : NodeId)
    (n : Node) : Checked Graph :=
  match g.slot id with
  | .live _ => .ok (g.setSlot id (.live n))
  | .forward _ => .error (.staleWrite id)
  | .free => .error (.deletedNode id)

/- Change the contents of a live slot. -/
def modifyContents
    (g : Graph)
    (id : NodeId)
    (f : Node → Node) : Checked Graph := do
  let n ← g.contents id
  g.setContents id (f n)

/- Whether a slot is occupied. -/
def hasNode
    (g : Graph)
    (id : NodeId) : Bool :=
  (g.slot id).isOccupied

/- A fresh node in the latest freed slot, or a new one. -/
def createNode
    (g : Graph)
    (flags : Flags)
    (size : Nat) : NodeId × Graph :=
  let fresh := Slot.live { flags := flags, size := size }
  match g.free with
  | id :: rest =>
    (id, { g.setSlot id fresh with free := rest })
  | [] =>
    (g.slots.size, { g with slots := g.slots.push fresh })

/- A fresh node without flags or size. -/
def createBlank
    (g : Graph) : NodeId × Graph :=
  g.createNode Flags.empty 0

/- The live nodes with their numbers, in order. -/
def liveNodes
    (g : Graph) : List (NodeId × Node) :=
  (List.range g.slots.size).filterMap fun i =>
    (g.slot i).node?.map fun n => (i, n)

/- The number of live nodes. -/
def liveCount
    (g : Graph) : Nat :=
  g.liveNodes.length

/- The number of occupied slots. -/
def slotCount
    (g : Graph) : Nat :=
  (g.slots.toList.filter Slot.isOccupied).length

/- Note that the graph describes a function. -/
def addFunction
    (g : Graph)
    (f : FunctionId) : Graph :=
  { g with functions := g.functions.insert f }

-- Resolution

/- Follow at most `fuel` forwards, adding up the offsets. -/
def resolveWithin
    (g : Graph) :
    Nat → Cell → Checked Cell
| 0, _ => .error .unbounded
| fuel + 1, c =>
    match g.slot c.node with
    | .free => .error (.deletedNode c.node)
    | .live _ => .ok c
    | .forward target => do
        let offset ← addWord c.offset target.offset
        g.resolveWithin fuel
          { node := target.node, offset := offset }

/- A chain without a cycle visits each slot at most once. -/
def chainBound
    (g : Graph) : Nat :=
  g.slots.size + 1

/- The live cell that a cell stands for. -/
def resolve
    (g : Graph)
    (c : Cell) : Checked Cell :=
  g.resolveWithin g.chainBound c

/- A forwarding chain: its slots, its end and its length. -/
structure Chain where
  /- Each slot with the offset collected before it. -/
  visited : List (NodeId × Nat)
  last : NodeId
  total : Nat

/- Walk a chain, noting the offset before each slot. -/
def walkWithin
    (g : Graph) :
    Nat → NodeId → Nat → Checked Chain
| 0, _, _ => .error .unbounded
| fuel + 1, node, before =>
    match g.slot node with
    | .free => .error (.deletedNode node)
    | .live _ =>
        .ok { visited := [], last := node, total := before }
    | .forward target => do
        let after ← addWord before target.offset
        let rest ← g.walkWithin fuel target.node after
        return { rest with
          visited := (node, before) :: rest.visited }

/- Let every slot of a chain forward straight to its end. -/
def shorten
    (g : Graph)
    (chain : Chain) : Graph :=
  chain.visited.foldl
    (fun g (node, before) =>
      g.setSlot node (.forward
        { node := chain.last
          offset := chain.total - before }))
    g

/-
  Resolve a cell and shorten the chain that was followed. A chain of one
  forward is already short.
-/
def find
    (g : Graph)
    (c : Cell) : Checked (Cell × Graph) := do
  let chain ← g.walkWithin g.chainBound c.node 0
  let g := if chain.visited.length > 1 then g.shorten chain
    else g
  let offset ← addWord c.offset chain.total
  return ({ node := chain.last, offset := offset }, g)

/- The live node of a slot, found with shortening. -/
def findNode
    (g : Graph)
    (id : NodeId) : Checked (NodeId × Graph) := do
  let (c, g) ← g.find (Cell.start id)
  return (c.node, g)

/- The live cell with the offset it means in its node. -/
def effective
    (g : Graph)
    (c : Cell) : Checked Cell := do
  let c ← g.resolve c
  let n ← g.contents c.node
  return { c with offset := n.effectiveOffset c.offset }

/- The live node that a cell lies in. -/
def nodeOf
    (g : Graph)
    (c : Cell) : Checked Node := do
  let c ← g.resolve c
  g.contents c.node

/- The live cell that the link at a cell leads to. -/
def link?
    (g : Graph)
    (c : Cell)
    (type? : Option TypeTag) : Checked (Option Cell) := do
  let c ← g.resolve c
  let n ← g.contents c.node
  let field :=
    n.effectiveField (Field.make g.config c.offset type?)
  (n.links.get? field).mapM g.resolve

-- Looking Up Roots

/- The live cell of a root. -/
def rootCell?
    (g : Graph)
    (r : Root) : Checked (Option Cell) :=
  (g.roots.get? r).mapM g.resolve

/- The live cell of a value: its scalar, else its formal. -/
def cell?
    (g : Graph)
    (v : ValueId) : Checked (Option Cell) := do
  match ← g.rootCell? (.scalar v) with
  | some c => return some c
  | none => g.rootCell? (.formal v)

/- Whether a value has a cell. -/
def hasCell
    (g : Graph)
    (v : ValueId) : Bool :=
  g.roots.contains (.scalar v) || g.roots.contains (.formal v)

/- Every root with its live cell, in order. -/
def rootCells
    (g : Graph) : Checked (List (Root × Cell)) :=
  g.roots.entries.mapM fun (r, c) => do
    return (r, ← g.resolve c)

/- The globals that have a cell, in order. -/
def globalNames
    (g : Graph) : List GlobalId :=
  g.roots.entries.filterMap fun (r, _) =>
    match r with
    | .global v => some v
    | _ => none

/- Remember the cells of a call. -/
def recordCallSite
    (g : Graph)
    (cs : CallSiteId)
    (cells : CallSiteCells) : Graph :=
  { g with callSites := g.callSites.insert cs cells }

/- Forget the cells of all calls. -/
def clearCallSites
    (g : Graph) : Graph :=
  { g with callSites := OrdMap.empty }

end Graph

end HeapShape
