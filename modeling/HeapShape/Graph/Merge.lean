import HeapShape.Graph.Basic

/-
  Merging nodes.

  `unify` makes two cells denote the same address. The node whose cell has
  the smaller offset is absorbed by the other: its slot becomes a forward,
  and its contents are replayed into the absorbing node. A link that meets a
  link merges their targets, so merging is recursive.

  Where two nodes cannot be laid over each other offset by offset, the
  absorbing one is collapsed first. This is so for
    * an array absorbed by a plain node off its start,
    * two arrays of which no stride divides the other,
    * two arrays off by less than a stride,
    * a plain node that would reach past an element of an
      array,
    * a collapsed node absorbed by one that is not.

  Each operation below is given the merge to use for the targets of links
  that meet. `unifyWithin` ties the knot with a bound on the depth of
  merges. Every absorption takes a live node away and every collapse a node
  that is not collapsed, so `mergeBound` is never reached.

  Key definitions include:
    * `Graph.addTypes`
    * `Graph.addLink`
    * `Graph.collapse`
    * `Graph.setArray`
    * `Graph.unify`
-/

-- Types

namespace HeapShape

/-
  Add types at a raw offset of a node. A collapsed node keeps types at its
  start only, and is marked when they are lost or mixed.
-/
def Node.withTypes
    (n : Node)
    (raw : Nat)
    (types : TypeSet) : Node :=
  if n.isCollapsed && raw != 0 then
    { n with flags := n.flags.insert .typeCollapsed }
  else
    let offset := n.effectiveOffset raw
    let merged :=
      match n.types.get? offset with
      | some old => old.union types
      | none => types
    { n with
      flags :=
        if n.isCollapsed && merged.size > 1 then
          n.flags.insert .typeCollapsed
        else n.flags
      types := n.types.insert offset merged }

namespace Graph

/- Add types at a cell. -/
def addTypes
    (g : Graph)
    (c : Cell)
    (types : TypeSet) : Checked Graph :=
  if types.isEmpty then .ok g
  else do
    let (c, g) ← g.find c
    let n ← g.contents c.node
    g.setContents c.node (n.withTypes c.offset types)

/- Add one type at a cell. -/
def addType
    (g : Graph)
    (c : Cell)
    (tag : TypeTag) : Checked Graph :=
  g.addTypes c (OrdSet.singleton tag)

/- Add the types of a node at an offset of another. -/
def replayTypes
    (g : Graph)
    (this : NodeId)
    (offset : Nat)
    (types : OrdMap Nat TypeSet) : Checked Graph :=
  types.entries.foldlM
    (fun g (o, ts) => do
      let spot ← addWord o offset
      g.addTypes { node := this, offset := spot } ts)
    g

-- Merging, Given A Merge For Link Targets

/- An operation that makes two cells one address. -/
abbrev Merge :=
  Graph → Cell → Cell → Checked Graph

/-
  Let the field at a cell lead to a target. If the field leads somewhere
  already, both targets are merged.
-/
def addLinkBy
    (merge : Merge)
    (g : Graph)
    (c : Cell)
    (type? : Option TypeTag)
    (target : Cell) : Checked Graph := do
  let (c, g) ← g.find c
  let n ← g.contents c.node
  let field :=
    n.effectiveField (Field.make g.config c.offset type?)
  match n.links.get? field with
  | some existing => merge g existing target
  | none =>
    let (target, g) ← g.find target
    let n ← g.contents c.node
    let size ←
      if n.isPlain then do
        let reach ←
          addWord field.offset g.config.pointerSize
        pure (max n.size reach)
      else pure n.size
    g.setContents c.node
      { n with
        size := size
        links := n.links.insert field target }

/- Add the links of a node at an offset of another. -/
def replayLinks
    (merge : Merge)
    (g : Graph)
    (this : NodeId)
    (offset : Nat)
    (links : OrdMap Field Cell) : Checked Graph :=
  links.entries.foldlM
    (fun g (f, target) => do
      let spot ← addWord f.offset offset
      addLinkBy merge g { node := this, offset := spot }
        f.type? target)
    g

/-
  Node `this` takes what is known of `moved`, apart from its types and
  links. Off the start of `this` no value denotes the result alone.
-/
def takeOver
    (this moved : Node)
    (offset : Nat) : Node :=
  let flags := this.flags.join moved.flags
  let scalar := this.uniqueScalar.merge moved.uniqueScalar
  { this with
    flags :=
      if flags.has .offsetCollapsed then flags.erase .array
      else flags
    uniqueScalar :=
      if offset ≠ 0 then scalar.clear else scalar
    allocSites := this.allocSites.union moved.allocSites
    callPaths :=
      moved.callPaths.entries.foldl
        (fun paths (site, path) =>
          paths.insertIfNew site path)
        this.callPaths }

/-
  Absorb `other` into `this` at an offset: `other` becomes a forward and its
  contents are replayed into `this`.
-/
def absorb
    (merge : Merge)
    (g : Graph)
    (this other : NodeId)
    (offset : Nat) : Checked Graph := do
  let moved ← g.contents other
  let g := g.setSlot other
    (.forward { node := this, offset := offset })
  let n ← g.contents this
  let g ← g.setContents this (takeOver n moved offset)
  let g ← g.replayTypes this offset moved.types
  replayLinks merge g this offset moved.links

/-
  Stop telling the offsets of a node apart. A node of at most one byte is
  changed in place; a larger one is absorbed by a fresh collapsed node. The
  result is the node that stands for it afterwards.
-/
def collapseBy
    (merge : Merge)
    (g : Graph)
    (node : NodeId) : Checked (NodeId × Graph) := do
  let (node, g) ← g.findNode node
  let n ← g.contents node
  if n.isCollapsed then
    return (node, g)
  else if n.size ≤ 1 then
    let flags :=
      (n.flags.insert .offsetCollapsed).erase .array
    let g ← g.setContents node
      { n with
        flags := flags
        size := 1
        types := OrdMap.empty
        links := OrdMap.empty }
    let g ← g.replayTypes node 0 n.types
    let g ← replayLinks merge g node 0 n.links
    g.findNode node
  else
    let (fresh, g) :=
      g.createNode (Flags.only .offsetCollapsed) 1
    let g ← absorb merge g fresh node 0
    g.findNode node

/- Collapse `this`, then merge it with `other`. -/
def collapseThenMerge
    (merge : Merge)
    (g : Graph)
    (this other : NodeId) : Checked Graph := do
  let (rep, g) ← collapseBy merge g this
  merge g (Cell.start rep) (Cell.start other)

/- The node of a slot that takes part in a merge. -/
def mergeable
    (g : Graph)
    (id this other : NodeId) : Checked Node :=
  match g.slot id with
  | .live n => .ok n
  | .forward _ => .error (.staleMerge this other)
  | .free => .error (.deletedNode id)

/-
  Lay `other` over `this` so that its start comes to lie at an offset of
  `this`.
-/
def mergeAt
    (merge : Merge)
    (g : Graph)
    (this other : NodeId)
    (offset : Nat) : Checked Graph := do
  let n ← g.mergeable this this other
  let m ← g.mergeable other this other
  if this = other then
    if n.effectiveOffset offset = 0 then
      return g
    else
      let (_, g) ← collapseBy merge g this
      return g
  else if m.isCollapsed && !n.isCollapsed then
    collapseThenMerge merge g this other
  else if n.isCollapsed then
    absorb merge g this other 0
  else
    match n.isArray, m.isArray with
    | false, true =>
      if offset = 0 then
        absorb merge g other this 0
      else
        collapseThenMerge merge g this other
    | true, true =>
      let lo := min n.size m.size
      let hi := max n.size m.size
      if lo = 0 ∨ hi % lo ≠ 0 then
        collapseThenMerge merge g this other
      else if offset % n.size ≠ 0 then
        collapseThenMerge merge g this other
      else
        let g ← g.setContents this { n with size := hi }
        absorb merge g this other 0
    | true, false =>
      let inner :=
        if n.size = 0 then offset else offset % n.size
      if inner = 0 then
        absorb merge g this other 0
      else
        let reach ← addWord m.size inner
        if reach > n.size then
          collapseThenMerge merge g this other
        else
          absorb merge g this other inner
    | false, false =>
      let reach ← addWord m.size offset
      let g ← g.setContents this
        { n with size := max n.size reach }
      absorb merge g this other offset

/- One level of merging two cells. -/
def unifyBy
    (merge : Merge)
    (g : Graph)
    (a b : Cell) : Checked Graph := do
  let (a, g) ← g.find a
  let (b, g) ← g.find b
  let oa := (← g.contents a.node).effectiveOffset a.offset
  let ob := (← g.contents b.node).effectiveOffset b.offset
  if a.node = b.node then
    if oa = ob then
      return g
    else
      let (_, g) ← collapseBy merge g a.node
      return g
  else if oa < ob then
    mergeAt merge g b.node a.node (ob - oa)
  else
    mergeAt merge g a.node b.node (oa - ob)

-- Merging

/- Merge two cells, at most `fuel` merges deep. -/
def unifyWithin : Nat → Merge
| 0 => fun _ _ _ => .error .unbounded
| fuel + 1 => unifyBy (unifyWithin fuel)

/-
  Each merge inside another follows the loss of a live node or of a node
  that is not collapsed.
-/
def mergeBound
    (g : Graph) : Nat :=
  2 * g.slots.size + 1

/- Make two cells denote the same address. -/
def unify
    (g : Graph)
    (a b : Cell) : Checked Graph :=
  unifyWithin g.mergeBound g a b

/- Let the field at a cell lead to a target. -/
def addLink
    (g : Graph)
    (c : Cell)
    (type? : Option TypeTag)
    (target : Cell) : Checked Graph :=
  addLinkBy (unifyWithin g.mergeBound) g c type? target

/- Stop telling the offsets of a node apart. -/
def collapse
    (g : Graph)
    (node : NodeId) : Checked (NodeId × Graph) :=
  collapseBy (unifyWithin g.mergeBound) g node

/-
  Make a node an array of elements of `stride` bytes. Links and types fold
  modulo the stride. A second stride must divide or be divided by the first,
  else the node is collapsed; a collapsed node stays as it is.
-/
def setArray
    (g : Graph)
    (node : NodeId)
    (stride : Nat) : Checked Graph := do
  let merge := unifyWithin g.mergeBound
  let (node, g) ← g.findNode node
  let n ← g.contents node
  let lo := min n.size stride
  let hi := max n.size stride
  if n.isCollapsed || stride == 0 then
    return g
  else if n.isArray && n.size == stride then
    return g
  else if n.isArray && (lo == 0 || hi % lo != 0) then
    let (_, g) ← collapseBy merge g node
    return g
  else
    let g ← g.setContents node
      { n with
        flags := n.flags.insert .array
        size := if n.isArray then hi else stride
        types := OrdMap.empty
        links := OrdMap.empty }
    let g ← g.replayTypes node 0 n.types
    replayLinks merge g node 0 n.links

/-
  The cell that the link at a cell leads to; without a link, a fresh node is
  linked there.
-/
def makeLink
    (g : Graph)
    (c : Cell)
    (type? : Option TypeTag) : Checked (Cell × Graph) := do
  match ← g.link? c type? with
  | some target => return (target, g)
  | none =>
    let (fresh, g) := g.createBlank
    let g ← g.addLink c type? (Cell.start fresh)
    g.find (Cell.start fresh)

end Graph

end HeapShape
