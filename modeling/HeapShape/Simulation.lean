import HeapShape.Graph.Basic
import HeapShape.Program.Basic

/-
  Simulation of a callee graph by a caller graph.

  A caller simulates a callee at a call when every callee node has one
  image, a caller node and a base offset, and every callee link is matched
  by a caller link at the corresponding place. The images are injective when
  the caller keeps apart what the callee keeps apart.

  Key definitions include:
    * `NodeImage`
    * `Simulation`
    * `Simulation.insert`
    * `Simulation.isOneToMany`
    * `Simulation.isInjective`
    * `Simulation.addCall`
-/

-- Images

namespace HeapShape

/- The place of a callee node in the caller graph. -/
structure NodeImage where
  node : NodeId
  /- The caller offset of the start of the callee node. -/
  base : Nat
  calleeSize : Nat
  calleeModified : Bool
  /- In the caller node every byte overlaps every other. -/
  overlapsAll : Bool
deriving DecidableEq, Repr, Inhabited

/- The image of a callee node in a caller node. -/
def NodeImage.of
    (callee caller : Node)
    (node : NodeId)
    (base : Nat) : NodeImage where
  node := node
  base := base
  calleeSize := callee.size
  calleeModified := callee.isModified
  overlapsAll := caller.isCollapsed || caller.isArray

/- A map from callee nodes to their images. -/
structure Simulation where
  images : OrdMap NodeId NodeImage := OrdMap.empty
  failed : Bool := false
deriving DecidableEq, Inhabited

namespace Simulation

/- No insertion failed. -/
def isFunction
    (s : Simulation) : Bool :=
  !s.failed

/- Note that an insertion failed. -/
def fail
    (s : Simulation) : Simulation :=
  { s with failed := true }

/- Note the image of a callee node. -/
def record
    (s : Simulation)
    (node : NodeId)
    (img : NodeImage) : Simulation :=
  { s with images := s.images.insert node img }

/- The image of a callee node. -/
def image?
    (s : Simulation)
    (node : NodeId) : Option NodeImage :=
  s.images.get? node

/- The image of a live callee cell. -/
def get?
    (s : Simulation)
    (c : Cell) : Checked (Option Cell) :=
  (s.image? c.node).mapM fun img => do
    return { node := img.node
             offset := ← addWord img.base c.offset }

-- Insertion

/-
  The base at which a callee node comes to lie when offset `o1` of it is
  laid on offset `o2` of a caller node; none if it would start before the
  caller node.
-/
def base?
    (caller : Node)
    (o1 o2 : Nat) : Checked (Option Nat) :=
  if caller.isCollapsed then .ok (some 0)
  else if caller.isArray && caller.size > 0 then do
    let sum ← addWord o2 caller.size
    return some ((sum - o1 % caller.size) % caller.size)
  else if o2 < o1 then .ok none
  else .ok (some (o2 - o1))

/-
  The node of a callee cell and where it comes to lie when the cell is laid
  on a caller cell; none if that cannot be.
-/
def align
    (callee caller : Graph)
    (c1 c2 : Cell) :
    Checked (Option (NodeId × NodeImage)) := do
  let c1 ← callee.resolve c1
  let c2 ← caller.resolve c2
  let n1 ← callee.contents c1.node
  let n2 ← caller.contents c2.node
  if n1.isCollapsed && !n2.isCollapsed then
    return none
  else
    let o1 := n1.effectiveOffset c1.offset
    let o2 := n2.effectiveOffset c2.offset
    match ← base? n2 o1 o2 with
    | none => return none
    | some base =>
      return some (c1.node, NodeImage.of n1 n2 c2.node base)

/-
  The pairs that the links of a callee node ask for, the last link first;
  none if the caller lacks a link.
-/
def linkPairs
    (caller : Graph)
    (node : NodeId)
    (base : Nat) :
    List (Field × Cell) → List (Cell × Cell) →
      Checked (Option (List (Cell × Cell)))
| [], work => .ok (some work)
| (field, target) :: rest, work => do
    let offset ← addWord base field.offset
    let place : Cell := { node := node, offset := offset }
    match ← caller.link? place field.type? with
    | some image =>
        linkPairs caller node base rest
          ((target, image) :: work)
    | none => return none

/- Map the pairs on a stack and all they ask for. -/
def insertWithin
    (callee caller : Graph) :
    Nat → List (Cell × Cell) → Simulation →
      Checked Simulation
| _, [], s => .ok s
| 0, _ :: _, _ => .error .unbounded
| fuel + 1, (c1, c2) :: work, s => do
    match ← align callee caller c1 c2 with
    | none => return s.fail
    | some (node, img) =>
        match s.image? node with
        | some old =>
            if old.node = img.node ∧ old.base = img.base then
              insertWithin callee caller fuel work s
            else
              return s.fail
        | none =>
            let s := s.record node img
            let n ← callee.contents node
            match ← linkPairs caller img.node img.base
                n.links.entries work with
            | some work =>
                insertWithin callee caller fuel work s
            | none => return s.fail

/-
  Map a callee cell onto a caller cell, with all it reaches. After a failure
  nothing more is mapped. Each link of the callee is asked for at most once.
-/
def insert
    (callee caller : Graph)
    (s : Simulation)
    (c1 c2 : Cell) : Checked Simulation :=
  if s.failed then .ok s
  else
    let links :=
      callee.liveNodes.map fun (_, n) => n.links.size
    insertWithin callee caller (links.foldl (· + ·) 0 + 1)
      [(c1, c2)] s

-- Injectivity

/- The caller nodes that are images, in order. -/
def imageNodes
    (s : Simulation) : List NodeId :=
  (OrdSet.ofList (s.images.values.map NodeImage.node)).toList

/- The images in one caller node, by callee node. -/
def imagesIn
    (s : Simulation)
    (node : NodeId) : List NodeImage :=
  s.images.values.filter fun img => img.node == node

/-
  The images of each caller node; if asked for, only where some callee node
  is modified.
-/
def groups
    (s : Simulation)
    (onlyModified : Bool) : List (List NodeImage) :=
  (s.imageNodes.map s.imagesIn).filter fun members =>
    !onlyModified || members.any NodeImage.calleeModified

/- Some caller node is the image of two callee nodes. -/
def isOneToMany
    (s : Simulation)
    (onlyModified : Bool) : Bool :=
  (s.groups onlyModified).any fun members =>
    members.length > 1

/- Whether two images share a byte of their caller node. -/
def overlap
    (a b : NodeImage) : Checked Bool := do
  if a.overlapsAll then
    return true
  else
    let aEnd ← addWord a.base (max a.calleeSize 1)
    let bEnd ← addWord b.base (max b.calleeSize 1)
    return a.base < bEnd && b.base < aEnd

/- The pairs of a list, in the order of their members. -/
def pairs
    {α : Type} :
    List α → List (α × α)
| [] => []
| a :: rest => rest.map (fun b => (a, b)) ++ pairs rest

/- Whether no pair of a list passes a test. -/
def nonePass
    {α : Type}
    (test : α → Checked Bool) :
    List α → Checked Bool
| [] => .ok true
| a :: rest => do
    if ← test a then
      return false
    else
      nonePass test rest

/-
  No two callee nodes have overlapping images. If asked for, a pair counts
  only if one of the two is modified.
-/
def isInjective
    (s : Simulation)
    (onlyModified : Bool) : Checked Bool :=
  let all := ((s.groups onlyModified).map pairs).flatten
  let counted := all.filter fun (a, b) =>
    !onlyModified || a.calleeModified || b.calleeModified
  nonePass (fun (a, b) => overlap a b) counted

-- Calls

/-
  A cell of the callee and what a call joins it with in the caller. Both may
  be absent, and the call may ask for nothing.
-/
structure RootPair where
  callee : Checked (Option Cell)
  caller? : Option (Checked (Option Cell))

/-
  What a call joins: the globals of the callee, its result and the result of
  the call, and pointer formals and their actuals.
-/
def rootPairs
    (cs : CallSite)
    (f : FunctionDef)
    (callee caller : Graph) : List RootPair :=
  (callee.globalNames.map fun v =>
    { callee := callee.rootCell? (.global v)
      caller? := some (caller.rootCell? (.global v)) }) ++
  [{ callee := callee.rootCell? (.result f.id)
     caller? := cs.result?.map caller.cell? }] ++
  ((f.pointerPairs cs.actuals).map fun pair =>
    { callee := callee.rootCell? (.formal pair.1)
      caller? := some (caller.cell? pair.2) })

/-
  Map a callee cell onto its caller cell. The caller must have a cell if the
  callee has one.
-/
def addPair
    (callee caller : Graph)
    (s : Simulation)
    (pair : RootPair) : Checked Simulation :=
  if s.failed then .ok s
  else do
    match ← pair.callee, pair.caller? with
    | some c1, some image => do
        match ← image with
        | some c2 => insert callee caller s c1 c2
        | none => return s.fail
    | _, _ => return s

/- Map what a call joins. -/
def addCall
    (cs : CallSite)
    (f : FunctionDef)
    (callee caller : Graph)
    (s : Simulation) : Checked Simulation :=
  (rootPairs cs f callee caller).foldlM
    (addPair callee caller) s

/- The simulation at a call. -/
def ofCall
    (cs : CallSite)
    (f : FunctionDef)
    (callee caller : Graph) : Checked Simulation :=
  addCall cs f callee caller {}

end Simulation

end HeapShape
