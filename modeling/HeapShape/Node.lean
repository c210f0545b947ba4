import HeapShape.AllocSite
import HeapShape.Flags
import HeapShape.TypeSet
import HeapShape.UniqueScalar

/-
  Abstract memory objects.

  A node stands for a set of run-time objects. Its offsets are read modulo
  its size if it is an array, and all mean offset 0 once it is collapsed.

  Key definitions include:
    * `Node`
    * `Node.effectiveOffset`
    * `Node.effectiveField`
    * `Node.describe`
-/

-- Nodes

namespace HeapShape

/- An abstract memory object. -/
structure Node where
  flags : Flags := Flags.empty
  size : Nat := 0
  types : OrdMap Nat TypeSet := OrdMap.empty
  links : OrdMap Field Cell := OrdMap.empty
  allocSites : OrdSet AllocSite := OrdSet.empty
  callPaths : OrdMap AllocSiteId CallPath := OrdMap.empty
  uniqueScalar : UniqueScalar := {}
deriving DecidableEq, Inhabited

namespace Node

/- Offsets inside the node are no longer told apart. -/
def isCollapsed
    (n : Node) : Bool :=
  n.flags.has .offsetCollapsed

/- The node is a sequence of elements of its size. -/
def isArray
    (n : Node) : Bool :=
  n.flags.has .array

/- Some store may write to the node. -/
def isModified
    (n : Node) : Bool :=
  n.flags.has .modified

/- Some load may read the node. -/
def isRead
    (n : Node) : Bool :=
  n.flags.has .read

/- The node was copied in from a caller. -/
def isForeign
    (n : Node) : Bool :=
  n.flags.has .foreign

/- Neither collapsed nor an array. -/
def isPlain
    (n : Node) : Bool :=
  !n.isCollapsed && !n.isArray

/- The offset that a raw offset means in this node. -/
def effectiveOffset
    (n : Node)
    (raw : Nat) : Nat :=
  if n.isCollapsed then 0
  else if n.isArray && n.size > 0 then raw % n.size
  else raw

/- The link key that a field means in this node. -/
def effectiveField
    (n : Node)
    (f : Field) : Field :=
  if n.isCollapsed then Field.untyped 0
  else { f with offset := n.effectiveOffset f.offset }

/- Nothing is known of the node but that it exists. -/
def isBlank
    (n : Node) : Bool :=
  n.flags.isEmpty && n.links.isEmpty && n.types.isEmpty
    && n.allocSites.isEmpty

-- Written Form

/- Flags, size, types by offset and links by field. -/
def render
    (n : Node) : String :=
  let types := n.types.entries.map fun (o, ts) =>
    " " ++ toString o ++ ":" ++ TypeSet.render ts
  let links := n.links.entries.map fun (f, c) =>
    " (" ++ f.render ++ " -> " ++ c.render ++ ")"
  "[" ++ n.flags.letters ++ "] size=" ++ toString n.size
    ++ String.join types ++ String.join links

/- Where the memory comes from, and its call paths. -/
def renderSites
    (n : Node) : String :=
  String.join <| n.allocSites.toList.map fun s =>
    let path :=
      match n.callPaths.get? s.id with
      | some steps =>
        "[" ++ ",".intercalate (steps.map CallStep.render)
          ++ "]"
      | none => ""
    " @" ++ toString s.id ++ ":" ++ s.kind.name ++ path

/- The value that alone denotes the node. -/
def renderUnique
    (n : Node) : String :=
  match n.uniqueScalar.value? with
  | some v => " !%" ++ toString v
  | none => if n.uniqueScalar.everHad then " !-" else ""

/- Everything known of a node, on one line. -/
def describe
    (n : Node) : String :=
  n.render ++ n.renderSites ++ n.renderUnique

end Node

end HeapShape
