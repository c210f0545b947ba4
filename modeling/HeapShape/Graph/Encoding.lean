import HeapShape.Graph.View
import HeapShape.Json.Parser
import HeapShape.Json.Record

/-
  Snapshots and regions as JSON documents.

  Key definitions include:
    * `GraphSnapshot.ofJson?`
    * `GraphSnapshot.toJson`
    * `GraphSnapshot.parse?`
    * `MemoryRegion.toJson`
    * `Place.toJson`
-/

-- Cells, Roots And Sites

namespace HeapShape

open Json

namespace Cell

/- Read a cell. -/
def ofJson?
    (j : Json) : Option Cell := do
  match ← j.fields? ["node", "offset"] with
  | [node, offset] =>
    return {
      node := ← required word? node
      offset := ← required word? offset }
  | _ => none

/- Write a cell. -/
def toJson
    (c : Cell) : Json :=
  obj [("node", nat c.node), ("offset", nat c.offset)]

end Cell

namespace Root

/- The kind of a root; in an array it stands for itself. -/
def kind?
    (inArray : Bool) : Json → Option String :=
  if inArray then text? else choice? some

/- Read a root. -/
def ofJson?
    (j : Json) : Option Root := do
  let inArray :=
    match j with
    | arr _ => true
    | _ => false
  match ← j.fields? ["root", "id"] with
  | [kind, id] =>
    ofKind? (← required (kind? inArray) kind)
      (← required word? id)
  | _ => none

/- Write a root. -/
def toJson
    (r : Root) : Json :=
  obj [("root", str r.kindName), ("id", nat r.id)]

end Root

namespace AllocSite

/- Read an allocation site. -/
def ofJson?
    (j : Json) : Option AllocSite := do
  match ← j.fields? ["id", "kind"] with
  | [id, kind] =>
    return {
      id := ← required word? id
      kind := ← required (choice? AllocKind.ofName?) kind }
  | _ => none

/- Write an allocation site. -/
def toJson
    (s : AllocSite) : Json :=
  obj [("id", nat s.id), ("kind", str s.kind.name)]

end AllocSite

-- Snapshots

open Json

namespace NodeSnapshot

/- Read the snapshot of a node. -/
def ofJson?
    (j : Json) : Option NodeSnapshot := do
  match ← j.fields?
      ["id", "flags", "size", "types", "links", "alloc_sites"]
  with
  | [id, flags, size, types, links, sites] =>
    return {
      id := ← required word? id
      flags := ← required text? flags
      size := ← required word? size
      types :=
        ← required (list? (pair? word? (list? text?))) types
      links :=
        ← required (list? (pair? text? Cell.ofJson?)) links
      allocSites :=
        ← required (list? AllocSite.ofJson?) sites }
  | _ => none

/- Write the snapshot of a node. -/
def toJson
    (n : NodeSnapshot) : Json :=
  obj [
    ("id", nat n.id),
    ("flags", str n.flags),
    ("size", nat n.size),
    ("types", arr (n.types.map fun (o, ts) =>
      arr [nat o, arr (ts.map str)])),
    ("links", arr (n.links.map fun (f, c) =>
      arr [str f, c.toJson])),
    ("alloc_sites", arr (n.allocSites.map AllocSite.toJson))]

end NodeSnapshot

namespace GraphSnapshot

/- Read the snapshot of a graph. -/
def ofJson?
    (j : Json) : Option GraphSnapshot := do
  match ← j.fields? ["functions", "nodes", "roots"] with
  | [functions, nodes, roots] =>
    return {
      functions := ← required (list? word?) functions
      nodes := ← required (list? NodeSnapshot.ofJson?) nodes
      roots :=
        ← required (list? (pair? Root.ofJson? Cell.ofJson?))
          roots }
  | _ => none

/- Write the snapshot of a graph. -/
def toJson
    (s : GraphSnapshot) : Json :=
  obj [
    ("functions", arr (s.functions.map nat)),
    ("nodes", arr (s.nodes.map NodeSnapshot.toJson)),
    ("roots", arr (s.roots.map fun (r, c) =>
      arr [r.toJson, c.toJson]))]

/- Read the text of a snapshot. -/
def parse?
    (text : String) : Option GraphSnapshot := do
  ofJson? (← Json.parse? text)

end GraphSnapshot

/- Write a region. -/
def MemoryRegion.toJson
    (r : MemoryRegion) : Json :=
  obj [
    ("id", nat r.id),
    ("node", nat r.node),
    ("offset", nat r.offset),
    ("read", bool r.read),
    ("modified", bool r.modified),
    ("alloc_sites", arr (r.allocSites.map nat))]

-- Places

open Json

/- Write what the node of a place is, and its field. -/
def Place.toJson
    (p : Place) : Json :=
  obj [
    ("size", nat p.node.size),
    ("array", bool p.node.isArray),
    ("collapsed", bool p.node.isCollapsed),
    ("modified", bool p.node.isModified),
    ("read", bool p.node.isRead),
    ("foreign", bool p.node.isForeign),
    ("empty", bool p.node.isBlank),
    ("flags", nat p.node.flags.bits.toNat),
    ("links", nat p.node.links.size),
    ("types", nat p.node.types.size),
    ("field", str p.field.render)]

end HeapShape
