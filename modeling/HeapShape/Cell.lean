import HeapShape.Fault
import HeapShape.Config.Basic

/-
  Cells and fields.

  A cell names a byte position inside an abstract memory object. A field is
  the key of a link: an offset, told apart by the accessed type where a
  graph asks for it.

  Key definitions include:
    * `NodeId`
    * `Cell`
    * `Cell.shifted`
    * `Field`
    * `Field.make`
-/

-- Cells

namespace HeapShape

/- The slot number of a node in its graph. -/
abbrev NodeId :=
  Nat

/- A byte position inside a node. -/
structure Cell where
  node : NodeId
  offset : Nat
deriving DecidableEq, Repr, Inhabited

namespace Cell

/- The start of a node. -/
def start
    (node : NodeId) : Cell where
  node := node
  offset := 0

/- The same node, some bytes further. -/
def shifted
    (c : Cell)
    (delta : Nat) : Checked Cell := do
  return { c with offset := ← addWord c.offset delta }

/- The shifted cell, if its offset is a word. -/
def shifted?
    (c : Cell)
    (delta : Nat) : Option Cell :=
  (addWord? c.offset delta).map fun o =>
    { c with offset := o }

/- The written form of a cell. -/
def render
    (c : Cell) : String :=
  "<n" ++ toString c.node ++ ", " ++ toString c.offset
    ++ ">"

end Cell

-- Fields

/- The name of an accessed type. -/
abbrev TypeTag :=
  String

/- The key of a link. -/
structure Field where
  offset : Nat
  type? : Option TypeTag
deriving DecidableEq, Repr

namespace Field

/-
  Fields are ordered by offset; at one offset the untyped field comes first,
  then the types in order.
-/
instance : Ord Field where
  compare :=
    compareLex (compareOn Field.offset)
      (compareOn Field.type?)

instance : Std.TransOrd Field :=
  inferInstanceAs
    (Std.TransCmp
      (compareLex (compareOn Field.offset)
        (compareOn Field.type?)))

instance : Std.LawfulEqOrd Field where
  compare_self := Std.ReflCmp.compare_self
  eq_of_compare := by
    rintro ⟨o, t⟩ ⟨p, u⟩ h
    change compareLex (compareOn Field.offset)
      (compareOn Field.type?) _ _ = .eq at h
    rw [compareLex_eq_eq] at h
    obtain ⟨hOffset, hType⟩ := h
    have hO : o = p :=
      Std.LawfulEqCmp.eq_of_compare hOffset
    have hT : t = u :=
      Std.LawfulEqCmp.eq_of_compare hType
    rw [hO, hT]

/- The untyped field at an offset. -/
def untyped
    (offset : Nat) : Field where
  offset := offset
  type? := none

/- A field as a graph keys it: types count if asked for. -/
def make
    (config : GraphConfig)
    (offset : Nat)
    (type? : Option TypeTag) : Field where
  offset := offset
  type? := if config.typeAwareFields then type? else none

/- The written form of a field. -/
def render
    (f : Field) : String :=
  match f.type? with
  | some t => toString f.offset ++ ":" ++ t
  | none => toString f.offset

end Field

end HeapShape
