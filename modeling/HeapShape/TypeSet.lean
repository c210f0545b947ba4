import HeapShape.Cell
import HeapShape.Ordered.Set

/-
  Sets of type names.

  A type set holds the types through which one offset of an object was
  accessed, in the order of the names.

  Key definitions include:
    * `TypeSet`
    * `TypeSet.render`
-/

namespace HeapShape

/- The types accessed at one offset. -/
abbrev TypeSet :=
  OrdSet TypeTag

/- The names in braces, separated by commas. -/
def TypeSet.render
    (s : TypeSet) : String :=
  "\x7b" ++ ",".intercalate (OrdSet.toList s) ++ "\x7d"

end HeapShape
