import HeapShape.Ident

/-
  The one value that denotes a node.

  A node remembers the only program value that points at its start. Once a
  second value is seen the first is forgotten for good, and the node still
  knows that it had one.

  Key definitions include:
    * `UniqueScalar`
    * `UniqueScalar.record`
    * `UniqueScalar.clear`
    * `UniqueScalar.merge`
-/

-- Bookkeeping

namespace HeapShape

/- The value that alone denotes a node, if there is one. -/
structure UniqueScalar where
  value? : Option ValueId := none
  everHad : Bool := false
deriving DecidableEq, Repr, Inhabited

namespace UniqueScalar

/- Note that a value denotes the node. -/
def record
    (u : UniqueScalar)
    (v : ValueId) : UniqueScalar :=
  if !u.everHad then { value? := some v, everHad := true }
  else if u.value? ≠ some v then { u with value? := none }
  else u

/- Forget the value for good. -/
def clear
    (u : UniqueScalar) : UniqueScalar where
  value? := none
  everHad := u.everHad || u.value?.isSome

/- The bookkeeping of a node made by merging two. -/
def merge
    (u w : UniqueScalar) : UniqueScalar :=
  if !w.everHad then u
  else if !u.everHad then w
  else
    { value? := if u.value? = w.value? then u.value? else none
      everHad := true }

end UniqueScalar

end HeapShape
