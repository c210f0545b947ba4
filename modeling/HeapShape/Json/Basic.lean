/-
  JSON documents.

  A document is kept as far as its readers can tell: object members stay in
  order, repeated ones included, and a number is either a natural number
  without sign, fraction and exponent, or any other number.

  An escape can name half of a surrogate pair, which is no text. The string
  or object that holds it is well-formed, but nothing can be read from it.

  Key definitions include:
    * `Json`
    * `Json.member?`
    * `Json.isReadable`
-/

-- Documents

namespace HeapShape

/- A JSON document. -/
inductive Json where
  | null
  | bool (b : Bool)
  /- Digits only, and a 64-bit word. -/
  | nat (n : Nat)
  /- Any other number, and whether a double can hold it. -/
  | real (finite : Bool)
  | str (s : String)
  | arr (items : List Json)
  | obj (members : List (String × Json))
  /- A string or an object with half a surrogate pair. -/
  | garbled
deriving Inhabited

namespace Json

mutual

/- Whether a value can be read with so many levels left. -/
def isReadable : Nat → Json → Bool
| _, null => true
| _, bool _ => true
| _, nat _ => true
| _, real finite => finite
| _, str _ => true
| 0, arr _ => false
| room + 1, arr items => allReadable room items
| 0, obj _ => false
| room + 1, obj members => membersReadable room members
| _, garbled => false

/- Whether all values of a list can be read. -/
def allReadable : Nat → List Json → Bool
| _, [] => true
| room, j :: rest => isReadable room j && allReadable room rest

/- Whether the values of all members can be read. -/
def membersReadable : Nat → List (String × Json) → Bool
| _, [] => true
| room, (_, j) :: rest =>
    isReadable room j && membersReadable room rest

end

/- The levels of a document that is read as a whole. -/
def depthLimit : Nat :=
  127

/- The member of an object; the last one of a name counts. -/
def member?
    (j : Json)
    (name : String) : Option Json :=
  match j with
  | obj members =>
    (members.reverse.find? fun m => m.1 == name).map Prod.snd
  | _ => none

end Json

end HeapShape
