import HeapShape.Fault
import HeapShape.Json.Basic

/-
  Reading records from documents.

  A record is written as an object of its fields, or as an array of them in
  order. Fields of other names are skipped, a field must not be repeated,
  and trailing fields of an array may be left out if they have a default.

  A record that is one of several kinds carries the name of its kind under a
  tag, or as the first item of an array.

  Key definitions include:
    * `Json.fields?`
    * `Json.Origin`
    * `Json.tagged?`
    * `Json.word?`
    * `Json.list?`
    * `Json.optional?`
    * `Json.choice?`
-/

-- Plain Values

namespace HeapShape

namespace Json

/- A truth value. -/
def bool? : Json → Option Bool
| bool b => some b
| _ => none

/- A text. -/
def text? : Json → Option String
| str s => some s
| _ => none

/- A natural number below a bound. -/
def below?
    (bound : Nat) :
    Json → Option Nat
| nat n => if n < bound then some n else none
| _ => none

/- A 32-bit word. -/
def word?
    (j : Json) : Option Nat :=
  j.below? wordBound

/- A 64-bit word. -/
def longWord?
    (j : Json) : Option Nat :=
  j.below? (1 <<< 64)

/- A value that may be null. -/
def optional?
    {α : Type}
    (read : Json → Option α) :
    Json → Option (Option α)
| null => some none
| j => (read j).map some

/- A list of values. -/
def list?
    {α : Type}
    (read : Json → Option α) :
    Json → Option (List α)
| arr items => items.mapM read
| _ => none

/- A pair of values. -/
def pair?
    {α β : Type}
    (first : Json → Option α)
    (second : Json → Option β) :
    Json → Option (α × β)
| arr [a, b] => do
    return (← first a, ← second b)
| _ => none

/- A value with a name: its name, or the name and a null. -/
def choice?
    {α : Type}
    (ofName : String → Option α) :
    Json → Option α
| str s => ofName s
| obj [(s, null)] => ofName s
| _ => none

/- A null written for a document value. -/
def ofOption
    {α : Type}
    (write : α → Json) :
    Option α → Json
| some a => write a
| none => null

-- Records

/- Whether no name occurs twice among some members. -/
def namedOnce
    (names : List String)
    (members : List (String × Json)) : Bool :=
  names.all fun name =>
    (members.filter fun m => m.1 == name).length ≤ 1

/- The fields of a record by name; none where one is left out. -/
def fields?
    (names : List String) :
    Json → Option (List (Option Json))
| obj members =>
    if namedOnce names members then
      some (names.map fun name =>
        (members.find? fun m => m.1 == name).map Prod.snd)
    else none
| arr items =>
    if items.length ≤ names.length then
      some (items.map some ++
        List.replicate (names.length - items.length) none)
    else none
| _ => none

/- A field that must be there. -/
def required
    {α : Type}
    (read : Json → Option α) :
    Option Json → Option α
| some j => read j
| none => none

/- A field with a default. -/
def defaulted
    {α : Type}
    (default : α)
    (read : Json → Option α) :
    Option Json → Option α
| some j => read j
| none => some default

/-
  Where a document comes from. From a text, the values beside a tag are read
  before the kind is known, with a limit to their depth. A document in
  memory has been read as a whole.
-/
inductive Origin where
  | text
  | memory
deriving DecidableEq, Repr, Inhabited

/- Whether a document can be read, with so many levels left. -/
def Origin.admits
    (origin : Origin)
    (room : Nat)
    (items : List Json) : Bool :=
  match origin with
  | .text => allReadable room items
  | .memory => true

/-
  The kind of a tagged record and the record without its tag. From a text,
  the values besides the tag must be readable, with so many levels left for
  them.
-/
def tagged?
    (origin : Origin)
    (room : Nat)
    (tag : String) :
    Json → Option (String × Json)
| obj members =>
    match members.partition fun m => m.1 == tag with
    | ([(_, str kind)], rest) =>
        if origin.admits room (rest.map Prod.snd) then
          some (kind, obj rest)
        else none
    | _ => none
| arr (str kind :: rest) =>
    if origin.admits room rest then some (kind, arr rest)
    else none
| _ => none

/-
  A value with a name inside a tagged record: an empty object serves as a
  null there.
-/
def taggedChoice?
    {α : Type}
    (ofName : String → Option α) :
    Json → Option α
| obj [(s, obj [])] => ofName s
| j => choice? ofName j

end Json

end HeapShape
