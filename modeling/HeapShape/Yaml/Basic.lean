/-
  YAML documents.

  A scalar is kept as its text and whether it was written without quotes:
  only such a scalar can be a number or a truth value. A missing value is an
  empty plain scalar.

  Key definitions include:
    * `Yaml`
    * `Yaml.bool?`
    * `Yaml.natural?`
    * `Yaml.fields?`
-/

-- Documents

namespace HeapShape

/- A YAML document. -/
inductive Yaml where
  | scalar (plain : Bool) (text : String)
  | seq (items : List Yaml)
  | map (entries : List (Yaml × Yaml))
deriving Inhabited

namespace Yaml

/- What stands where nothing is written. -/
def empty : Yaml :=
  scalar true ""

/- A scalar without quotes. -/
def word
    (text : String) : Yaml :=
  scalar true text

-- Numbers

/- The value of a digit, up to base sixteen. -/
def digitValue
    (c : Char) : Nat :=
  if '0' ≤ c ∧ c ≤ '9' then c.toNat - '0'.toNat
  else if 'a' ≤ c ∧ c ≤ 'f' then c.toNat - 'a'.toNat + 10
  else if 'A' ≤ c ∧ c ≤ 'F' then c.toNat - 'A'.toNat + 10
  else 16

/- The value of one or more digits of a base. -/
def digits?
    (base : Nat)
    (cs : List Char) : Option Nat :=
  if cs.isEmpty || cs.any fun c => base ≤ digitValue c then
    none
  else
    some (cs.foldl (fun n c => base * n + digitValue c) 0)

/- Decimal digits without superfluous zeros. -/
def decimal?
    (cs : List Char) : Option Nat :=
  match cs with
  | '0' :: _ :: _ => none
  | _ => digits? 10 cs

/-
  A natural number: a base and its digits, or decimal digits, with or
  without a plus sign.
-/
def numeral?
    (cs : List Char) : Option Nat :=
  let cs :=
    match cs with
    | '+' :: rest => rest
    | _ => cs
  match cs with
  | '0' :: 'x' :: rest => digits? 16 rest
  | '0' :: 'o' :: rest => digits? 8 rest
  | '0' :: 'b' :: rest => digits? 2 rest
  | _ => decimal? cs

-- Reading Values

/- A truth value, in one of three spellings. -/
def bool? : Yaml → Option Bool
| scalar true text =>
    if ["true", "True", "TRUE"].contains text then some true
    else if ["false", "False", "FALSE"].contains text then
      some false
    else none
| _ => none

/- A natural number below a bound. -/
def natural?
    (bound : Nat) : Yaml → Option Nat
| scalar true text =>
    (numeral? text.toList).filter fun n => n < bound
| _ => none

/- One of several names, with or without quotes. -/
def choice?
    {α : Type}
    (ofName? : String → Option α) : Yaml → Option α
| scalar _ text => ofName? text
| _ => none

/- The entries of a mapping; a missing value has none. -/
def entries? : Yaml → Option (List (Yaml × Yaml))
| map entries => some entries
| scalar true "" => some []
| _ => none

/- The entries by name; every key must be a scalar. -/
def namedEntries? :
    List (Yaml × Yaml) → Option (List (String × Yaml))
| [] => some []
| (scalar _ name, v) :: rest =>
    (namedEntries? rest).map ((name, v) :: ·)
| _ :: _ => none

/- The only value of a name, if there is at most one. -/
def single?
    (entries : List (String × Yaml))
    (name : String) : Option (Option Yaml) :=
  match entries.filter fun e => e.1 == name with
  | [] => some none
  | [e] => some (some e.2)
  | _ => none

/-
  The values of the known names of a mapping. A known name stands at most
  once; other names are ignored.
-/
def fields?
    (known : List String)
    (y : Yaml) : Option (List (Option Yaml)) := do
  let entries ← namedEntries? (← y.entries?)
  known.mapM (single? entries)

/- A field that may be absent. -/
def defaulted
    {α : Type}
    (d : α)
    (read : Yaml → Option α)
    (field : Option Yaml) : Option α :=
  match field with
  | none => some d
  | some y => read y

end Yaml

end HeapShape
