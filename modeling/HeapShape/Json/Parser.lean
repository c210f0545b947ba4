import HeapShape.Json.Number

/-
  Reading JSON text.

  The text is one value with blanks around it. Strings hold no raw control
  characters, numbers have no superfluous zeros, and nothing may follow the
  value.

  Key definitions include:
    * `Json.parse?`
-/

-- Blanks

namespace HeapShape

namespace Json

/- The four characters that may stand between tokens. -/
def isSpace
    (c : Char) : Bool :=
  c == ' ' || c == '\t' || c == '\n' || c == '\r'

/- Drop the blanks in front. -/
def skipSpace
    (cs : List Char) : List Char :=
  cs.dropWhile isSpace

-- Strings

/- A character, or a code unit named by an escape. -/
inductive Piece where
  | char (c : Char)
  | unit (n : Nat)

/- The value of a hexadecimal digit. -/
def hexValue?
    (c : Char) : Option Nat :=
  if c.isDigit then some (c.toNat - '0'.toNat)
  else if 'a' ≤ c ∧ c ≤ 'f' then
    some (c.toNat - 'a'.toNat + 10)
  else if 'A' ≤ c ∧ c ≤ 'F' then
    some (c.toNat - 'A'.toNat + 10)
  else none

/- The code unit of four hexadecimal digits. -/
def codeUnit?
    (a b c d : Char) : Option Nat := do
  let a ← hexValue? a
  let b ← hexValue? b
  let c ← hexValue? c
  let d ← hexValue? d
  return ((a * 16 + b) * 16 + c) * 16 + d

/- The character of a one-letter escape. -/
def shortEscape? : Char → Option Char
| '"' => some '"'
| '\\' => some '\\'
| '/' => some '/'
| 'b' => some '\x08'
| 'f' => some '\x0c'
| 'n' => some '\n'
| 'r' => some '\r'
| 't' => some '\t'
| _ => none

/- The pieces of a string up to its closing quote. -/
def pieces? : List Char → Option (List Piece × List Char)
| [] => none
| '"' :: rest => some ([], rest)
| '\\' :: 'u' :: a :: b :: c :: d :: rest => do
    let n ← codeUnit? a b c d
    let (ps, rest) ← pieces? rest
    return (.unit n :: ps, rest)
| '\\' :: e :: rest => do
    let c ← shortEscape? e
    let (ps, rest) ← pieces? rest
    return (.char c :: ps, rest)
| c :: rest =>
    if c.toNat < 0x20 ∨ c = '\\' then none
    else do
      let (ps, rest) ← pieces? rest
      return (.char c :: ps, rest)

/- The first half of a surrogate pair. -/
def isHigh
    (n : Nat) : Bool :=
  0xD800 ≤ n && n ≤ 0xDBFF

/- The second half of a surrogate pair. -/
def isLow
    (n : Nat) : Bool :=
  0xDC00 ≤ n && n ≤ 0xDFFF

/- The text of some pieces, if no half pair is left over. -/
def joinPieces? : List Piece → Option (List Char)
| [] => some []
| .char c :: rest => (joinPieces? rest).map (c :: ·)
| .unit n :: .unit m :: rest =>
    if isHigh n && isLow m then
      let code :=
        0x10000 + (n - 0xD800) * 0x400 + (m - 0xDC00)
      (joinPieces? rest).map (Char.ofNat code :: ·)
    else if isHigh n || isLow n then none
    else (joinPieces? (.unit m :: rest)).map (Char.ofNat n :: ·)
| .unit n :: rest =>
    if isHigh n || isLow n then none
    else (joinPieces? rest).map (Char.ofNat n :: ·)

/-
  A string after its opening quote, and the rest. The inner result is none
  if the string is no text.
-/
def string?
    (cs : List Char) :
    Option (Option String × List Char) := do
  let (ps, rest) ← pieces? cs
  return ((joinPieces? ps).map String.ofList, rest)

-- Values

/- The rest after a given word. -/
def afterWord?
    (word cs : List Char) : Option (List Char) :=
  if word.isPrefixOf cs then some (cs.drop word.length)
  else none

/- An object, unless some key is no text. -/
def ofMembers
    (members : List (Option String × Json)) : Json :=
  match members.mapM fun (k, j) => k.map fun k => (k, j) with
  | some ms => obj ms
  | none => garbled

mutual

/- A value with blanks in front of it, and the rest. -/
def value? : Nat → List Char → Option (Json × List Char)
| 0, _ => none
| fuel + 1, cs =>
    match skipSpace cs with
    | [] => none
    | '"' :: rest => do
        let (s?, rest) ← string? rest
        match s? with
        | some s => return (str s, rest)
        | none => return (garbled, rest)
    | '[' :: rest =>
        match skipSpace rest with
        | ']' :: rest => some (arr [], rest)
        | rest => do
            let (items, rest) ← items? fuel rest
            return (arr items, rest)
    | '\x7b' :: rest =>
        match skipSpace rest with
        | '\x7d' :: rest => some (obj [], rest)
        | rest => do
            let (members, rest) ← members? fuel rest
            return (ofMembers members, rest)
    | 't' :: rest => do
        let rest ← afterWord? ['r', 'u', 'e'] rest
        return (bool true, rest)
    | 'f' :: rest => do
        let rest ← afterWord? ['a', 'l', 's', 'e'] rest
        return (bool false, rest)
    | 'n' :: rest => do
        let rest ← afterWord? ['u', 'l', 'l'] rest
        return (null, rest)
    | cs => number? cs

/- The items of an array, at least one, and the rest. -/
def items? : Nat → List Char → Option (List Json × List Char)
| 0, _ => none
| fuel + 1, cs => do
    let (j, rest) ← value? fuel cs
    match skipSpace rest with
    | ',' :: rest => do
        let (js, rest) ← items? fuel rest
        return (j :: js, rest)
    | ']' :: rest => return ([j], rest)
    | _ => none

/- The members of an object, at least one, and the rest. -/
def members? :
    Nat → List Char →
      Option (List (Option String × Json) × List Char)
| 0, _ => none
| fuel + 1, cs =>
    match skipSpace cs with
    | '"' :: rest => do
        let (key, rest) ← string? rest
        match skipSpace rest with
        | ':' :: rest => do
            let (j, rest) ← value? fuel rest
            match skipSpace rest with
            | ',' :: rest => do
                let (ms, rest) ← members? fuel rest
                return ((key, j) :: ms, rest)
            | '\x7d' :: rest => return ([(key, j)], rest)
            | _ => none
        | _ => none
    | _ => none

end

/-
  Read a whole text. Every character is worth two levels, so the bound is
  not met.
-/
def parse?
    (text : String) : Option Json :=
  let cs := text.toList
  match value? (2 * cs.length + 2) cs with
  | some (j, rest) =>
    if (skipSpace rest).isEmpty then some j else none
  | none => none

end Json

end HeapShape
