import HeapShape.Json.Basic

/-
  Writing JSON text.

  Strings escape quotes, backslashes and control characters only. Documents
  are written on one line, or indented by two blanks per level.

  Key definitions include:
    * `Json.quote`
    * `Json.compact`
    * `Json.pretty`
-/

-- Strings

namespace HeapShape

namespace Json

/- A digit of a hexadecimal number. -/
def hexChar
    (n : Nat) : Char :=
  if n < 10 then Char.ofNat ('0'.toNat + n)
  else Char.ofNat ('a'.toNat + (n - 10))

/- How a character is written inside a string. -/
def escape
    (c : Char) : List Char :=
  match c with
  | '"' => ['\\', '"']
  | '\\' => ['\\', '\\']
  | '\x08' => ['\\', 'b']
  | '\x0c' => ['\\', 'f']
  | '\n' => ['\\', 'n']
  | '\r' => ['\\', 'r']
  | '\t' => ['\\', 't']
  | c =>
    if c.toNat < 0x20 then
      ['\\', 'u', '0', '0', hexChar (c.toNat / 16),
        hexChar (c.toNat % 16)]
    else [c]

/- A string between quotes. -/
def quote
    (s : String) : String :=
  String.ofList
    ('"' :: (s.toList.map escape).flatten ++ ['"'])

-- Documents

mutual

/- A document on one line. -/
def compact : Json → String
| null => "null"
| bool true => "true"
| bool false => "false"
| nat n => toString n
| real _ => "0.0"
| str s => quote s
| arr items => "[" ++ compactItems items ++ "]"
| obj members => "\x7b" ++ compactMembers members ++ "\x7d"
| garbled => "null"

/- Items separated by commas. -/
def compactItems : List Json → String
| [] => ""
| [j] => compact j
| j :: rest => compact j ++ "," ++ compactItems rest

/- Members separated by commas. -/
def compactMembers : List (String × Json) → String
| [] => ""
| [(k, j)] => quote k ++ ":" ++ compact j
| (k, j) :: rest =>
    quote k ++ ":" ++ compact j ++ "," ++ compactMembers rest

end

/- A new line with some levels of indentation. -/
def newline
    (level : Nat) : String :=
  "\n" ++ String.ofList (List.replicate (2 * level) ' ')

mutual

/- An indented document, at a level. -/
def prettyAt : Nat → Json → String
| _, arr [] => "[]"
| level, arr (j :: rest) =>
    "[" ++ prettyItems (level + 1) (j :: rest)
      ++ newline level ++ "]"
| _, obj [] => "\x7b\x7d"
| level, obj (m :: rest) =>
    "\x7b" ++ prettyMembers (level + 1) (m :: rest)
      ++ newline level ++ "\x7d"
| _, null => "null"
| _, bool true => "true"
| _, bool false => "false"
| _, nat n => toString n
| _, real _ => "0.0"
| _, str s => quote s
| _, garbled => "null"

/- Items on lines of their own. -/
def prettyItems : Nat → List Json → String
| _, [] => ""
| level, [j] => newline level ++ prettyAt level j
| level, j :: rest =>
    newline level ++ prettyAt level j ++ ","
      ++ prettyItems level rest

/- Members on lines of their own. -/
def prettyMembers : Nat → List (String × Json) → String
| _, [] => ""
| level, [(k, j)] =>
    newline level ++ quote k ++ ": " ++ prettyAt level j
| level, (k, j) :: rest =>
    newline level ++ quote k ++ ": " ++ prettyAt level j
      ++ "," ++ prettyMembers level rest

end

/- An indented document. -/
def pretty
    (j : Json) : String :=
  prettyAt 0 j

end Json

end HeapShape
