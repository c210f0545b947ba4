import HeapShape.Yaml.Basic
import HeapShape.Yaml.Cursor

/-
  YAML scalars.

  A scalar may span lines. A single line break inside it counts as a space,
  and further ones as themselves. A plain scalar ends at a comment, at a
  colon before a gap, at a line that is not indented enough and, in a flow
  collection, at a character that structures it.

  Key definitions include:
    * `Yaml.Gap`
    * `Yaml.plain?`
    * `Yaml.singleQuoted?`
    * `Yaml.doubleQuoted?`
-/

-- Gaps

namespace HeapShape

namespace Yaml

/- What lies between two words of a scalar. -/
inductive Gap where
  | none
  /- Blanks of one line, the last one first. -/
  | blanks (cs : List Char)
  /- A number of line breaks after the first. -/
  | breaks (more : Nat)
  /- A line break that does not count, and some that do. -/
  | joined (more : Nat)
deriving DecidableEq, Repr, Inhabited

namespace Gap

/- Whether a line ended in a gap. -/
def hasBreak : Gap → Bool
| none => false
| blanks _ => false
| breaks _ => true
| joined _ => true

/- A gap with one blank more. -/
def addBlank
    (c : Char) : Gap → Gap
| none => blanks [c]
| blanks cs => blanks (c :: cs)
| breaks more => breaks more
| joined more => joined more

/- A gap with one line break more. -/
def addBreak : Gap → Gap
| none => breaks 0
| blanks _ => breaks 0
| breaks more => breaks (more + 1)
| joined more => joined (more + 1)

/- The text of a gap after a text, both backwards. -/
def onto
    (text : List Char) : Gap → List Char
| none => text
| blanks cs => cs ++ text
| breaks 0 => ' ' :: text
| breaks more => List.replicate more '\n' ++ text
| joined more => List.replicate more '\n' ++ text

end Gap

-- Plain Scalars

/- Whether a plain scalar can start with a character. -/
def startsPlain
    (flow : Bool)
    (c : Char)
    (rest : List Char) : Bool :=
  if c = '-' then
    !gapAhead rest
  else if c = '?' ∨ c = ':' then
    !flow && !gapAhead rest
  else
    !(isBlank c || c == '\n' || isFlowMark c
      || "#&*!|>'\"%@\x60".toList.contains c)

/- Whether a plain scalar ends before a character. -/
def endsPlain
    (flow : Bool)
    (c : Char)
    (rest : List Char) : Bool :=
  (c == ':' && gapAhead rest) || (flow && isFlowMark c)

/- A colon that stands before the structure of a flow. -/
def strayColon
    (flow : Bool)
    (c : Char)
    (rest : List Char) : Bool :=
  flow && c == ':' &&
    match rest with
    | next :: _ => next == '?' || isFlowMark next
    | [] => false

/- Whether a new word after a gap ends the scalar. -/
def endsAfterGap
    (flow : Bool)
    (least : Nat)
    (p : Position)
    (cs : List Char) : Bool :=
  let here : Cursor := { rest := cs, position := p }
  (!flow && p.column < least) || here.atMarker
    || cs.head? == some '#'

/-
  Read on in a plain scalar. Lines after the first have to start at column
  `least` or later.
-/
def plainFrom
    (flow : Bool)
    (least : Nat) :
    List Char → Gap → Position → List Char →
      Option (String × Cursor)
| text, gap, p, [] =>
    some (String.ofList text.reverse,
      { rest := [], position := p, fresh := gap.hasBreak })
| text, gap, p, c :: rest =>
    let stop : Option (String × Cursor) :=
      some (String.ofList text.reverse,
        { rest := c :: rest
          position := p
          fresh := gap.hasBreak })
    if c = '\n' then
      plainFrom flow least text gap.addBreak (p.after c) rest
    else if isBlank c then
      if gap.hasBreak && p.column < least && c == '\t' then
        none
      else
        plainFrom flow least text (gap.addBlank c)
          (p.after c) rest
    else if gap ≠ .none
        ∧ endsAfterGap flow least p (c :: rest) then
      stop
    else if strayColon flow c rest then
      none
    else if endsPlain flow c rest then
      stop
    else
      plainFrom flow least (c :: gap.onto text) .none
        (p.after c) rest

/- A plain scalar. -/
def plain?
    (flow : Bool)
    (least : Nat)
    (c : Cursor) : Option (String × Cursor) :=
  plainFrom flow least [] .none c.position c.rest

-- Quoted Scalars

/- A marker of documents inside quotes is an error. -/
def markerInside
    (gap : Gap)
    (p : Position)
    (cs : List Char) : Bool :=
  let here : Cursor := { rest := cs, position := p }
  gap.hasBreak && here.atMarker

/- Read on between single quotes. -/
def singleQuotedFrom :
    List Char → Gap → Position → List Char →
      Option (String × Cursor)
| _, _, _, [] => none
| text, gap, p, '\'' :: '\'' :: rest =>
    singleQuotedFrom ('\'' :: gap.onto text) .none
      (p.skip 2) rest
| text, gap, p, c :: rest =>
    if c = '\n' then
      singleQuotedFrom text gap.addBreak (p.after c) rest
    else if isBlank c then
      singleQuotedFrom text (gap.addBlank c) (p.after c) rest
    else if markerInside gap p (c :: rest) then
      none
    else if c = '\'' then
      some (String.ofList (gap.onto text).reverse,
        { rest := rest, position := p.skip 1, fresh := false })
    else
      singleQuotedFrom (c :: gap.onto text) .none
        (p.after c) rest

/- The character of a one-letter escape. -/
def escape?
    (c : Char) : Option Char :=
  match c with
  | '0' => some '\x00'
  | 'a' => some '\x07'
  | 'b' => some '\x08'
  | 't' => some '\t'
  | '\t' => some '\t'
  | 'n' => some '\n'
  | 'v' => some '\x0b'
  | 'f' => some '\x0c'
  | 'r' => some '\r'
  | 'e' => some '\x1b'
  | ' ' => some ' '
  | '"' => some '"'
  | '/' => some '/'
  | '\\' => some '\\'
  | 'N' => some '\u0085'
  | '_' => some '\u00a0'
  | 'L' => some '\u2028'
  | 'P' => some '\u2029'
  | _ => none

/- The character of a code point in hexadecimal digits. -/
def codePoint?
    (cs : List Char) : Option Char := do
  let n ← digits? 16 cs
  if n.isValidChar then
    return Char.ofNat n
  else
    none

/- Read on between double quotes. -/
def doubleQuotedFrom :
    List Char → Gap → Position → List Char →
      Option (String × Cursor)
| _, _, _, [] => none
| text, gap, p, '\\' :: '\n' :: rest =>
    doubleQuotedFrom (gap.onto text) (.joined 0)
      ((p.skip 1).after '\n') rest
| text, gap, p, '\\' :: 'x' :: a :: b :: rest =>
    match codePoint? [a, b] with
    | some ch =>
        doubleQuotedFrom (ch :: gap.onto text) .none
          (p.skip 4) rest
    | none => none
| text, gap, p, '\\' :: 'u' :: a :: b :: c :: d :: rest =>
    match codePoint? [a, b, c, d] with
    | some ch =>
        doubleQuotedFrom (ch :: gap.onto text) .none
          (p.skip 6) rest
    | none => none
| text, gap, p,
    '\\' :: 'U' :: a :: b :: c :: d
      :: e :: f :: g :: h :: rest =>
    match codePoint? [a, b, c, d, e, f, g, h] with
    | some ch =>
        doubleQuotedFrom (ch :: gap.onto text) .none
          (p.skip 10) rest
    | none => none
| text, gap, p, '\\' :: c :: rest =>
    match escape? c with
    | some ch =>
        doubleQuotedFrom (ch :: gap.onto text) .none
          (p.skip 2) rest
    | none => none
| text, gap, p, c :: rest =>
    if c = '\n' then
      doubleQuotedFrom text gap.addBreak (p.after c) rest
    else if isBlank c then
      doubleQuotedFrom text (gap.addBlank c) (p.after c) rest
    else if markerInside gap p (c :: rest) then
      none
    else if c = '"' then
      some (String.ofList (gap.onto text).reverse,
        { rest := rest, position := p.skip 1, fresh := false })
    else if c = '\\' then
      none
    else
      doubleQuotedFrom (c :: gap.onto text) .none
        (p.after c) rest

/- A scalar in single quotes. -/
def singleQuoted?
    (c : Cursor) : Option (String × Cursor) :=
  singleQuotedFrom [] .none
    (c.position.skip 1) (c.rest.drop 1)

/- A scalar in double quotes. -/
def doubleQuoted?
    (c : Cursor) : Option (String × Cursor) :=
  doubleQuotedFrom [] .none
    (c.position.skip 1) (c.rest.drop 1)

end Yaml

end HeapShape
