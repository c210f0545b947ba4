/-
  Places in a YAML text.

  Indentation carries meaning, so a reader has to know the line and the
  column it is at. It also has to know whether a key or a sequence entry may
  start: at the first token of a line, or after the dash of another entry.
  There a tab is not a blank. A byte order mark at the start of a line is
  passed over, but it takes up a column.

  Key definitions include:
    * `Position`
    * `Cursor`
    * `Cursor.separate`
    * `Cursor.atMarker`
-/

-- Characters

namespace HeapShape

namespace Yaml

/- A space or a tab. -/
def isBlank
    (c : Char) : Bool :=
  c == ' ' || c == '\t'

/- The text goes on with a blank or a line break, or ends. -/
def gapAhead : List Char → Bool
| [] => true
| c :: _ => isBlank c || c == '\n'

/- The characters that structure flow collections. -/
def isFlowMark
    (c : Char) : Bool :=
  [',', '[', ']', '\x7b', '\x7d'].contains c

/- Whether a text may hold a character. -/
def isPrintable
    (c : Char) : Bool :=
  let n := c.toNat
  n == 0x09 || n == 0x0A || (0x20 ≤ n && n ≤ 0x7E)
    || (0xA0 ≤ n && n ≤ 0xFFFD) || 0x10000 ≤ n

/- The characters that end a line, besides the usual one. -/
def isOtherBreak
    (c : Char) : Bool :=
  let n := c.toNat
  n == 0x0D || n == 0x85 || n == 0x2028 || n == 0x2029

/- Write every line break as a line feed. -/
def unifyBreaks : List Char → List Char
| [] => []
| '\r' :: '\n' :: rest => '\n' :: unifyBreaks rest
| c :: rest =>
    (if isOtherBreak c then '\n' else c) :: unifyBreaks rest

-- Positions And Cursors

/- The mark that a text in some encodings starts with. -/
def byteOrderMark : Char :=
  '\uFEFF'

/- A place in a text. -/
structure Position where
  /- The number of bytes before it. -/
  index : Nat := 0
  line : Nat := 0
  column : Nat := 0
deriving DecidableEq, Repr, Inhabited

namespace Position

/- The place after one character. -/
def after
    (p : Position)
    (c : Char) : Position :=
  if c = '\n' then
    { index := p.index + 1, line := p.line + 1, column := 0 }
  else
    { p with
      index := p.index + c.utf8Size
      column := p.column + 1 }

/- The place after some ASCII characters of the same line. -/
def skip
    (p : Position)
    (n : Nat) : Position :=
  { p with index := p.index + n, column := p.column + n }

/-
  Whether a key that starts at a place can end at another:
  on the same line and at most 1024 bytes away.
-/
def keyReaches
    (start stop : Position) : Bool :=
  start.line == stop.line && stop.index ≤ start.index + 1024

end Position

/- A place and the text from there on. -/
structure Cursor where
  rest : List Char
  position : Position := {}
  /- A key or a sequence entry may start here. -/
  fresh : Bool := true
deriving Inhabited

namespace Cursor

/- The column of a cursor. -/
def column
    (c : Cursor) : Nat :=
  c.position.column

/- Pass over some ASCII characters of a line. -/
def drop
    (c : Cursor)
    (n : Nat)
    (fresh : Bool) : Cursor where
  rest := c.rest.drop n
  position := c.position.skip n
  fresh := fresh

/-
  Pass over blanks, comments and line breaks. A new line makes the cursor
  fresh, except in a flow collection.
-/
def separateFrom
    (flow : Bool) :
    Bool → Bool → Position → List Char → Cursor
| _, fresh, p, [] =>
    { rest := [], position := p, fresh := fresh }
| comment, fresh, p, c :: rest =>
    if c = '\n' then
      separateFrom flow false (fresh || !flow) (p.after c) rest
    else if comment then
      separateFrom flow true fresh (p.after c) rest
    else if c = byteOrderMark ∧ p.column = 0 then
      separateFrom flow false fresh (p.after c) rest
    else if c = '#' then
      separateFrom flow true fresh (p.after c) rest
    else if c = ' ' ∨ (c = '\t' ∧ (flow || !fresh)) then
      separateFrom flow false fresh (p.after c) rest
    else
      { rest := c :: rest, position := p, fresh := fresh }

/- The next token. -/
def separate
    (flow : Bool)
    (c : Cursor) : Cursor :=
  separateFrom flow false c.fresh c.position c.rest

/- The text starts with a marker and then a gap. -/
def marks
    (c : Char)
    (cs : List Char) : Bool :=
  match cs with
  | c₁ :: c₂ :: c₃ :: rest =>
    c₁ == c && c₂ == c && c₃ == c && gapAhead rest
  | _ => false

/- At the mark that starts a document. -/
def atStart
    (c : Cursor) : Bool :=
  c.column == 0 && marks '-' c.rest

/- At the mark that ends a document. -/
def atStop
    (c : Cursor) : Bool :=
  c.column == 0 && marks '.' c.rest

/- At a mark between documents. -/
def atMarker
    (c : Cursor) : Bool :=
  c.atStart || c.atStop

/- Nothing more in this document. -/
def atEnd
    (c : Cursor) : Bool :=
  c.rest.isEmpty || c.atMarker

/- At a character that a gap follows. -/
def atMark
    (mark : Char)
    (c : Cursor) : Bool :=
  match c.rest with
  | ch :: rest => ch == mark && gapAhead rest
  | [] => false

end Cursor

end Yaml

end HeapShape
