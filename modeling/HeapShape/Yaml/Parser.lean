import HeapShape.Yaml.Scalar

/-
  Reading YAML text.

  A text holds one document of nested mappings, sequences and scalars. Block
  collections are nested by indentation, flow collections by brackets. A key
  stands before a colon on its line, or after a question mark. Anchors,
  tags, directives and block scalars are not part of the format and are
  refused.

  Key definitions include:
    * `Yaml.flowNode?`
    * `Yaml.blockNode?`
    * `Yaml.parse?`
-/

-- Flow Collections

namespace HeapShape

namespace Yaml

/- A scalar of any style. -/
def scalar?
    (flow : Bool)
    (least : Nat)
    (c : Cursor) : Option (Yaml × Cursor) :=
  match c.rest with
  | [] => none
  | '\'' :: _ => do
      let (text, c) ← singleQuoted? c
      return (scalar false text, c)
  | '"' :: _ => do
      let (text, c) ← doubleQuoted? c
      return (scalar false text, c)
  | ch :: rest =>
    if startsPlain flow ch rest then do
      let (text, c) ← plain? flow least c
      return (scalar true text, c)
    else
      none

/- The next token in a flow collection. -/
def Cursor.flowDrop
    (c : Cursor)
    (n : Nat) : Cursor :=
  (c.drop n false).separate true

/- Whether a flow collection goes on with a character. -/
def Cursor.isAt
    (mark : Char)
    (c : Cursor) : Bool :=
  c.rest.head? == some mark

mutual

/- A node in a flow collection. -/
def flowNode?
    (least : Nat) :
    Nat → Cursor → Option (Yaml × Cursor)
| 0, _ => none
| fuel + 1, c =>
    if c.atMarker then none
    else if c.isAt '[' then do
      let (items, c) ← flowItems? least fuel (c.flowDrop 1)
      return (seq items, c)
    else if c.isAt '\x7b' then do
      let (entries, c) ← flowEntries? least fuel (c.flowDrop 1)
      return (map entries, c)
    else
      scalar? true least c

/- The value after a colon; it may be missing. -/
def flowValue?
    (least : Nat)
    (close : Char) :
    Nat → Cursor → Option (Yaml × Cursor)
| 0, _ => none
| fuel + 1, c =>
    if c.isAt ',' || c.isAt close then
      some (empty, c)
    else do
      let (value, c) ← flowNode? least fuel c
      return (value, c.separate true)

/-
  A node and, if a colon follows its key, a value. A node after a question
  mark is a key in any case, and it may be missing.
-/
def flowPair?
    (least : Nat)
    (close : Char) :
    Nat → Cursor → Option ((Yaml × Option Yaml) × Cursor)
| 0, _ => none
| fuel + 1, start =>
    if start.isAt '?' then do
      let c := start.flowDrop 1
      let (key, c) ←
        if c.isAt ':' then pure (empty, c)
        else flowValue? least close fuel c
      if c.isAt ':' then
        let (value, c) ←
          flowValue? least close fuel (c.flowDrop 1)
        return ((key, some value), c)
      else
        return ((key, some empty), c)
    else do
      let (key, c) ← flowNode? least fuel start
      let c := c.separate true
      if c.isAt ':'
          && start.position.keyReaches c.position then
        let (value, c) ←
          flowValue? least close fuel (c.flowDrop 1)
        return ((key, some value), c)
      else
        return ((key, none), c)

/- The items of a sequence after its opening bracket. -/
def flowItems?
    (least : Nat) :
    Nat → Cursor → Option (List Yaml × Cursor)
| 0, _ => none
| fuel + 1, c =>
    if c.isAt ']' then
      some ([], c.drop 1 false)
    else do
      let ((key, value?), c) ← flowPair? least ']' fuel c
      let item :=
        match value? with
        | some value => map [(key, value)]
        | none => key
      if c.isAt ',' then
        let (items, c) ← flowItems? least fuel (c.flowDrop 1)
        return (item :: items, c)
      else if c.isAt ']' then
        return ([item], c.drop 1 false)
      else
        none

/- The entries of a mapping after its opening brace. -/
def flowEntries?
    (least : Nat) :
    Nat → Cursor → Option (List (Yaml × Yaml) × Cursor)
| 0, _ => none
| fuel + 1, c =>
    if c.isAt '\x7d' then
      some ([], c.drop 1 false)
    else do
      let ((key, value?), c) ← flowPair? least '\x7d' fuel c
      let entry := (key, value?.getD empty)
      if c.isAt ',' then
        let (entries, c) ←
          flowEntries? least fuel (c.flowDrop 1)
        return (entry :: entries, c)
      else if c.isAt '\x7d' then
        return ([entry], c.drop 1 false)
      else
        none

end

end Yaml

end HeapShape

-- Block Collections

namespace HeapShape

namespace Yaml

/- The next token in a block collection. -/
def Cursor.blockDrop
    (c : Cursor)
    (n : Nat)
    (fresh : Bool) : Cursor :=
  (c.drop n fresh).separate false

/- At the dash of an entry in a column. -/
def Cursor.atEntry
    (column : Nat)
    (c : Cursor) : Bool :=
  c.fresh && c.column == column && c.atMark '-'

/- At the colon of an explicit key in a column. -/
def Cursor.atValue
    (column : Nat)
    (c : Cursor) : Bool :=
  c.fresh && c.column == column && c.atMark ':'

/- A scalar or a flow collection, and the next token. -/
def inline?
    (least : Nat)
    (fuel : Nat)
    (c : Cursor) : Option (Yaml × Cursor) := do
  let (y, c) ←
    if c.isAt '[' || c.isAt '\x7b' then
      flowNode? least fuel c
    else
      scalar? false least c
  return (y, c.separate false)

/- Whether a node is a key: a colon follows soon enough. -/
def isKey
    (start stop : Cursor) : Bool :=
  start.fresh && stop.atMark ':'
    && start.position.keyReaches stop.position

mutual

/-
  A node in a block collection. It starts at column `least` or later. The
  cursor that is left is at a token.
-/
def blockNode?
    (least : Nat) :
    Nat → Cursor → Option (Yaml × Cursor)
| 0, _ => none
| fuel + 1, start =>
    if start.atEntry start.column then do
      let (items, c) ←
        blockItems? start.column false fuel start
      return (seq items, c)
    else if start.fresh && start.atMark '?' then do
      let (entries, c) ←
        explicitEntries? start.column fuel start
      return (map entries, c)
    else do
      let (y, c) ← inline? least fuel start
      if isKey start c then
        let (entries, c) ←
          blockEntries? start.column fuel y c
        return (map entries, c)
      else
        return (y, c)
termination_by structural fuel => fuel

/-
  What belongs to a key of a mapping in a column: a node that is indented
  more, a sequence in the same column, or nothing.
-/
def blockChild?
    (column : Nat) :
    Nat → Cursor → Option (Yaml × Cursor)
| 0, _ => none
| fuel + 1, c =>
    if c.atEnd then
      some (empty, c)
    else if column < c.column then
      blockNode? (column + 1) fuel c
    else if c.atEntry column then do
      let (items, c) ← blockItems? column true fuel c
      return (seq items, c)
    else
      some (empty, c)
termination_by structural fuel => fuel

/-
  The entries of a mapping in a column, from the colon after a key on.
-/
def blockEntries?
    (column : Nat) :
    Nat → Yaml → Cursor → Option (List (Yaml × Yaml) × Cursor)
| 0, _, _ => none
| fuel + 1, key, c => do
    let (value, c) ←
      blockChild? column fuel (c.blockDrop 1 false)
    let (entries, c) ← moreEntries? column fuel c
    return ((key, value) :: entries, c)
termination_by structural fuel => fuel

/-
  The entries of a mapping in a column, from a question mark on. The value
  has a line of its own, or is missing.
-/
def explicitEntries?
    (column : Nat) :
    Nat → Cursor → Option (List (Yaml × Yaml) × Cursor)
| 0, _ => none
| fuel + 1, c => do
    let (key, c) ←
      blockChild? column fuel (c.blockDrop 1 true)
    let (value, c) ←
      if c.atValue column then
        blockChild? column fuel (c.blockDrop 1 true)
      else
        pure (empty, c)
    let (entries, c) ← moreEntries? column fuel c
    return ((key, value) :: entries, c)
termination_by structural fuel => fuel

/- The further entries of a mapping in a column. -/
def moreEntries?
    (column : Nat) :
    Nat → Cursor → Option (List (Yaml × Yaml) × Cursor)
| 0, _ => none
| fuel + 1, c =>
    if c.atEnd || c.column < column then
      some ([], c)
    else if c.column ≠ column || !c.fresh then
      none
    else if c.atMark '?' then
      explicitEntries? column fuel c
    else do
      let (key, c') ← inline? (column + 1) fuel c
      if isKey c c' then
        blockEntries? column fuel key c'
      else
        none
termination_by structural fuel => fuel

/-
  The items of a sequence in a column, from a dash on. In the column of a
  mapping, the sequence ends where another key follows.
-/
def blockItems?
    (column : Nat)
    (inMapping : Bool) :
    Nat → Cursor → Option (List Yaml × Cursor)
| 0, _ => none
| fuel + 1, c => do
    let c := c.blockDrop 1 true
    let (item, c) ←
      if c.atEnd || c.column ≤ column then
        pure (empty, c)
      else
        blockNode? (column + 1) fuel c
    if !c.atEnd && c.atEntry column then
      let (items, c) ← blockItems? column inMapping fuel c
      return (item :: items, c)
    else if c.atEnd || c.column < column
        || (inMapping && c.column == column) then
      return ([item], c)
    else
      none
termination_by structural fuel => fuel

end

end Yaml

end HeapShape

-- Documents

namespace HeapShape

namespace Yaml

/- Only marks that end a document, and comments. -/
def isFinished :
    Nat → Cursor → Bool
| 0, _ => false
| fuel + 1, c =>
    c.rest.isEmpty ||
      (c.atStop && isFinished fuel (c.blockDrop 3 false))

/- The node of a document. -/
def document?
    (fuel : Nat)
    (c : Cursor) : Option (Yaml × Cursor) :=
  if c.atEnd then some (empty, c)
  else blockNode? 0 fuel c

/-
  Read a text that holds one document. An empty text is an empty document.
  Of three steps of the reader at least one passes over a character.
-/
def parse?
    (text : String) : Option Yaml := do
  let chars := unifyBreaks text.toList
  if chars.all isPrintable then
    let fuel := 4 * chars.length + 8
    let start : Cursor := { rest := chars }
    let c := start.separate false
    let (y, c) ←
      if c.atStop then none
      else if c.atStart then
        document? fuel (c.blockDrop 3 false)
      else
        document? fuel c
    if isFinished fuel c then
      return y
    else
      none
  else
    none

end Yaml

end HeapShape
