/-
  Blank characters and trimming.

  A character is blank when it has the Unicode property `White_Space`.

  Key definitions include:
    * `isBlank`
    * `trimBlank`
-/

-- Blank Characters

namespace HeapShape

/- The code point ranges of the blank characters. -/
def blankRanges : List (Nat × Nat) :=
  [(0x09, 0x0D), (0x20, 0x20), (0x85, 0x85),
    (0xA0, 0xA0), (0x1680, 0x1680), (0x2000, 0x200A),
    (0x2028, 0x2029), (0x202F, 0x202F), (0x205F, 0x205F),
    (0x3000, 0x3000)]

/- Whether a character is blank. -/
def isBlank
    (c : Char) : Bool :=
  blankRanges.any fun r =>
    r.1 ≤ c.toNat && c.toNat ≤ r.2

/- Drop the blanks at both ends. -/
def trimBlank
    (cs : List Char) : List Char :=
  ((cs.dropWhile isBlank).reverse.dropWhile isBlank).reverse

end HeapShape
