import HeapShape.Json.Basic

/-
  Reading numbers.

  A number without sign, fraction and exponent that fits a 64-bit word is
  kept. Of any other number only one thing matters: whether a double can
  hold it. That is decided on doubles. The leading digits that fit a word
  are rounded to a double, the power of ten that the other digits and the
  exponent amount to is rounded to a double, and the two are multiplied.
  Digits after the leading ones count with their places, not with their
  values.

  Key definitions include:
    * `Json.roundToDouble`
    * `Json.leadingDigits`
    * `Json.isFinite`
    * `Json.number?`
-/

-- Doubles

namespace HeapShape

namespace Json

/- From here on a natural number is rounded to infinity. -/
def doubleBound : Nat :=
  (1 <<< 1024) - (1 <<< 970)

/-
  The nearest number with 53 binary digits; of two equally near ones, the
  one with an even last digit.
-/
def roundToDouble
    (n : Nat) : Nat :=
  let shift := Nat.log2 n + 1 - 53
  let unit := 1 <<< shift
  let low := n / unit
  let rest := 2 * (n % unit)
  if rest < unit ∨ (rest = unit ∧ low % 2 = 0) then
    low * unit
  else
    (low + 1) * unit

-- Digits

/- The value of a decimal digit. -/
def digitValue
    (d : Char) : Nat :=
  d.toNat - '0'.toNat

/- The value of a run of decimal digits. -/
def decimal
    (ds : List Char) : Nat :=
  ds.foldl (fun n d => 10 * n + digitValue d) 0

/- A run of digits and the rest. -/
def spanDigits
    (cs : List Char) : List Char × List Char :=
  (cs.takeWhile Char.isDigit, cs.dropWhile Char.isDigit)

/- The first number that is not a 64-bit word. -/
def longBound : Nat :=
  1 <<< 64

/-
  Append digits to a number as long as it stays a word. The digits from the
  first one that does not fit are left.
-/
def leadingDigits :
    Nat → List Char → Nat × List Char
| n, [] => (n, [])
| n, d :: rest =>
    let next := 10 * n + digitValue d
    if next < longBound then leadingDigits next rest
    else (n, d :: rest)

/-
  Whether a double holds a number with these digits before and after the
  point, times ten to the power `e`.
-/
def isFinite
    (ds fs : List Char)
    (e : Int) : Bool :=
  let (n, left) := leadingDigits 0 ds
  let (n, unread) := leadingDigits n fs
  let places : Int := fs.length - unread.length
  let power := left.length - places + e
  if n = 0 ∨ power < 0 then true
  else if power > 308 then false
  else
    roundToDouble n * roundToDouble (Nat.pow 10 power.toNat)
      < doubleBound

-- Numbers

/- A fraction: its digits and the rest. -/
def fraction?
    (cs : List Char) : Option (List Char × List Char) :=
  match cs with
  | '.' :: rest =>
    let (ds, rest) := spanDigits rest
    if ds.isEmpty then none else some (ds, rest)
  | _ => some ([], cs)

/- An exponent and the rest. -/
def exponent?
    (cs : List Char) : Option (Option Int × List Char) :=
  match cs with
  | c :: rest =>
    if c = 'e' ∨ c = 'E' then
      let (negative, rest) :=
        match rest with
        | '-' :: rest => (true, rest)
        | '+' :: rest => (false, rest)
        | _ => (false, rest)
      let (ds, rest) := spanDigits rest
      if ds.isEmpty then none
      else
        let e : Int := decimal ds
        some (some (if negative then -e else e), rest)
    else some (none, cs)
  | [] => some (none, cs)

/- A number and the rest. -/
def number?
    (cs : List Char) : Option (Json × List Char) := do
  let (negative, cs) :=
    match cs with
    | '-' :: rest => (true, rest)
    | _ => (false, cs)
  let (ds, rest) := spanDigits cs
  let plain :=
    match ds with
    | [] => false
    | '0' :: _ :: _ => false
    | _ => true
  if plain then
    let (fs, rest) ← fraction? rest
    let (e?, rest) ← exponent? rest
    let n := decimal ds
    if !negative && fs.isEmpty && e?.isNone
        && n < longBound then
      return (nat n, rest)
    else
      return (real (isFinite ds fs (e?.getD 0)), rest)
  else
    none

end Json

end HeapShape
