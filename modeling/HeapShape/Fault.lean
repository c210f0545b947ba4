/-
  Faults and checked word arithmetic.

  Offsets, sizes and identifiers are 32-bit words. They are natural numbers
  here, and every addition that could leave the word range is checked:
  leaving it is a fault, after which a computation has no result.

  Key definitions include:
    * `Fault`
    * `Fault.message`
    * `Checked`
    * `wordBound`
    * `addWord`
-/

-- Faults

namespace HeapShape

/- Why a computation on memory graphs cannot go on. -/
inductive Fault where
  /- A sum left the word range. -/
  | addOverflow
  /- A node was used after its slot had been freed. -/
  | deletedNode (node : Nat)
  /- A merge was asked of nodes already merged away. -/
  | staleMerge (this other : Nat)
  /- A node was changed after it had been merged away. -/
  | staleWrite (node : Nat)
  /- A walk or a merge ran past its bound. -/
  | unbounded
deriving DecidableEq, Repr

/- The wording of a fault. -/
def Fault.message : Fault → String
| .addOverflow => "attempt to add with overflow"
| .deletedNode node =>
    "access to deleted node n" ++ toString node
| .staleMerge this other =>
    "unification through a stale forwarding reference (n"
      ++ toString this ++ " <- n" ++ toString other ++ ")"
| .staleWrite node =>
    "change of forwarding node n" ++ toString node
| .unbounded => "bound exceeded"

/- A result, or the fault that prevented it. -/
abbrev Checked :=
  Except Fault

-- Words

/- The first number that is not a 32-bit word. -/
def wordBound : Nat :=
  1 <<< 32

/- The sum of two words, if it is a word. -/
def addWord?
    (a b : Nat) : Option Nat :=
  if a + b < wordBound then some (a + b) else none

/- The sum of two words; leaving the range is a fault. -/
def addWord
    (a b : Nat) : Checked Nat :=
  if a + b < wordBound then .ok (a + b)
  else .error .addOverflow

/- A checked sum is the sum, and it stays in range. -/
theorem addWord_eq_ok_iff
    {a b c : Nat} :
    addWord a b = .ok c ↔ c = a + b ∧ a + b < wordBound := by
  unfold addWord
  split
  · next h =>
    constructor
    · intro hc
      cases hc
      exact ⟨rfl, h⟩
    · rintro ⟨rfl, _⟩
      rfl
  · next h =>
    constructor
    · intro hc
      cases hc
    · rintro ⟨_, hLt⟩
      exact absurd hLt h

end HeapShape
