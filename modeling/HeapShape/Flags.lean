import HeapShape.Text.Blank

/-
  Node flags.

  A flag set says what an abstract memory object may be. Merging two objects
  keeps every flag of either, except `foreign`, which needs both.

  Flag sets have two written forms: one letter per flag, and the flag names
  separated by bars. The second form can carry bits that name no flag.

  Key definitions include:
    * `Flag`
    * `Flags`
    * `Flags.has`
    * `Flags.join`
    * `Flags.letters`
    * `Flags.names`
    * `Flags.parse?`

  `Flags.has_join` states the rule of merging.
-/

-- Single Flags

namespace HeapShape

/- One property of an abstract memory object. -/
inductive Flag where
  | stack
  | heap
  | global
  | external
  | intToPtr
  | ptrToInt
  | unknown
  | incomplete
  | modified
  | read
  | array
  | offsetCollapsed
  | typeCollapsed
  | dead
  | null
  | foreign
deriving DecidableEq, Repr

namespace Flag

/- Every flag, in bit order. -/
def all : List Flag :=
  [stack, heap, global, external, intToPtr, ptrToInt,
    unknown, incomplete, modified, read, array,
    offsetCollapsed, typeCollapsed, dead, null, foreign]

/- The bit position of a flag. -/
def bit : Flag → Nat
| stack => 0
| heap => 1
| global => 2
| external => 3
| intToPtr => 4
| ptrToInt => 5
| unknown => 6
| incomplete => 7
| modified => 8
| read => 9
| array => 10
| offsetCollapsed => 11
| typeCollapsed => 12
| dead => 13
| null => 14
| foreign => 15

/- The letter of a flag. -/
def letter : Flag → Char
| stack => 'S'
| heap => 'H'
| global => 'G'
| external => 'E'
| intToPtr => 'P'
| ptrToInt => '2'
| unknown => 'U'
| incomplete => 'I'
| modified => 'M'
| read => 'R'
| array => 'A'
| offsetCollapsed => 'O'
| typeCollapsed => 'T'
| dead => 'D'
| null => 'N'
| foreign => 'F'

/- The name of a flag. -/
def name : Flag → String
| stack => "STACK"
| heap => "HEAP"
| global => "GLOBAL"
| external => "EXTERNAL"
| intToPtr => "INT_TO_PTR"
| ptrToInt => "PTR_TO_INT"
| unknown => "UNKNOWN"
| incomplete => "INCOMPLETE"
| modified => "MODIFIED"
| read => "READ"
| array => "ARRAY"
| offsetCollapsed => "OFFSET_COLLAPSED"
| typeCollapsed => "TYPE_COLLAPSED"
| dead => "DEAD"
| null => "NULL"
| foreign => "FOREIGN"

/- The flag of a name. -/
def ofName?
    (text : String) : Option Flag :=
  all.find? fun f => f.name == text

/- Every flag has a bit below the width of a flag set. -/
theorem bit_lt
    (f : Flag) : f.bit < 32 := by
  cases f <;> decide

/- Different flags have different bits. -/
theorem bit_injective
    {f g : Flag}
    (h : f.bit = g.bit) : f = g := by
  revert h
  cases f <;> cases g <;> decide

end Flag

-- Flag Sets

/- A set of flags, one bit each. -/
structure Flags where
  bits : BitVec 32
deriving DecidableEq

namespace Flags

/- No flag. -/
def empty : Flags where
  bits := 0#32

instance : Inhabited Flags :=
  ⟨empty⟩

/- The set of one flag. -/
def only
    (f : Flag) : Flags where
  bits := BitVec.twoPow 32 f.bit

/- The flags of either set. -/
def union
    (s t : Flags) : Flags where
  bits := s.bits ||| t.bits

/- The flags of `s` that are not in `t`. -/
def diff
    (s t : Flags) : Flags where
  bits := s.bits &&& ~~~t.bits

/- Whether a flag is set. -/
def has
    (s : Flags)
    (f : Flag) : Bool :=
  s.bits.getLsbD f.bit

/- Set one flag. -/
def insert
    (s : Flags)
    (f : Flag) : Flags :=
  s.union (only f)

/- Clear one flag. -/
def erase
    (s : Flags)
    (f : Flag) : Flags :=
  s.diff (only f)

/- The set of a list of flags. -/
def ofList
    (fs : List Flag) : Flags :=
  fs.foldl insert empty

/- Whether no bit is set. -/
def isEmpty
    (s : Flags) : Bool :=
  s.bits == 0#32

/- The flags of a bit mask; only the named bits count. -/
def ofMask
    (mask : Nat) : Flags where
  bits := BitVec.ofNat 32 (mask % (1 <<< 16))

/-
  The flags of an object made by merging two: all flags of either, but
  `foreign` only if both have it.
-/
def join
    (s t : Flags) : Flags :=
  if s.has .foreign && t.has .foreign then s.union t
  else (s.union t).erase .foreign

/- A single flag set has exactly its flag. -/
theorem has_only
    (f g : Flag) :
    (only f).has g = decide (f = g) := by
  unfold only has
  rw [BitVec.getLsbD_twoPow]
  have hLt := g.bit_lt
  by_cases h : f = g
  · subst h
    simp [f.bit_lt]
  · have hNe : f.bit ≠ g.bit := fun hEq =>
      h (Flag.bit_injective hEq)
    simp [h, hNe]

/- A union has the flags of either side. -/
theorem has_union
    (s t : Flags)
    (f : Flag) :
    (s.union t).has f = (s.has f || t.has f) := by
  unfold union has
  exact BitVec.getLsbD_or

/- A difference has the flags of one side only. -/
theorem has_diff
    (s t : Flags)
    (f : Flag) :
    (s.diff t).has f = (s.has f && !t.has f) := by
  unfold diff has
  rw [BitVec.getLsbD_and, BitVec.getLsbD_not]
  simp [f.bit_lt]

/- Setting one flag. -/
theorem has_insert
    (s : Flags)
    (f g : Flag) :
    (s.insert f).has g = (s.has g || decide (f = g)) := by
  unfold insert
  rw [has_union, has_only]

/- Clearing one flag. -/
theorem has_erase
    (s : Flags)
    (f g : Flag) :
    (s.erase f).has g = (s.has g && !decide (f = g)) := by
  unfold erase
  rw [has_diff, has_only]

/- Clearing one flag leaves the others alone. -/
theorem has_erase_of_ne
    (s : Flags)
    {f g : Flag}
    (hne : g ≠ f) :
    (s.erase f).has g = s.has g := by
  rw [has_erase, decide_eq_false (Ne.symm hne), Bool.not_false,
    Bool.and_true]

/- The rule of merging: `foreign` needs both sides. -/
theorem has_join
    (s t : Flags)
    (f : Flag) :
    (s.join t).has f =
      if f = .foreign then s.has f && t.has f
      else s.has f || t.has f := by
  unfold join
  by_cases hf : f = .foreign
  · subst hf
    split
    · next h =>
      rw [has_union]
      simp only [Bool.and_eq_true] at h
      simp [h.1, h.2]
    · next h =>
      rw [has_erase]
      simp only [Bool.and_eq_true, not_and] at h
      cases hs : s.has .foreign <;> simp [hs] at h ⊢
      exact h
  · have hne : ¬ Flag.foreign = f := fun h => hf h.symm
    split <;> simp [has_union, has_erase, hne]

-- Written Forms

/- One letter for each flag, in bit order. -/
def letters
    (s : Flags) : String :=
  String.ofList
    ((Flag.all.filter s.has).map Flag.letter)

/- The bits that name no flag. -/
def unnamed
    (s : Flags) : BitVec 32 :=
  (s.diff (ofList Flag.all)).bits

/-
  The names in bit order, then the unnamed bits as one hexadecimal number,
  separated by bars.
-/
def names
    (s : Flags) : String :=
  let named := (Flag.all.filter s.has).map Flag.name
  let rest := s.unnamed
  let parts :=
    if rest == 0#32 then named
    else
      named ++
        ["0x" ++
          String.ofList (Nat.toDigits 16 rest.toNat)]
  " | ".intercalate parts

/- The value of a hexadecimal digit. -/
def hexDigit?
    (c : Char) : Option Nat :=
  if '0' ≤ c ∧ c ≤ '9' then some (c.toNat - '0'.toNat)
  else if 'a' ≤ c ∧ c ≤ 'f' then
    some (c.toNat - 'a'.toNat + 10)
  else if 'A' ≤ c ∧ c ≤ 'F' then
    some (c.toNat - 'A'.toNat + 10)
  else none

/- The value of a non-empty run of hexadecimal digits. -/
def hexNumber?
    (cs : List Char) : Option Nat :=
  if cs.isEmpty then none
  else
    cs.foldlM
      (fun n c => (hexDigit? c).map (16 * n + ·)) 0

/- The bits of one part of a written flag set. -/
def parsePart?
    (part : List Char) : Option Flags :=
  match part with
  | '0' :: 'x' :: digits =>
    let digits :=
      match digits with
      | '+' :: rest => rest
      | _ => digits
    match hexNumber? digits with
    | some n =>
      if n < 1 <<< 32 then
        some ⟨BitVec.ofNat 32 n⟩
      else none
    | none => none
  | _ => (Flag.ofName? (String.ofList part)).map only

/- Cut a text at every occurrence of a character. -/
def splitAtChar
    (sep : Char) :
    List Char → List (List Char)
| [] => [[]]
| c :: rest =>
    if c = sep then [] :: splitAtChar sep rest
    else
      match splitAtChar sep rest with
      | [] => [[c]]
      | part :: parts => (c :: part) :: parts

/-
  Read names separated by bars. A blank text is the empty set, and a blank
  part is no flag.
-/
def parse?
    (text : String) : Option Flags :=
  if (trimBlank text.toList).isEmpty then some empty
  else
    (splitAtChar '|' text.toList).foldlM
      (fun s part =>
        (parsePart? (trimBlank part)).map s.union)
      empty

end Flags

end HeapShape
