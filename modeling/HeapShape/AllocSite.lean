import HeapShape.Ident

/-
  Allocation sites and the calls they crossed.

  Key definitions include:
    * `AllocKind`
    * `AllocSite`
    * `Direction`
    * `CallStep`
-/

-- Allocation Sites

namespace HeapShape

/- Where the memory of an allocation lives. -/
inductive AllocKind where
  | stack
  | heap
  | global
  | external
deriving DecidableEq, Repr, Inhabited

namespace AllocKind

/- Every kind, in order. -/
def all : List AllocKind :=
  [stack, heap, global, external]

/- The place of a kind in the order. -/
def rank : AllocKind → Nat
| stack => 0
| heap => 1
| global => 2
| external => 3

/- The name of a kind. -/
def name : AllocKind → String
| stack => "stack"
| heap => "heap"
| global => "global"
| external => "external"

/- The kind with this name. -/
def ofName?
    (text : String) : Option AllocKind :=
  all.find? fun k => k.name == text

/- Different kinds have different ranks. -/
theorem rank_injective
    {k l : AllocKind}
    (h : k.rank = l.rank) : k = l := by
  revert h
  cases k <;> cases l <;> decide

end AllocKind

/- An allocation that contributes memory to a node. -/
structure AllocSite where
  id : AllocSiteId
  kind : AllocKind
deriving DecidableEq, Repr, Inhabited

namespace AllocSite

/- Whether the memory is local to one function. -/
def isStack
    (s : AllocSite) : Bool :=
  s.kind == .stack

/- Sites are ordered by number, then by kind. -/
instance : Ord AllocSite where
  compare :=
    compareLex (compareOn AllocSite.id)
      (compareOn fun s => s.kind.rank)

instance : Std.TransOrd AllocSite :=
  inferInstanceAs
    (Std.TransCmp
      (compareLex (compareOn AllocSite.id)
        (compareOn fun s => s.kind.rank)))

instance : Std.LawfulEqOrd AllocSite where
  compare_self := Std.ReflCmp.compare_self
  eq_of_compare := by
    rintro ⟨i, k⟩ ⟨j, l⟩ h
    change compareLex (compareOn AllocSite.id)
      (compareOn fun s => s.kind.rank) _ _ = .eq at h
    rw [compareLex_eq_eq] at h
    obtain ⟨hId, hKind⟩ := h
    have hI : i = j :=
      Std.LawfulEqCmp.eq_of_compare hId
    have hK : k = l :=
      AllocKind.rank_injective
        (Std.LawfulEqCmp.eq_of_compare hKind)
    rw [hI, hK]

end AllocSite

-- Call Paths

/- The way structure is copied across a call. -/
inductive Direction where
  /- From a callee into its caller. -/
  | bottomUp
  /- From a caller into its callee. -/
  | topDown
deriving DecidableEq, Repr, Inhabited

/- The name of a direction. -/
def Direction.name : Direction → String
| .bottomUp => "bottom_up"
| .topDown => "top_down"

/- One call crossed by an allocation site. -/
structure CallStep where
  direction : Direction
  function : FunctionId
deriving DecidableEq, Repr, Inhabited

/- The calls crossed by an allocation site, oldest first. -/
abbrev CallPath :=
  List CallStep

/- The written form of a step. -/
def CallStep.render
    (s : CallStep) : String :=
  match s.direction with
  | .bottomUp => "U" ++ toString s.function
  | .topDown => "D" ++ toString s.function

end HeapShape
