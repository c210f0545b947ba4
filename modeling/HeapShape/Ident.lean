/-
  Identifiers of program entities.

  Each entity of a program is named by a 32-bit word.

  Key definitions include:
    * `ValueId`
    * `FunctionId`
    * `GlobalId`
    * `CallSiteId`
    * `AllocSiteId`
-/

namespace HeapShape

/- A pointer value of a function. -/
abbrev ValueId :=
  Nat

/- A function. -/
abbrev FunctionId :=
  Nat

/- A global variable. -/
abbrev GlobalId :=
  Nat

/- A call site. -/
abbrev CallSiteId :=
  Nat

/- An allocation site. -/
abbrev AllocSiteId :=
  Nat

end HeapShape
