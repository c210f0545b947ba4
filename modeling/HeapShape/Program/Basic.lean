import HeapShape.AllocSite

/-
  Programs.

  A program is a small view of a compiled unit: functions with the
  operations that matter for memory, global variables, and call sites.

  Where identifiers repeat, `function?`, `callSite?` and `global?` take the
  first entity with an identifier.

  Key definitions include:
    * `Operation`
    * `FunctionDef`
    * `CallTarget`
    * `CallSite`
    * `Program`
    * `Program.sortedCallSites`
-/

-- Functions

namespace HeapShape

/- A formal parameter. -/
structure Formal where
  value : ValueId
  isPointer : Bool
deriving DecidableEq, Repr, Inhabited

/- An operation of a function body that touches memory. -/
inductive Operation where
  /- `dst` is fresh memory of `size` bytes. -/
  | alloc
      (dst : ValueId)
      (site : AllocSiteId)
      (kind : AllocKind)
      (size : Nat)
      (type? : Option String)
  /- `dst` is `src`. -/
  | copy (dst src : ValueId)
  /- `dst` points `offset` bytes past `base`. -/
  | fieldAddr (dst base : ValueId) (offset : Nat)
  /- `dst` points at an element of the array at `base`. -/
  | indexAddr (dst base : ValueId) (stride : Nat)
  /- `dst` is the pointer stored at `addr`. -/
  | load (dst addr : ValueId) (type? : Option String)
  /- A value, perhaps a pointer, is stored at `addr`. -/
  | store
      (addr : ValueId)
      (value? : Option ValueId)
      (type? : Option String)
  /- `dst` is the address of a global. -/
  | globalAddr (dst : ValueId) (global : GlobalId)
  /- The function gives back `value`. -/
  | ret (value : ValueId)
  /- `dst` is an integer read as a pointer. -/
  | intToPtr (dst : ValueId)
  /- `src` is read as an integer. -/
  | ptrToInt (src : ValueId)
deriving DecidableEq, Repr, Inhabited

/- A function, defined or only declared. -/
structure FunctionDef where
  id : FunctionId
  name : String
  formals : List Formal := []
  returnsPointer : Bool := false
  isDeclaration : Bool := false
  isVariadic : Bool := false
  body : List Operation := []
deriving DecidableEq, Repr, Inhabited

/- Whether the operations of a function are known. -/
def FunctionDef.hasBody
    (f : FunctionDef) : Bool :=
  !f.isDeclaration

/- The pointer formals of a function with what is passed. -/
def FunctionDef.pointerPairs
    {α : Type}
    (f : FunctionDef)
    (actuals : List (Option α)) : List (ValueId × α) :=
  (f.formals.zip actuals).filterMap fun (formal, actual) =>
    match actual with
    | some a =>
      if formal.isPointer then some (formal.value, a)
      else none
    | none => none

/- A global variable. -/
structure Global where
  id : GlobalId
  name : String
  size : Nat := 0
deriving DecidableEq, Repr, Inhabited

-- Call Sites

/- What a call site calls. -/
inductive CallTarget where
  /- A known function. -/
  | direct (callee : FunctionId)
  /- One of some functions, perhaps among others. -/
  | indirect (candidates : List FunctionId) (complete : Bool)
  /- Inline assembly. -/
  | inlineAsm
deriving DecidableEq, Repr, Inhabited

/- A call inside a function. -/
structure CallSite where
  id : CallSiteId
  caller : FunctionId
  target : CallTarget
  /- By position; none for an actual without a pointer. -/
  actuals : List (Option ValueId) := []
  result? : Option ValueId := none
deriving DecidableEq, Repr, Inhabited

namespace CallSite

/- The functions that may be called, as listed. -/
def callees
    (cs : CallSite) : List FunctionId :=
  match cs.target with
  | .direct callee => [callee]
  | .indirect candidates _ => candidates
  | .inlineAsm => []

/- Whether no other function can be called. -/
def isFullyResolved
    (cs : CallSite) : Bool :=
  match cs.target with
  | .direct _ => true
  | .indirect _ complete => complete
  | .inlineAsm => false

/- Whether a function can take the actuals of a call. -/
def fits
    (cs : CallSite)
    (f : FunctionDef) : Bool :=
  match cs.target with
  | .direct _ => true
  | _ =>
    if f.isVariadic then
      f.formals.length ≤ cs.actuals.length
    else cs.actuals.length == f.formals.length

end CallSite

-- Programs

/- A unit of analysis. -/
structure Program where
  name : String := ""
  functions : List FunctionDef := []
  globals : List Global := []
  callSites : List CallSite := []
deriving DecidableEq, Repr, Inhabited

namespace Program

/- The first function with an identifier. -/
def function?
    (p : Program)
    (id : FunctionId) : Option FunctionDef :=
  p.functions.find? fun f => f.id == id

/- The first function with a name. -/
def functionNamed?
    (p : Program)
    (name : String) : Option FunctionDef :=
  p.functions.find? fun f => f.name == name

/- The first call site with an identifier. -/
def callSite?
    (p : Program)
    (id : CallSiteId) : Option CallSite :=
  p.callSites.find? fun cs => cs.id == id

/- The first global with an identifier. -/
def global?
    (p : Program)
    (id : GlobalId) : Option Global :=
  p.globals.find? fun g => g.id == id

/- The last function with an identifier. -/
def lastFunction?
    (p : Program)
    (id : FunctionId) : Option FunctionDef :=
  p.functions.reverse.find? fun f => f.id == id

/- The name of a function, or a placeholder. -/
def functionName
    (p : Program)
    (id : FunctionId) : String :=
  match p.function? id with
  | some f => f.name
  | none => "<unknown>"

/- The name a call site is sorted by; blank if unknown. -/
def sortName
    (p : Program)
    (id? : Option FunctionId) : String :=
  match id?.bind p.lastFunction? with
  | some f => f.name
  | none => ""

/- What call sites are sorted by. -/
def sortKey
    (p : Program)
    (cs : CallSite) : String × String × CallSiteId :=
  (p.sortName (some cs.caller),
    p.sortName cs.callees.head?, cs.id)

/- Whether the first key comes before or with the second. -/
def sortKeyLe
    (a b : String × String × CallSiteId) : Bool :=
  let order :=
    (compare a.1 b.1).then <|
      (compare a.2.1 b.2.1).then (compare a.2.2 b.2.2)
  order.isLE

/-
  The call sites by caller name, first callee name and identifier. Passes
  visit them in this order.
-/
def sortedCallSites
    (p : Program) : List CallSite :=
  ((p.callSites.map fun cs => (p.sortKey cs, cs)).mergeSort
    fun a b => sortKeyLe a.1 b.1).map Prod.snd

end Program

end HeapShape
