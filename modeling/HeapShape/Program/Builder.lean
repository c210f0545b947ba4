import HeapShape.Program.Basic

/-
  Building programs.

  A builder hands out the numbers of values and sites, and adds functions,
  operations and calls. An operation of an unknown function is dropped, but
  its numbers are used up.

  Key definitions include:
    * `Builder`
    * `Builder.addFunction`
    * `Builder.addOperation`
    * `Builder.addCall`
-/

-- Builders

namespace HeapShape

/- A program under construction. -/
structure Builder where
  program : Program := {}
  nextValue : ValueId := 0
  nextSite : AllocSiteId := 0
deriving DecidableEq, Repr, Inhabited

namespace Builder

/- A program without contents. -/
def start
    (name : String) : Builder where
  program := { name := name }

/- A fresh value. -/
def freshValue
    (b : Builder) : ValueId × Builder :=
  (b.nextValue, { b with nextValue := b.nextValue + 1 })

/- A fresh value for each item of a list. -/
def freshValues
    {α : Type} :
    List α → Builder → List ValueId × Builder
| [], b => ([], b)
| _ :: rest, b =>
    let (v, b) := b.freshValue
    let (vs, b) := freshValues rest b
    (v :: vs, b)

/- A fresh allocation site. -/
def freshSite
    (b : Builder) : AllocSiteId × Builder :=
  (b.nextSite, { b with nextSite := b.nextSite + 1 })

/- Add a global. -/
def addGlobal
    (b : Builder)
    (name : String)
    (size : Nat) : GlobalId × Builder :=
  let id := b.program.globals.length
  let global : Global :=
    { id := id, name := name, size := size }
  (id, { b with
    program := { b.program with
      globals := b.program.globals ++ [global] } })

/-
  Add a function with a fresh value for every formal. The list says which
  formals are pointers.
-/
def addFunction
    (b : Builder)
    (name : String)
    (formals : List Bool)
    (returnsPointer isDeclaration : Bool) :
    FunctionId × List ValueId × Builder :=
  let id := b.program.functions.length
  let (values, b) := freshValues formals b
  let f : FunctionDef :=
    { id := id
      name := name
      formals := (values.zip formals).map fun (v, p) =>
        { value := v, isPointer := p }
      returnsPointer := returnsPointer
      isDeclaration := isDeclaration }
  (id, values, { b with
    program := { b.program with
      functions := b.program.functions ++ [f] } })

/- Change the first item of a list that passes a test. -/
def modifyFirst
    {α : Type}
    (test : α → Bool)
    (change : α → α) :
    List α → List α
| [] => []
| a :: rest =>
    if test a then change a :: rest
    else a :: modifyFirst test change rest

/- Change a function, if it exists. -/
def modifyFunction
    (b : Builder)
    (f : FunctionId)
    (change : FunctionDef → FunctionDef) : Builder :=
  { b with
    program := { b.program with
      functions :=
        modifyFirst (fun d => d.id == f) change
          b.program.functions } }

/- Let a function take more actuals than formals. -/
def setVariadic
    (b : Builder)
    (f : FunctionId) : Builder :=
  b.modifyFunction f fun d => { d with isVariadic := true }

/- Add an operation to the body of a function. -/
def addOperation
    (b : Builder)
    (f : FunctionId)
    (op : Operation) : Builder :=
  b.modifyFunction f fun d =>
    { d with body := d.body ++ [op] }

/- Add an operation with a fresh destination. -/
def addDefinition
    (b : Builder)
    (f : FunctionId)
    (op : ValueId → Operation) : ValueId × Builder :=
  let (dst, b) := b.freshValue
  (dst, b.addOperation f (op dst))

/- Add an allocation at a fresh site. -/
def addAlloc
    (b : Builder)
    (f : FunctionId)
    (kind : AllocKind)
    (size : Nat) : ValueId × Builder :=
  let (dst, b) := b.freshValue
  let (site, b) := b.freshSite
  (dst, b.addOperation f (.alloc dst site kind size none))

/- Add a call. -/
def addCall
    (b : Builder)
    (caller : FunctionId)
    (target : CallTarget)
    (actuals : List (Option ValueId))
    (result? : Option ValueId) : CallSiteId × Builder :=
  let id := b.program.callSites.length
  let cs : CallSite :=
    { id := id
      caller := caller
      target := target
      actuals := actuals
      result? := result? }
  (id, { b with
    program := { b.program with
      callSites := b.program.callSites ++ [cs] } })

/- Add a direct call with a fresh result. -/
def addCallWithResult
    (b : Builder)
    (caller callee : FunctionId)
    (actuals : List (Option ValueId)) :
    CallSiteId × ValueId × Builder :=
  let (result, b) := b.freshValue
  let (cs, b) :=
    b.addCall caller (.direct callee) actuals (some result)
  (cs, result, b)

end Builder

end HeapShape
