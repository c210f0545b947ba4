import HeapShape.AnalysisError
import HeapShape.Graph.Bind
import HeapShape.Program.Basic

/-
  From function bodies to graphs.

  Every operation becomes a constraint on the graph of its function: a copy
  merges two cells, a load follows a link, a store adds one. The values of
  calls get cells too, so that they can be connected later.

  A field address that leaves the word range is an error of the program, not
  a fault.

  Key definitions include:
    * `Lowered`
    * `lowerOperation`
    * `lowerFunction`
-/

-- Operations

namespace HeapShape

/- A graph, or the error of the lowered program. -/
abbrev Lowered :=
  Checked (Except AnalysisError Graph)

/- Go on with a graph unless there was an error. -/
def Lowered.andThen
    (m : Lowered)
    (f : Graph → Lowered) : Lowered := do
  match ← m with
  | .ok g => f g
  | .error e => return .error e

/- The flag of memory of a kind. -/
def AllocKind.flag : AllocKind → Flag
| .stack => .stack
| .heap => .heap
| .global => .global
| .external => .external

/- Let a value denote a cell. -/
def bindScalar
    (g : Graph)
    (v : ValueId)
    (c : Cell) : Checked Graph := do
  let (_, g) ← g.scalarCell v (some c)
  return g

/- Note an access through a cell and its type. -/
def noteAccess
    (g : Graph)
    (c : Cell)
    (flag : Flag)
    (type? : Option TypeTag) : Checked Graph := do
  let g ← g.addFlags c.node (Flags.only flag)
  match type? with
  | some tag => g.addType c tag
  | none => return g

/- Fresh memory of some kind and size. -/
def lowerAlloc
    (g : Graph)
    (dst : ValueId)
    (site : AllocSite)
    (size : Nat)
    (type? : Option TypeTag) : Checked Graph := do
  let (node, g) :=
    g.createNode (Flags.only site.kind.flag) size
  let g ← g.addAllocSite node site
  let g ←
    match type? with
    | some tag => g.addType (Cell.start node) tag
    | none => pure g
  bindScalar g dst (Cell.start node)

/- The address of a field. -/
def lowerFieldAddr
    (function : String)
    (g : Graph)
    (dst base : ValueId)
    (offset : Nat) : Lowered := do
  let (c, g) ← g.valueCell base
  match c.shifted? offset with
  | none =>
    return .error
      (.offsetOverflow function c.offset offset)
  | some field => do
      let g ← g.growSize c.node field.offset
      let g ← bindScalar g dst field
      return .ok g

/- The address of an element. -/
def lowerIndexAddr
    (g : Graph)
    (dst base : ValueId)
    (stride : Nat) : Checked Graph := do
  let (c, g) ← g.valueCell base
  let g ← g.setArray c.node stride
  let (c, g) ← g.find c
  bindScalar g dst c

/- A pointer read from memory. -/
def lowerLoad
    (g : Graph)
    (dst addr : ValueId)
    (type? : Option TypeTag) : Checked Graph := do
  let (a, g) ← g.valueCell addr
  let g ← noteAccess g a .read type?
  let (target, g) ← g.makeLink a type?
  bindScalar g dst target

/- A value written to memory. -/
def lowerStore
    (g : Graph)
    (addr : ValueId)
    (value? : Option ValueId)
    (type? : Option TypeTag) : Checked Graph := do
  let (a, g) ← g.valueCell addr
  let g ← noteAccess g a .modified type?
  match value? with
  | none => return g
  | some value => do
      let (v, g) ← g.valueCell value
      let (a, g) ← g.find a
      g.addLink a type? v

/- The address of a global. -/
def lowerGlobalAddr
    (p : Program)
    (g : Graph)
    (dst : ValueId)
    (global : GlobalId) : Checked Graph := do
  let (c, g) ← g.globalCell global
  let g ← g.addFlags c.node (Flags.only .global)
  let g ←
    match p.global? global with
    | some decl => g.growSize c.node decl.size
    | none => pure g
  let (c, g) ← g.find c
  bindScalar g dst c

/- The value a function gives back. -/
def lowerRet
    (f : FunctionDef)
    (g : Graph)
    (value : ValueId) : Checked Graph :=
  if f.returnsPointer then do
    let (r, g) ← g.resultCell f.id
    let (v, g) ← g.valueCell value
    g.unify r v
  else .ok g

/- An integer read as a pointer. -/
def lowerIntToPtr
    (g : Graph)
    (dst : ValueId) : Checked Graph :=
  let flags := Flags.ofList [.intToPtr, .unknown]
  let (node, g) := g.createNode flags 0
  bindScalar g dst (Cell.start node)

/- The effect of one operation. -/
def lowerOperation
    (p : Program)
    (f : FunctionDef)
    (g : Graph) :
    Operation → Lowered
| .alloc dst site kind size type? => do
    return .ok (← lowerAlloc g dst
      { id := site, kind := kind } size type?)
| .copy dst src => do
    let (c, g) ← g.valueCell src
    return .ok (← bindScalar g dst c)
| .fieldAddr dst base offset =>
    lowerFieldAddr f.name g dst base offset
| .indexAddr dst base stride => do
    return .ok (← lowerIndexAddr g dst base stride)
| .load dst addr type? => do
    return .ok (← lowerLoad g dst addr type?)
| .store addr value? type? => do
    return .ok (← lowerStore g addr value? type?)
| .globalAddr dst global => do
    return .ok (← lowerGlobalAddr p g dst global)
| .ret value => do
    return .ok (← lowerRet f g value)
| .intToPtr dst => do
    return .ok (← lowerIntToPtr g dst)
| .ptrToInt src => do
    let (c, g) ← g.valueCell src
    return .ok (← g.addFlags c.node (Flags.only .ptrToInt))

-- Functions

/- Give every pointer formal and the result a cell. -/
def lowerSignature
    (f : FunctionDef)
    (g : Graph) : Checked Graph := do
  let pointers := f.formals.filter Formal.isPointer
  let g ← pointers.foldlM
    (fun g formal => do
      let (_, g) ← g.formalCell formal.value
      return g)
    g
  if f.returnsPointer then
    let (_, g) ← g.resultCell f.id
    return g
  else
    return g

/- The effects of a list of operations. -/
def lowerBody
    (p : Program)
    (f : FunctionDef)
    (g : Graph)
    (ops : List Operation) : Lowered :=
  ops.foldl
    (fun m op => Lowered.andThen m fun g =>
      lowerOperation p f g op)
    (.ok (.ok g))

/- The pointer values of a call, the result last. -/
def CallSite.values
    (cs : CallSite) : List ValueId :=
  cs.actuals.filterMap (fun a => a) ++ cs.result?.toList

/- Give every value of the calls of a function a cell. -/
def lowerCalls
    (p : Program)
    (f : FunctionDef)
    (g : Graph) : Checked Graph :=
  let sites := p.callSites.filter fun cs => cs.caller == f.id
  (sites.map CallSite.values).flatten.foldlM
    (fun g v => do
      let (_, g) ← g.valueCell v
      return g)
    g

/- Add the graph of a function to a graph. -/
def lowerFunction
    (p : Program)
    (f : FunctionDef)
    (g : Graph) : Lowered := do
  let g ← lowerSignature f (g.addFunction f.id)
  Lowered.andThen (lowerBody p f g f.body) fun g => do
    return .ok (← lowerCalls p f g)

/- Add the graphs of some functions to a graph. -/
def lowerFunctions
    (p : Program)
    (fs : List FunctionDef)
    (g : Graph) : Lowered :=
  fs.foldl
    (fun m f => Lowered.andThen m (lowerFunction p f))
    (.ok (.ok g))

end HeapShape
