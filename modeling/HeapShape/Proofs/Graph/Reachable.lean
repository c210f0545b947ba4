import HeapShape.Proofs.Graph.Collect
import HeapShape.Proofs.Graph.Copy

/-
  The graphs that can be built.

  A graph is built from an empty one by the operations of graphs and by
  copying from other graphs so built. Every operation keeps graphs
  well-formed, so all graphs that can be built are.

  Main declarations:
    * `Merging`
    * `Reachable`
    * `Copying`
    * `wellFormed_of_reachable`
-/

-- Operations

namespace HeapShape

open Checked

/- The operations that may merge nodes. -/
inductive Merging where
  | unify (a b : Cell)
  | collapse (node : NodeId)
  | setArray (node : NodeId) (stride : Nat)
  | addLink (c : Cell) (type? : Option TypeTag) (t : Cell)
  | makeLink (c : Cell) (type? : Option TypeTag)
  | bindRoot (r : Root) (init? : Option Cell)

namespace Merging

/- The graph after a merging operation. -/
def run
    (g : Graph) :
    Merging → Checked Graph
| unify a b => g.unify a b
| collapse node => do
    let (_, g) ← g.collapse node
    return g
| setArray node stride => g.setArray node stride
| addLink c type? t => g.addLink c type? t
| makeLink c type? => do
    let (_, g) ← g.makeLink c type?
    return g
| bindRoot r init? => do
    let (_, g) ← g.bindRoot r init?
    return g

/- Strides are words. -/
def Admissible : Merging → Prop
| setArray _ stride => stride < wordBound
| _ => True

instance :
    (op : Merging) → Decidable op.Admissible
| setArray _ stride =>
    inferInstanceAs (Decidable (stride < wordBound))
| unify _ _ => .isTrue trivial
| collapse _ => .isTrue trivial
| addLink _ _ _ => .isTrue trivial
| makeLink _ _ => .isTrue trivial
| bindRoot _ _ => .isTrue trivial

/- Only the making of an array folds fields anew. -/
def KeepsFields : Merging → Prop
| setArray _ _ => False
| _ => True

theorem KeepsFields.admissible
    {op : Merging}
    (hOp : op.KeepsFields) :
    op.Admissible := by
  cases op with
  | setArray node stride => exact hOp.elim
  | _ => trivial

end Merging

/- The operations that change a graph. -/
inductive Update where
  | merge (op : Merging)
  | createNode (flags : Flags) (size : Nat)
  | find (c : Cell)
  | valueCell (v : ValueId)
  | addType (c : Cell) (tag : TypeTag)
  | addFlags (node : NodeId) (flags : Flags)
  | growSize (node : NodeId) (size : Nat)
  | addAllocSite (node : NodeId) (site : AllocSite)
  | clearUniqueScalar (node : NodeId)
  | addFunction (f : FunctionId)
  | recordCallSite (cs : CallSiteId) (cells : CallSiteCells)
  | clearCallSites
  | compress
  | removeDead
  | pruneForeign

namespace Update

/- The graph after an operation. -/
def run
    (g : Graph) :
    Update → Checked Graph
| merge op => op.run g
| createNode flags size => .ok (g.createNode flags size).2
| find c => do
    let (_, g) ← g.find c
    return g
| valueCell v => do
    let (_, g) ← g.valueCell v
    return g
| addType c tag => g.addType c tag
| addFlags node flags => g.addFlags node flags
| growSize node size => g.growSize node size
| addAllocSite node site => g.addAllocSite node site
| clearUniqueScalar node => g.clearUniqueScalar node
| addFunction f => .ok (g.addFunction f)
| recordCallSite cs cells => .ok (g.recordCallSite cs cells)
| clearCallSites => .ok g.clearCallSites
| compress => g.compress
| removeDead => do
    let (_, g) ← g.removeDead
    return g
| pruneForeign => do
    let (_, g) ← g.pruneForeign
    return g

/-
  Sizes and strides are words, and a node is not created as an array or
  collapsed.
-/
def Admissible : Update → Prop
| merge op => op.Admissible
| createNode flags size =>
    flags.has .array = false ∧
      flags.has .offsetCollapsed = false ∧
      size < wordBound
| growSize _ size => size < wordBound
| _ => True

instance :
    (op : Update) → Decidable op.Admissible
| merge op => inferInstanceAs (Decidable op.Admissible)
| createNode flags size =>
    inferInstanceAs
      (Decidable (flags.has .array = false ∧
        flags.has .offsetCollapsed = false ∧
        size < wordBound))
| growSize _ size =>
    inferInstanceAs (Decidable (size < wordBound))
| find _ => .isTrue trivial
| valueCell _ => .isTrue trivial
| addType _ _ => .isTrue trivial
| addFlags _ _ => .isTrue trivial
| addAllocSite _ _ => .isTrue trivial
| clearUniqueScalar _ => .isTrue trivial
| addFunction _ => .isTrue trivial
| recordCallSite _ _ => .isTrue trivial
| clearCallSites => .isTrue trivial
| compress => .isTrue trivial
| removeDead => .isTrue trivial
| pruneForeign => .isTrue trivial

/- Run operations one after the other. -/
def runAll
    (g : Graph)
    (ops : List Update) : Checked Graph :=
  ops.foldlM run g

end Update

-- Well-Formedness Is Kept

variable {g h : Graph}

/- An operation given with its result, without the result. -/
theorem exists_of_discard
    {α : Type}
    {x : Checked (α × Graph)}
    (hRun : (do
      let (_, g) ← x
      return g) = Except.ok h) :
    ∃ a, x = .ok (a, h) := by
  rcases of_bind hRun with ⟨⟨a, g⟩, hx, hRun⟩
  cases hRun
  exact ⟨a, hx⟩

/-
  Merging operations are sound: to fields and addresses if they keep fields,
  to nodes in any case.
-/
theorem Merging.sound
    {E : Prop}
    {op : Merging}
    (hOp : op.Admissible)
    (hFields : E → op.KeepsFields)
    (hg : g.WellFormed)
    (hRun : op.run g = .ok h) :
    Graph.Sound E g h fun last => Graph.LinksHold E g last := by
  cases op with
  | unify a b => exact (Graph.Sound.unify hg hRun).imp fun _ _ _ _ hAll => hAll.1
  | collapse node =>
    rcases exists_of_discard hRun with ⟨rep, hRun⟩
    exact Graph.Sound.collapse hg hRun
  | setArray node stride =>
    have hE : E = False := eq_false hFields
    subst hE
    exact Graph.Sound.setArray hg hOp hRun
  | addLink c type? t => exact (Graph.Sound.addLink hg hRun).imp fun _ _ _ _ hAll => hAll.1
  | makeLink c type? =>
    rcases exists_of_discard hRun with ⟨t, hRun⟩
    exact Graph.Sound.makeLink hg hRun
  | bindRoot r init? =>
    rcases exists_of_discard hRun with ⟨c, hRun⟩
    exact Graph.Sound.bindRoot hg hRun

/- A node that may be created is well-formed. -/
theorem Update.Admissible.freshNode
    {flags : Flags}
    {size : Nat}
    (hOp : (Update.createNode flags size).Admissible)
    (config : GraphConfig) :
    (Graph.freshNode flags size).WellFormed config := by
  rcases hOp with ⟨hArray, hCollapsed, hSize⟩
  refine Node.wellFormed_of_bare hSize (fun _ => hArray) ?_ ?_ rfl rfl
  · intro h
    exact absurd (hCollapsed.symm.trans h) Bool.noConfusion
  · intro h
    exact absurd (hArray.symm.trans h) Bool.noConfusion

/- Every operation keeps graphs well-formed. -/
theorem Update.wellFormed
    {op : Update}
    (hOp : op.Admissible)
    (hg : g.WellFormed)
    (hRun : op.run g = .ok h) :
    h.WellFormed := by
  cases op with
  | merge op => exact (op.sound hOp False.elim hg hRun).wellFormed
  | createNode flags size =>
    cases hRun
    exact hg.createNode (hOp.freshNode g.config)
  | find c =>
    rcases exists_of_discard hRun with ⟨d, hRun⟩
    exact (Graph.Sound.find (E := False) hg hRun).1.wellFormed
  | valueCell v =>
    rcases exists_of_discard hRun with ⟨c, hRun⟩
    exact (Graph.Sound.valueCell (E := False) hg hRun).wellFormed
  | addType c tag =>
    change g.addTypes c (OrdSet.singleton tag) = .ok h at hRun
    exact (Graph.Sound.addTypes (E := False) hg hRun).wellFormed
  | addFlags node flags => exact (Graph.Sound.addFlags (E := False) hg hRun).wellFormed
  | growSize node size => exact (Graph.Sound.growSize (E := False) hg hOp hRun).wellFormed
  | addAllocSite node site => exact (Graph.Sound.addAllocSite (E := False) hg hRun).wellFormed
  | clearUniqueScalar node => exact (Graph.Sound.clearUniqueScalar (E := False) hg hRun).wellFormed
  | addFunction f =>
    cases hRun
    exact hg.congr rfl rfl rfl rfl
  | recordCallSite cs cells =>
    cases hRun
    exact hg.congr rfl rfl rfl rfl
  | clearCallSites =>
    cases hRun
    exact hg.congr rfl rfl rfl rfl
  | compress => exact (hg.compress hRun).1
  | removeDead =>
    rcases exists_of_discard hRun with ⟨count, hRun⟩
    exact hg.removeDead hRun
  | pruneForeign =>
    rcases exists_of_discard hRun with ⟨count, hRun⟩
    exact hg.pruneForeign hRun

variable {ops : List Update} {P : Graph → Graph → Prop}

/- So do operations one after the other. -/
theorem Update.wellFormed_runAll
    (hg : g.WellFormed)
    (hOps : ∀ op ∈ ops, op.Admissible)
    (hRun : Update.runAll g ops = .ok h) :
    h.WellFormed := by
  refine foldlM_induction (P := Graph.WellFormed) ?_ hg hRun
  intro a op hMem b ha hStep
  exact op.wellFormed (hOps op hMem) ha hStep

/-
  A run on an empty graph, a merging operation after it, and what can be
  evaluated of both graphs.
-/
theorem Update.exists_run
    (config : GraphConfig)
    (ops : List Update)
    (op : Merging)
    [∀ g h, Decidable (P g h)]
    (hOps : ∀ o, o ∈ ops → o.Admissible)
    (hRun : (do
      let g ← runAll { config := config } ops
      let h ← op.run g
      return decide (P g h)) = Except.ok true) :
    ∃ g h, runAll { config := config } ops = .ok g ∧ g.WellFormed ∧ op.run g = .ok h ∧ P g h := by
  rcases of_bind hRun with ⟨g, hBuild, hRun⟩
  rcases of_bind hRun with ⟨h, hMerge, hRun⟩
  rw [pure_eq_ok_iff, decide_eq_true_eq] at hRun
  have hg : g.WellFormed := wellFormed_runAll (Graph.wellFormed_empty config) hOps hBuild
  exact ⟨g, h, hBuild, hg, hMerge, hRun⟩

/- Two runs on empty graphs, and what can be evaluated. -/
theorem Update.exists_runs
    (config : GraphConfig)
    (ops ops' : List Update)
    [∀ g h, Decidable (P g h)]
    (hOps : ∀ o, o ∈ ops ++ ops' → o.Admissible)
    (hRun : (do
      let g ← runAll { config := config } ops
      let h ← runAll { config := config } ops'
      return decide (P g h)) = Except.ok true) :
    ∃ g h, runAll { config := config } ops = .ok g ∧ runAll { config := config } ops' = .ok h ∧
      g.WellFormed ∧ h.WellFormed ∧ P g h := by
  rcases of_bind hRun with ⟨g, hBuild, hRun⟩
  rcases of_bind hRun with ⟨h, hBuild', hRun⟩
  rw [pure_eq_ok_iff, decide_eq_true_eq] at hRun
  have hEmpty := Graph.wellFormed_empty config
  have hg : g.WellFormed :=
    wellFormed_runAll hEmpty (fun o ho => hOps o (List.mem_append_left _ ho)) hBuild
  have hh : h.WellFormed :=
    wellFormed_runAll hEmpty (fun o ho => hOps o (List.mem_append_right _ ho)) hBuild'
  exact ⟨g, h, hBuild, hBuild', hg, hh, hRun⟩

-- Graphs That Can Be Built

mutual

/- The graphs that can be built. -/
inductive Reachable : Graph → Prop
| empty
    (config : GraphConfig) :
    Reachable { config := config }
| change
    {g h : Graph} (hg : Reachable g)
    (hChange : Changes g h) :
    Reachable h
| copied
    {k : Copier}
    (hk : Copying k) :
    Reachable k.dest

/- One change of a graph. -/
inductive Changes : Graph → Graph → Prop
| operation
    {g h : Graph} (op : Update) (hOp : op.Admissible)
    (hRun : op.run g = .ok h) :
    Changes g h
| importFrom
    {g h other : Graph} (hOther : Reachable other) (withFormals : Bool)
    (hRun : g.importFrom other withFormals = .ok h) :
    Changes g h

/-
  The copiers that can be at work. Between copies the destination can be
  changed.
-/
inductive Copying : Copier → Prop
| start
    {source dest : Graph} (hSource : Reachable source) (hDest : Reachable dest)
    (options : CopyOptions) :
    Copying
      { source := source, dest := dest, options := options }
| copyCell
    {k k' : Copier} (hk : Copying k) {c d : Cell} {force : Bool}
    (hRun : k.copyCell c force = .ok (d, k')) :
    Copying k'
| copyNode
    {k k' : Copier} (hk : Copying k) {node : NodeId} {d : Cell} {force : Bool}
    (hRun : k.copyNode node force = .ok (d, k')) :
    Copying k'
| change
    {k : Copier} {h : Graph} (hk : Copying k)
    (hChange : Changes k.dest h) :
    Copying { k with dest := h }

end

/- Operations one after the other build a graph. -/
theorem Reachable.runAll
    (hg : Reachable g)
    (hOps : ∀ op ∈ ops, op.Admissible)
    (hRun : Update.runAll g ops = .ok h) :
    Reachable h := by
  refine foldlM_induction (P := Reachable) ?_ hg hRun
  intro a op hMem b ha hStep
  exact ha.change (.operation op (hOps op hMem) hStep)

/-
  The representation invariant: every graph that can be built is
  well-formed, also while structure is copied into it.
-/
theorem wellFormed_of_reachable
    {g : Graph}
    (hg : Reachable g) :
    g.WellFormed := by
  refine @Reachable.rec
    (fun g _ => g.WellFormed)
    (fun g h _ => g.WellFormed → h.WellFormed)
    (fun k _ => k.WellFormed)
    ?_ ?_ ?_ ?_ ?_ ?_ ?_ ?_ ?_ g hg
  · exact Graph.wellFormed_empty
  · intro g h _ _ hg hChange
    exact hChange hg
  · intro k _ hk
    exact hk.dest
  · intro g h op hOp hRun hg
    exact op.wellFormed hOp hg hRun
  · intro g h other _ withFormals hRun hOther hg
    exact hg.importFrom hOther hRun
  · intro source dest _ _ options hSource hDest
    exact ⟨hSource, hDest⟩
  · intro k k' _ c d force hRun hk
    exact hk.copyCell hRun
  · intro k k' _ node d force hRun hk
    exact hk.copyNode hRun
  · intro k h _ _ hk hChange
    exact hk.setDest (hChange hk.dest)

/-
  Three nodes in a ring. One becomes an array, two are laid over each other
  off their starts, and the array collapses.
-/
def ringOverlay : List Update :=
  [.createNode Flags.empty 24, .createNode Flags.empty 16,
    .createNode (Flags.only .heap) 0,
    .merge (.addLink ⟨0, 8⟩ none ⟨1, 0⟩),
    .merge (.addLink ⟨1, 8⟩ none ⟨2, 4⟩),
    .merge (.setArray 1 16),
    .merge (.bindRoot (.scalar 7) (some ⟨0, 4⟩)),
    .merge (.unify ⟨0, 16⟩ ⟨2, 0⟩),
    .merge (.makeLink ⟨2, 8⟩ none),
    .merge (.collapse 1), .compress]

/- The copy of the ring as foreign nodes, pruned. -/
theorem wellFormed_of_ringOverlay_copy :
    ∃ g d k h,
      Update.runAll {} ringOverlay = .ok g ∧
      g.liveCount = 3 ∧
      ({ source := g
         dest := {}
         options := { markForeign := true } } :
        Copier).copyCell (Cell.start 0) true = .ok (d, k) ∧
      Update.runAll k.dest
        [.merge (.bindRoot (.formal 3) (some ⟨0, 8⟩)),
          .pruneForeign] = .ok h ∧
      h.liveCount = 1 ∧ h.WellFormed := by
  have hRun : (do
      let g ← Update.runAll {} ringOverlay
      let copied ← ({ source := g
                      dest := {}
                      options := { markForeign := true } } :
        Copier).copyCell (Cell.start 0) true
      let h ← Update.runAll copied.2.dest
        [.merge (.bindRoot (.formal 3) (some ⟨0, 8⟩)),
          .pruneForeign]
      return (g.liveCount, h.liveCount)) =
        Except.ok (3, 1) := by
    decide +kernel
  rw [Checked.bind_eq_ok_iff] at hRun
  rcases hRun with ⟨g, hBuild, hRun⟩
  rw [Checked.bind_eq_ok_iff] at hRun
  rcases hRun with ⟨⟨d, k⟩, hCopy, hRun⟩
  rw [Checked.bind_eq_ok_iff] at hRun
  rcases hRun with ⟨h, hPrune, hRun⟩
  rw [Checked.pure_eq_ok_iff, Prod.mk.injEq] at hRun
  refine ⟨g, d, k, h, hBuild, hRun.1, hCopy, hPrune,
    hRun.2, ?_⟩
  have hSource : Reachable g :=
    (Reachable.empty {}).runAll (by decide) hBuild
  have hCopied : Reachable k.dest :=
    .copied (.copyCell (.start hSource (.empty {}) _) hCopy)
  exact wellFormed_of_reachable
    (hCopied.runAll (by decide) hPrune)

end HeapShape
