import HeapShape.Proofs.Analysis.Progress
import Mathlib.Control.Traversable.Instances
import Mathlib.Data.List.Permutation

/-
  No run touches a freed node.

  Compression, pruning and the removal of dead nodes free slots, and later
  steps look up what earlier steps noted. Every step that a run is made of
  finds the nodes it looks for, in whatever order the steps are taken.

  Main declarations:
    * `GraphMove`
    * `Move`
    * `Graph.KeepsCalls`
    * `runs_touch_no_freed_node`
-/

-- Moves

namespace HeapShape

open Checked

/- A change of one graph. -/
inductive GraphMove where
  | resolveInPlace (cs : CallSite) (callee : FunctionDef)
  | markExternal (cs : CallSite)
  | compress
  | pruneForeign
  | removeDead

def GraphMove.apply
    (g : Graph) :
    GraphMove → Checked Graph
| .resolveInPlace cs callee =>
    HeapShape.resolveInPlace g cs callee
| .markExternal cs => HeapShape.markExternal g cs
| .compress => g.compress
| .pruneForeign => do return (← g.pruneForeign).2
| .removeDead => do return (← g.removeDead).2

/- A step of a pass. -/
inductive Move where
  /- One new graph for some functions of the program. -/
  | lower (ids : List FunctionId)
  | up (cs : CallSite) (callee : FunctionDef)
  | down (cs : CallSite) (callee : FunctionDef)
  | reconcileScalars (cs : CallSite) (callee : FunctionDef)
  | reconcileSites (cs : CallSite) (callee : FunctionDef)
  | change (f : FunctionId) (move : GraphMove)

def Move.apply
    (p : Program)
    (config : Config)
    (s : Store) :
    Move → Checked Store
| .lower ids => do
    let defs := p.functions.filter fun f => ids.contains f.id
    let empty : Graph := { config := config.graph }
    match ← lowerFunctions p defs empty with
    | .error _ => return s
    | .ok g => return (s.insert (defs.map FunctionDef.id) g).2
| .up cs callee => do
    return (← bottomUpStep config s cs callee).getD s
| .down cs callee => do
    let t? ← topDownStep config s cs callee
    return (t?.map Prod.snd).getD s
| .reconcileScalars cs callee => do
    return (← HeapShape.reconcileScalars s cs callee).store
| .reconcileSites cs callee => do
    let r ←
      HeapShape.reconcileSites config.cloning s cs callee
    return r.store
| .change f move =>
    match s.graph? f with
    | none => .ok s
    | some g => do return s.setGraph f (← move.apply g)

-- Moves End Well

open Graph

variable {P : OrdSet FunctionId → AllocSite → Prop} {p : Program} {config : Config} {g h : Graph}
variable {s : Store}

theorem Graph.InOrder.yields_move
    (hg : g.InOrder P)
    (move : GraphMove) :
    Yields (move.apply g) (InOrder P) := by
  cases move with
  | resolveInPlace cs callee =>
    exact (Evolves.resolveInPlace _ (fun _ => False) hg.wellFormed cs callee).imp fun _ hNext =>
        hg.step hNext
  | markExternal cs =>
    exact (Evolves.markExternal _ (fun _ => False)
      hg.wellFormed cs).imp fun _ hNext => hg.step hNext
  | compress => exact hg.yields_compress
  | pruneForeign => exact hg.yields_pruneForeign.bind fun _ hh => .ok hh
  | removeDead => exact hg.yields_removeDead.bind fun _ hh => .ok hh

theorem Store.InOrder.yields_move
    (hs : s.InOrder P)
    (hP : Strays P p config.cloning)
    (hWords : p.InWords)
    (move : Move) :
    Yields (move.apply p config s) (InOrder P) := by
  cases move with
  | lower ids =>
    dsimp only [Move.apply]
    refine (gives_lowerFunctions_kept hP hWords config.graph
      (fun f hf => List.mem_of_mem_filter hf)).bind ?_
    intro r hLowered
    cases r with
    | error e => exact .ok hs
    | ok g => exact .ok (hs.insert ((hLowered g rfl).foldl_addFunction _))
  | up cs callee =>
    refine (hs.yields_bottomUpStep hP cs callee).bind ?_
    intro t? hNext
    cases t? with
    | none => exact .ok hs
    | some t => exact .ok (hNext t rfl)
  | down cs callee =>
    refine (hs.yields_topDownStep hP cs callee).bind ?_
    intro t? hNext
    cases t? with
    | none => exact .ok hs
    | some r => exact .ok (hNext r rfl)
  | reconcileScalars cs callee =>
    exact (hs.yields_reconcileScalars cs callee).bind fun _ hr => .ok hr
  | reconcileSites cs callee =>
    exact (hs.yields_reconcileSites hP cs callee).bind fun _ hr => .ok hr
  | change f move =>
    dsimp only [Move.apply]
    split
    · exact .ok hs
    · next g hGraph =>
      exact ((hs.graph hGraph).yields_move move).bind fun _ hh => .ok (hs.setGraph hh f)

/- One move after the other, from nothing. -/
theorem yields_moves
    (hP : Strays P p config.cloning)
    (hWords : p.InWords)
    (moves : List Move) :
    Yields (moves.foldlM (Move.apply p config) {}) (Store.InOrder P) := by
  refine yields_foldlM Store.InOrder.empty ?_
  intro s move _ hs
  exact hs.yields_move hP hWords move

-- Safety

namespace Graph

variable {P : AllocSite → Prop}

/- The cells of recorded calls name occupied slots. -/
def CallsOccupied
    (g : Graph) : Prop :=
  ∀ cs cells, g.callSites.get? cs = some cells →
    ∀ c ∈ cells.cells, g.hasNode c.node = true

/-
  Recorded calls stay recorded, at the nodes where they were, and these are
  not freed.
-/
def KeepsCalls
    (g h : Graph) : Prop :=
  ∀ cs cells, g.callSites.get? cs = some cells →
    ∃ cells', g.resolveCallSite cells = .ok cells' ∧
      h.callSites.get? cs = some cells' ∧
      ∀ c ∈ cells'.cells, h.hasNode c.node = true

theorem Kept.callsOccupied
    (hg : g.Kept P) :
    g.CallsOccupied :=
  fun cs cells hCells c hc =>
    (hg.anchored cs cells hCells c hc).has.occupied

theorem Kept.keepsCalls
    (hh : h.Kept P)
    (hgh : Collected g h) :
    g.KeepsCalls h := by
  intro cs cells hCells
  have hNow := hgh.callSites cs
  rw [hCells] at hNow
  rcases option_mapM_some_eq_ok hNow with ⟨cells', hResolve, hKept⟩
  exact ⟨cells', hResolve, hKept, hh.callsOccupied cs cells' hKept⟩

end Graph

/-
  A run of any kind ends by overflow, with an error of its own, or with
  results; it never looks up a freed slot or merges a node that was merged
  away. The same is true of steps taken one by one, whatever steps were
  taken before, and no later step frees the node of a recorded call.
-/
theorem runs_touch_no_freed_node
    (p : Program)
    (hWords : p.InWords) :
    (∀ a : Analysis, Checked.Yields (a.run p) fun r =>
      ∀ g ∈ r.2.store.graphs,
        g.WellFormed ∧ g.CallsOccupied) ∧
    ∀ (config : Config) (moves : List Move),
      Checked.Yields (moves.foldlM (Move.apply p config) {})
        fun s => ∀ g ∈ s.graphs,
          g.WellFormed ∧ g.CallsOccupied ∧
          Checked.Yields g.compress g.KeepsCalls ∧
          Checked.Yields g.pruneForeign
            (fun r => g.KeepsCalls r.2) ∧
          Checked.Yields g.removeDead
            (fun r => g.KeepsCalls r.2) := by
  have hNone : ∀ policy,
      Strays (fun _ _ => False) p policy :=
    fun _ => ⟨fun _ _ hNot => hNot.elim,
      fun _ _ hNot => hNot.elim, fun _ _ hNot => hNot.elim,
      fun _ _ _ _ _ _ _ _ hNot => hNot⟩
  constructor
  · intro a
    refine (Analysis.yields_run (hNone _) hWords).imp ?_
    intro r hr g hg
    have hKept := hr.store g hg
    exact ⟨hKept.wellFormed, Graph.Kept.callsOccupied hKept⟩
  · intro config moves
    refine (yields_moves (hNone _) hWords moves).imp ?_
    intro s hs g hg
    have hKept := hs g hg
    exact ⟨hKept.wellFormed, Graph.Kept.callsOccupied hKept,
      (Graph.Kept.yields_compress hKept).imp fun h hh =>
        hh.2.keepsCalls hh.1.toCollected,
      (Graph.Kept.yields_pruneForeign hKept).imp fun r hr =>
        hr.2.keepsCalls hr.1,
      (Graph.Kept.yields_removeDead hKept).imp fun r hr =>
        hr.2.keepsCalls hr.1⟩

/- A function that stores one formal through the other. -/
def lentDef : FunctionDef where
  id := 0
  name := "fill"
  formals := [⟨0, true⟩, ⟨1, true⟩]
  body := [.store 0 (some 1) none]

def lentCall : CallSite where
  id := 0
  caller := 1
  target := .direct 0
  actuals := [some 2, some 3]

/- A caller that lends the function an object of its own stack. -/
def lendsStack : Program where
  functions := [lentDef,
    { id := 1, name := "main", body := [.alloc 2 0 .stack 8 none, .alloc 3 1 .heap 16 none] }]
  callSites := [lentCall]

/-
  A run on it succeeds. So does a step up at the call, which is recorded then
  at the nodes of both objects, and pruning does not free them.
-/
theorem runs_touch_no_freed_node_of_lendsStack :
    lendsStack.InWords ∧
    (∃ stats a g, (Analysis.new {}).run lendsStack =
        .ok (.ok stats, a) ∧
      a.graph? 1 = some g ∧ g.liveNodes.length = 2 ∧
      g.WellFormed) ∧
    ∃ s g cells,
      [.lower [0], .lower [1], .up lentCall lentDef].foldlM
        (Move.apply lendsStack {}) {} = .ok s ∧
      s.graph? 1 = some g ∧ g.callSites.get? 0 = some cells ∧
      cells.cells = [⟨0, 0⟩, ⟨1, 0⟩] ∧ g.CallsOccupied ∧
      Checked.Yields g.pruneForeign
        (fun r => g.KeepsCalls r.2) := by
  have hRun : (do
      let ran ← (Analysis.new {}).run lendsStack
      let s ← [.lower [0], .lower [1], .up lentCall lentDef].foldlM (Move.apply lendsStack {}) {}
      return (ran.1.isOk, (ran.2.graph? 1).map (·.liveNodes.length),
        (s.graph? 1).map fun g => (g.callSites.get? 0).map (·.cells))) =
      Except.ok (true, some 2, some (some [⟨0, 0⟩, ⟨1, 0⟩])) := by
    cbv
  rcases of_bind hRun with ⟨⟨r, a⟩, hFirst, hRun⟩
  rcases of_bind hRun with ⟨s, hSecond, hRun⟩
  simp only [pure_eq_ok_iff, Prod.mk.injEq, Option.map_eq_some_iff] at hRun
  rcases hRun with ⟨hOk, ⟨g, hGraph, hCount⟩, h, hGraph', cells, hCells, hPlaces⟩
  rcases runs_touch_no_freed_node lendsStack (by decide) with ⟨hRuns, hMoves⟩
  have hFirst' := Yields.of_eq_ok (hRuns _) hFirst g (Store.mem_graphs hGraph)
  have hSecond' := Yields.of_eq_ok (hMoves {} _) hSecond h (Store.mem_graphs hGraph')
  cases r with
  | error e => cases hOk
  | ok stats =>
    exact ⟨by decide, ⟨stats, a, g, hFirst, hGraph, hCount, hFirst'.1⟩, s, h, cells, hSecond,
      hGraph', hCells, hPlaces, hSecond'.2.1, hSecond'.2.2.2.1⟩

end HeapShape
