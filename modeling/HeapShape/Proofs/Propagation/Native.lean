import HeapShape.Proofs.Graph.Pruned
import HeapShape.Proofs.Propagation.BottomUp
import HeapShape.Proofs.Propagation.TopDown

/-
  Native structure across steps.

  A step down copies the caller into the callee. The copies are foreign, and
  what they are merged with is native. So pruning takes away nothing that
  the callee had: its nodes are represented by live nodes, its links are
  links between these, and its roots are bound to them.

  Pruning does not take away all that the callee does not have. A copy that
  collapses is represented by a new node, which is not foreign, although it
  stands for a copy only.

  Main declarations:
    * `Copier.Stepping.joinAll`
    * `propagation_keeps_native_structure`
    * `pruning_leaves_owned_nodes`
    * `pruning_spares_collapsed_copy`
-/

-- The Cells Of A Call

namespace HeapShape

open Checked

namespace Graph

variable {C : Flags → Prop} {g h : Graph} {c : Cell} {cs : CallSite}

theorem Steps.valueCell
    {v : ValueId}
    (hg : g.FreeListed)
    (hRun : g.valueCell v = .ok (c, h)) :
    Steps C g h := by
  unfold Graph.valueCell at hRun
  split at hRun
  · exact (Steps.find hRun).1
  · exact .bindRoot hg hRun

theorem Steps.valueCells
    {values : List (Option ValueId)}
    {cells : List (Option Cell)}
    (hg : g.FreeListed)
    (hRun : valueCells g values = .ok (cells, h)) :
    Steps C g h := by
  induction values generalizing g h cells with
  | nil =>
    cases hRun
    exact .refl _
  | cons v? rest ih =>
    cases v? with
    | none =>
      rw [HeapShape.valueCells] at hRun
      rcases of_bind hRun with ⟨⟨cells', h'⟩, hRest, hRun⟩
      cases hRun
      exact ih hg hRest
    | some v =>
      rw [HeapShape.valueCells] at hRun
      rcases of_bind hRun with ⟨⟨c, g₁⟩, hCell, hRun⟩
      rcases of_bind hRun with ⟨⟨cells', h'⟩, hRest, hRun⟩
      cases hRun
      have hFirst := Steps.valueCell (C := C) hg hCell
      exact hFirst.trans (ih (hFirst.freeListed hg) hRest)

theorem Steps.callSiteCells
    {cells : CallSiteCells}
    (hg : g.FreeListed)
    (hRun : callSiteCells g cs = .ok (cells, h)) :
    Steps C g h := by
  unfold HeapShape.callSiteCells at hRun
  rcases of_bind hRun with ⟨⟨actuals, g₁⟩, hActuals, hRun⟩
  have hFirst := Steps.valueCells (C := C) hg hActuals
  dsimp only at hRun
  split at hRun
  · cases hRun
    exact hFirst
  · rcases of_bind hRun with ⟨⟨c, g₂⟩, hResult, hRun⟩
    cases hRun
    exact hFirst.trans (.valueCell (hFirst.freeListed hg) hResult)

/- The cell of a root is merged with another. -/
theorem Steps.bindAndUnify
    {a b : Graph}
    {r : Root}
    {place : Cell}
    (hga : Steps C g a)
    (hg : g.FreeListed)
    (hBind : a.bindRoot r none = .ok (place, b))
    (hUnify : b.unify place c = .ok h) :
    Steps C g h := by
  have hBound := hga.trans (.bindRoot (hga.freeListed hg) hBind)
  exact hBound.trans (.unify (hBound.freeListed hg) hUnify)

/- A call and a callee that share a graph. -/
theorem Steps.resolveInPlace
    {callee : FunctionDef}
    (hg : g.FreeListed)
    (hRun : resolveInPlace g cs callee = .ok h) :
    Steps C g h := by
  unfold HeapShape.resolveInPlace at hRun
  rcases of_bind hRun with ⟨⟨cells, g₁⟩, hCells, hRun⟩
  have hFirst := Steps.callSiteCells (C := C) hg hCells
  have hFormals : ∀ a, Steps C g a → (callee.pointerPairs cells.actuals).foldlM (fun g pair => do
          let found ← g.formalCell pair.1
          found.2.unify found.1 pair.2) a = .ok h →
      Steps C g h := by
    intro a ha hFold
    refine foldlM_induction (P := Steps C g) ?_ ha hFold
    intro b pair _ e hBefore hStep
    rcases of_bind hStep with ⟨found, hBind, hUnify⟩
    exact hBefore.bindAndUnify hg hBind hUnify
  dsimp only at hRun
  split at hRun
  · rcases of_bind hRun with ⟨⟨place, g₂⟩, hBind, hRun⟩
    rcases of_bind hRun with ⟨g₃, hUnify, hRun⟩
    exact hFormals g₃ (hFirst.bindAndUnify hg hBind hUnify) hRun
  · exact hFormals g₁ hFirst hRun

/- Marking the memory of a call sets two other flags. -/
theorem Steps.markExternal
    (hg : g.FreeListed)
    (hRun : markExternal g cs = .ok h) :
    Steps C g h := by
  unfold HeapShape.markExternal at hRun
  rcases of_bind hRun with ⟨⟨cells, g₁⟩, hCells, hRun⟩
  rcases of_bind hRun with ⟨nodes, _, hRun⟩
  refine foldlM_induction (P := Steps C g) ?_ (.callSiteCells hg hCells) hRun
  intro a id _ b hBefore hStep
  refine hBefore.trans (.modifyNode ?_ hStep)
  intro n
  constructor
  · unfold Node.isForeign
    rw [Flags.has_union]
    exact Bool.or_false _
  · unfold Node.isCollapsed
    rw [Flags.has_union]
    intro hCollapsed
    rw [hCollapsed, Bool.true_or]

end Graph

-- Copies In A Step

open Graph

/- A look-up of a place that takes elementary steps. -/
def LooksUp
    (own : Graph → Checked (Cell × Graph)) : Prop :=
  ∀ C g place h, g.FreeListed → own g = .ok (place, h) →
    Steps C g h

/- A place that is given. -/
theorem looksUp_given
    (c : Cell) :
    LooksUp fun g => .ok (c, g) := by
  intro C g place h _ hRun
  cases hRun
  exact .refl g

/- The cell of a root. -/
theorem looksUp_root
    (r : Root) :
    LooksUp fun g => g.bindRoot r none :=
  fun _ _ _ _ hg hRun => .bindRoot hg hRun

namespace Copier

variable {k k' : Copier}

theorem Stepping.copyAndMerge
    {c : Cell}
    {force : Bool}
    {own : Graph → Checked (Cell × Graph)}
    (hk : k.dest.FreeListed)
    (hOwn : LooksUp own)
    (hRun : copyAndMerge k c force own = .ok k') :
    Stepping k k' := by
  unfold HeapShape.copyAndMerge at hRun
  rcases of_bind hRun with ⟨⟨image, k₁⟩, hCopy, hRun⟩
  unfold mapDest at hRun
  rcases of_bind hRun with ⟨dest, hDest, hRun⟩
  cases hRun
  rcases of_bind hDest with ⟨⟨place, g₁⟩, hPlace, hUnify⟩
  have hFirst := Stepping.copyCell hk hCopy
  have hListed := hFirst.freeListed hk
  have hFound := hOwn (fun flags =>
    flags.has .foreign = k₁.options.markForeign) _ _ _ hListed
    hPlace
  have hNext : Stepping k₁ { k₁ with dest := dest } :=
    ⟨rfl, hFound.trans (.unify (hFound.freeListed hListed) hUnify)⟩
  exact hFirst.trans hNext

/- One junction after the other. -/
theorem Stepping.joinAll
    {js : List Junction}
    (hk : k.dest.FreeListed)
    (hOwn : ∀ j ∈ js, ∀ own, j.place? = some own → LooksUp own)
    (hRun : js.foldlM Copier.join k = .ok k') :
    Stepping k k' := by
  refine foldlM_induction (P := Stepping k) ?_ (.refl k) hRun
  intro k₁ j hj k₂ hBefore hStep
  unfold Copier.join at hStep
  rcases of_bind hStep with ⟨c?, _, hStep⟩
  split at hStep
  · next hPlace _ =>
    exact hBefore.trans (.copyAndMerge (hBefore.freeListed hk) (hOwn j hj _ hPlace) hStep)
  · cases hStep
    exact hBefore

end Copier

variable {config : Config} {policy : CloningPolicy} {cs : CallSite} {callee : FunctionDef}
variable {calleeGraph callerGraph : Graph} {k : Copier}

/- A step down makes foreign nodes. -/
theorem steps_topDownCopy
    (hCallee : calleeGraph.FreeListed)
    (hRun : topDownCopy policy cs callee callerGraph calleeGraph = .ok k) :
    Steps (fun flags => flags.has .foreign = true) calleeGraph k.dest := by
  unfold topDownCopy at hRun
  refine (Copier.Stepping.joinAll hCallee ?_ hRun).steps
  intro j hj own hOwn
  simp only [topDownJunctions, List.mem_append, List.mem_map] at hj
  rcases hj with (⟨v, _, rfl⟩ | ⟨v, _, rfl⟩) | ⟨pair, _, rfl⟩
  · cases hOwn
    exact looksUp_root _
  · cases hOwn
    exact looksUp_root _
  · cases hOwn
    exact looksUp_root _

/- A step up makes native ones. -/
theorem steps_bottomUpCopy
    (hCaller : callerGraph.FreeListed)
    (hRun : bottomUpCopy config cs callee calleeGraph callerGraph = .ok k) :
    Steps (fun flags => flags.has .foreign = false) callerGraph k.dest := by
  unfold bottomUpCopy at hRun
  rcases of_bind hRun with ⟨⟨cells, g₁⟩, hCells, hRun⟩
  have hFirst := (Steps.callSiteCells (C := fun flags => flags.has .foreign = false) hCaller
    hCells).tail (.note (h := g₁.recordCallSite cs.id cells) rfl rfl rfl)
  refine hFirst.trans (Copier.Stepping.joinAll (hFirst.freeListed hCaller) ?_ hRun).steps
  intro j hj own hOwn
  simp only [bottomUpJunctions, List.mem_append, List.mem_map, List.mem_singleton] at hj
  rcases hj with (⟨v, _, rfl⟩ | rfl) | ⟨pair, _, rfl⟩
  · cases hOwn
    exact looksUp_root _
  · rcases Option.map_eq_some_iff.mp hOwn with ⟨c, _, rfl⟩
    exact looksUp_given c
  · cases hOwn
    exact looksUp_given _

-- Native Structure

/-
  A node has the sites and the flags of another. An array may have
  collapsed.
-/
structure Node.CarriedBy
    (n n' : Node) : Prop where
  sites : ∀ s, s ∈ n.allocSites → s ∈ n'.allocSites
  flags : ∀ f, n.flags.has f = true →
    n'.flags.has f = true ∨
      f = .array ∧ n'.isCollapsed = true

/- A native node is carried by what stands for it. -/
theorem Node.StandsFor.carriedBy
    {n m n' : Node}
    {k : Nat}
    (h : n.StandsFor m k)
    (hSame : m.SameFacts n')
    (hn : n.isForeign = false) :
    n.CarriedBy n' where
  sites := by
    intro s hs
    rw [hSame.sites]
    exact h.sites s hs
  flags := by
    intro f hf
    have hForeign : f ≠ .foreign := by
      rintro rfl
      exact Bool.false_ne_true (hn.symm.trans hf)
    by_cases hArray : f = .array
    · subst hArray
      rcases h.array hf with hm | hm
      · exact Or.inl (hSame.array.trans hm)
      · exact Or.inr ⟨rfl, hSame.collapsed.trans hm⟩
    · refine Or.inl ?_
      rw [hSame.flags f hForeign]
      exact h.flags f hForeign hArray hf

namespace Graph

/-
  What becomes of the structure of a graph. Its nodes are represented where
  chains lead to in `merged`, and what is represented is found in `h`.
-/
structure Survives
    (g merged h : Graph) : Prop where
  nodes : ∀ id n, g.slot id = .live n → ∃ m k n',
    merged.Leads id m k ∧ h.slot m = .live n' ∧
      n.CarriedBy n'
  links : ∀ id t x, g.LinkTo id t x → ∃ m m' k k' t',
    merged.Leads id m k ∧ merged.Leads x m' k' ∧
      h.LinkTo m t' m'
  roots : ∀ r c x j, g.roots.get? r = some c →
    g.Leads c.node x j → ∃ m k d,
      merged.Leads x m k ∧ h.roots.get? r = some d ∧
        d.node = m

variable {C : Flags → Prop} {g i h : Graph}

/- A native node is represented after collecting. -/
theorem Steps.exists_kept
    (hSteps : Steps C g i)
    (hg : g.FreeListed)
    (hKeeps : KeepsNative i h)
    {id : NodeId}
    {n : Node}
    (hLive : g.slot id = .live n)
    (hn : n.isForeign = false) :
    ∃ m k l n', i.Leads id m k ∧ i.slot m = .live l ∧ h.slot m = .live n' ∧
      l.SameFacts n' := by
  have hHas := hSteps.native hg ⟨id, 0, n, .live hLive, hLive, hn⟩
  rcases hHas with ⟨m, k, l, hLeads, hl, hNative⟩
  rcases hKeeps.kept m l hl hNative with ⟨n', hn'⟩
  rcases hKeeps.nodes m n' hn' with ⟨l', hl', hSame, _⟩
  rw [hl] at hl'
  cases hl'
  exact ⟨m, k, l, n', hLeads, hl, hn', hSame⟩

/- Steps and collecting lose no native structure. -/
theorem Survives.of_steps
    (hg : g.FreeListed)
    (hNative : g.AllNative)
    (hSteps : Steps C g i)
    (hLater : Later g i)
    (hLinks : LinksHold False g i)
    (hKeeps : KeepsNative i h) :
    Survives g i h where
  nodes := by
    intro id n hLive
    have hn := hNative id n hLive
    rcases hSteps.exists_kept hg hKeeps hLive hn with ⟨m, k, l, n', hLeads, hl, hn', hSame⟩
    exact ⟨m, k, n', hLeads, hn', (hLater.merged.stands id n m
      k l hLive hLeads hl).carriedBy hSame hn⟩
  links := by
    rintro id t x ⟨n, f, j, hLive, hGet, hTarget⟩
    rcases hLinks id n hLive f t hGet with ⟨m, l, k, f', u, hLeads, hl, _, hFound, hNode, _⟩
    rcases hNode with ⟨m', a, b, hu, ht⟩
    -- The target is represented where the link leads to.
    rcases hLater.merged.leads _ _ _ hTarget with ⟨y, k', hx, hAll⟩
    rcases ht.unique hAll with ⟨rfl, _⟩
    rcases hTarget.live_end with ⟨nx, hxLive⟩
    rcases hSteps.exists_kept hg hKeeps hxLive (hNative x nx hxLive) with
      ⟨y, _, _, n', hx', _, hn', _⟩
    rcases hx.unique hx' with ⟨rfl, rfl⟩
    rcases hSteps.exists_kept hg hKeeps hLive (hNative id n hLive) with
      ⟨z, _, l', o, hId, hl', ho, _⟩
    rcases hLeads.unique hId with ⟨rfl, rfl⟩
    rcases hKeeps.links m l o f' u hl ho hFound with ⟨t', hResolve, hStays⟩
    rcases leads_of_resolve hResolve with ⟨_, hu', _⟩
    rcases hu.unique hu' with ⟨hEq, _⟩
    rw [← hEq, hn'] at hStays
    refine ⟨m, m', k, k', t', hLeads, hx, o, f', 0, ho, hStays Slot.noConfusion, ?_⟩
    rw [← hEq]
    exact .live hn'
  roots := by
    intro r c x j hRoot hLeads
    rcases hLater.merged.leads _ _ _ hLeads with ⟨m, k, hx, hAll⟩
    rcases hKeeps.exists_root (hLater.roots r c hRoot) with ⟨d, hResolve, hNew, _⟩
    rcases leads_of_resolve hResolve with ⟨_, hEnd, _⟩
    exact ⟨m, k, d, hx, hNew, (hAll.unique hEnd).1.symm⟩

end Graph

-- Steps

open Graph

/- No node of any graph is foreign. -/
def Store.AllNative
    (s : Store) : Prop :=
  ∀ f g, s.graph? f = some g → g.AllNative

theorem Store.AllNative.setGraph
    {s : Store}
    (hs : s.AllNative)
    {f : FunctionId}
    {g h : Graph}
    (hGraph : s.graph? f = some g)
    (hh : h.AllNative) :
    (s.setGraph f h).AllNative := by
  intro e i hi
  rw [Store.graph?_setGraph hGraph] at hi
  split at hi
  · cases hi
    exact hh
  · exact hs e i hi

variable {s t : Store} {count : Nat}

/- What is known of the callee after the copies were made. -/
theorem later_topDownCopy
    (hCaller : callerGraph.WellFormed)
    (hCallee : calleeGraph.WellFormed)
    (hRun : topDownCopy config.cloning cs callee callerGraph calleeGraph = .ok k) :
    Later calleeGraph k.dest ∧ LinksHold False calleeGraph k.dest := by
  unfold topDownCopy at hRun
  rcases Copier.pictured_start hCaller hCallee (CopyOptions.topDown config.cloning cs.caller) with
    ⟨hStart, hNone⟩
  have hGrows := Copier.Grows.joinDown (E := False) hStart hNone hRun
  exact ⟨hGrows.carries.later, (hGrows.carries.here False.elim).1⟩

/-
  A step down in parts. The callee is merged with copies of the caller, and
  the outcome is collected.
-/
structure StepDown
    (config : Config)
    (s : Store)
    (cs : CallSite)
    (callee : FunctionDef)
    (count : Nat)
    (caller g : Graph)
    (k : Copier)
    (h : Graph) : Prop where
  callerGraph : s.graph? cs.caller = some caller
  calleeGraph : s.graph? callee.id = some g
  copies : topDownCopy config.cloning cs callee caller g =
    .ok k
  listed : g.FreeListed
  later : Later g k.dest
  links : LinksHold False g k.dest
  keeps : KeepsNative k.dest h
  prunes : config.cloning.pruneForeign = true →
    k.dest.pruneForeign = .ok (count, h)

theorem exists_stepDown
    (hGraphs : ∀ f g, s.graph? f = some g → g.WellFormed)
    (hRun : topDownStep config s cs callee = .ok (some (count, t))) :
    ∃ caller g k h, StepDown config s cs callee count caller g k h ∧
      t = s.setGraph callee.id h ∧
        t.graph? callee.id = some h := by
  rcases topDownStep_eq_some hRun with ⟨caller, g, k, h, hPair, hCopy, hCollect, rfl⟩
  rcases Store.pair?_eq_some_iff.mp hPair with ⟨_, hCaller, hCallee⟩
  rcases Store.pair?_eq_some_iff.mp (Store.pair?_setGraph hPair h) with ⟨_, _, hNew⟩
  have hg := hGraphs _ _ hCallee
  rcases later_topDownCopy (hGraphs _ _ hCaller) hg hCopy with ⟨hLater, hLinks⟩
  refine ⟨caller, g, k, h, ⟨hCaller, hCallee, hCopy,
    hg.freeListed, hLater, hLinks, ?_, ?_⟩, rfl, hNew⟩
  · rcases hCollect with ⟨_, hPruned⟩ | ⟨_, hCompress⟩
    · exact .of_pruneForeign hLater.wellFormed hPruned
    · exact .of_compress hLater.wellFormed hCompress
  · intro hOn
    rcases hCollect with ⟨_, hPruned⟩ | ⟨hOff, _⟩
    · exact hPruned
    · rw [hOn] at hOff
      cases hOff

/- A step down that prunes leaves native nodes only. -/
theorem StepDown.allNative
    {caller g h : Graph}
    (hStep : StepDown config s cs callee count caller g k h)
    (hPrune : config.cloning.pruneForeign = true) :
    h.AllNative :=
  allNative_of_pruneForeign hStep.later.wellFormed (hStep.prunes hPrune)

theorem Store.AllNative.topDownStep
    (hGraphs : ∀ f g, s.graph? f = some g → g.WellFormed)
    (hs : s.AllNative)
    (hPrune : config.cloning.pruneForeign = true)
    (hRun : topDownStep config s cs callee = .ok (some (count, t))) :
    t.AllNative := by
  rcases exists_stepDown hGraphs hRun with ⟨_, _, _, _, hStep, rfl, _⟩
  exact hs.setGraph hStep.calleeGraph (hStep.allNative hPrune)

/- A step up copies native nodes only. -/
theorem Store.AllNative.bottomUpStep
    (hGraphs : ∀ f g, s.graph? f = some g → g.WellFormed)
    (hs : s.AllNative)
    (hRun : bottomUpStep config s cs callee = .ok (some t)) :
    t.AllNative := by
  rcases bottomUpStep_eq_some hRun with
    ⟨calleeGraph, callerGraph, k, h, hPair, hCopy, hCompress,
      rfl⟩
  rcases Store.pair?_eq_some_iff.mp hPair with ⟨_, hCallee, hCaller⟩
  rcases bottomUpCopy_eq_ok (E := False) (hGraphs _ _ hCallee)
      (hGraphs _ _ hCaller) hCopy False.elim with
    ⟨_, _, ⟨_, hk⟩, _⟩
  have hListed := (hGraphs _ _ hCaller).freeListed
  have hNative := (steps_bottomUpCopy hListed hCopy).allNative
    hListed (fun _ hFlags => hFlags) (hs _ _ hCaller)
  exact hs.setGraph hCaller (hNative.compress hk.pictured.dest hCompress)

/-
  A step down keeps all structure of a native callee, pruned or not. Where
  foreign nodes are pruned, no step of propagation leaves one behind.
-/
theorem propagation_keeps_native_structure
    (config : Config)
    (cs : CallSite)
    (callee : FunctionDef)
    (hGraphs : ∀ f g, s.graph? f = some g → g.WellFormed) :
    (∀ count t g, s.graph? callee.id = some g →
      g.AllNative →
      topDownStep config s cs callee =
        .ok (some (count, t)) →
      ∃ caller k h, s.graph? cs.caller = some caller ∧
        topDownCopy config.cloning cs callee caller g =
          .ok k ∧
        t.graph? callee.id = some h ∧
        Survives g k.dest h ∧
        (config.cloning.pruneForeign = true →
          h.AllNative)) ∧
    (config.cloning.pruneForeign = true → s.AllNative →
      (∀ count t, topDownStep config s cs callee =
        .ok (some (count, t)) → t.AllNative) ∧
      (∀ t, bottomUpStep config s cs callee =
        .ok (some t) → t.AllNative) ∧
      ∀ f g h, s.graph? f = some g →
        resolveInPlace g cs callee = .ok h ∨
          markExternal g cs = .ok h → h.AllNative) := by
  refine ⟨?_, ?_⟩
  · intro count t g hCallee hNative hRun
    rcases exists_stepDown hGraphs hRun with
      ⟨caller, g', k, h, hStep, _, hNew⟩
    cases hCallee.symm.trans hStep.calleeGraph
    exact ⟨caller, k, h, hStep.callerGraph, hStep.copies, hNew,
      .of_steps hStep.listed hNative
        (steps_topDownCopy hStep.listed hStep.copies)
        hStep.later hStep.links hStep.keeps,
      hStep.allNative⟩
  · intro hPrune hs
    refine ⟨fun _ _ => hs.topDownStep hGraphs hPrune,
      fun _ => hs.bottomUpStep hGraphs, ?_⟩
    intro f g h hGraph hRun
    have hListed := (hGraphs f g hGraph).freeListed
    have hSteps : Steps (fun _ => False) g h := by
      rcases hRun with hRun | hRun
      · exact .resolveInPlace hListed hRun
      · exact .markExternal hListed hRun
    exact hSteps.allNative hListed (fun _ => False.elim)
      (hs f g hGraph)

/- An array of pointers to one object, which is kept. -/
def walkCallee : List Update :=
  [.createNode Flags.empty 8,
    .createNode (Flags.ofList [.modified]) 8,
    .addAllocSite 1 { id := 0, kind := .heap },
    .merge (.setArray 0 8),
    .merge (.addLink ⟨0, 0⟩ none ⟨1, 0⟩),
    .merge (.bindRoot (.formal 0) (some ⟨0, 0⟩)),
    .merge (.bindRoot (.scalar 1) (some ⟨1, 0⟩))]

/- An object with a field that leads to two more. -/
def listCaller : List Update :=
  [.createNode Flags.empty 16,
    .createNode Flags.empty 8,
    .createNode Flags.empty 8,
    .addAllocSite 1 { id := 1, kind := .heap },
    .merge (.addLink ⟨0, 8⟩ none ⟨1, 0⟩),
    .merge (.addLink ⟨1, 0⟩ none ⟨2, 0⟩),
    .merge (.bindRoot (.scalar 7) (some ⟨0, 0⟩))]

def walkCall : CallSite :=
  { id := 4, caller := 1, target := .direct 0
    actuals := [some 7] }

def walkFunction : FunctionDef :=
  { id := 0, name := "walk", returnsPointer := false
    formals := [{ value := 0, isPointer := true }] }

/- The last object of the list is pruned, and no other. -/
theorem propagation_keeps_native_structure_of_walk :
    ∃ callee caller k h t,
      Update.runAll {} walkCallee = .ok callee ∧
      Update.runAll {} listCaller = .ok caller ∧
      callee.AllNative ∧
      topDownStep {} (Store.ofPair callee caller) walkCall
        walkFunction = .ok (some (1, t)) ∧
      topDownCopy ({} : Config).cloning walkCall walkFunction
        caller callee = .ok k ∧
      t.graph? 0 = some h ∧ Survives callee k.dest h ∧
      h.AllNative ∧ t.AllNative := by
  rcases Update.exists_runs {} walkCallee listCaller
      (P := fun g h =>
        (g.AllNative ∧ h.AllNative) ∧
        (topDownStep {} (Store.ofPair g h) walkCall
          walkFunction).map (·.map Prod.fst) = .ok (some 1))
      (by decide) (by decide +kernel) with
    ⟨callee, caller, hBuild, hBuild', hCallee, hCaller,
      ⟨hNative, hNative'⟩, hEval⟩
  have hGraphs := Store.forall_ofPair hCallee hCaller
  have hs : (Store.ofPair callee caller).AllNative :=
    Store.forall_ofPair hNative hNative'
  rcases Checked.map_eq_ok_iff.mp hEval with ⟨t?, hRun, hSome⟩
  rcases Option.map_eq_some_iff.mp hSome with
    ⟨⟨_, t⟩, rfl, rfl⟩
  rcases propagation_keeps_native_structure {} walkCall
      walkFunction hGraphs with
    ⟨hDown, hSteps⟩
  rcases hDown 1 t callee rfl hNative hRun with
    ⟨_, k, h, hFound, hCopy, hNew, hSurvives, hAll⟩
  cases hFound
  exact ⟨callee, caller, k, h, t, hBuild, hBuild', hNative,
    hRun, hCopy, hNew, hSurvives, hAll rfl,
    (hSteps rfl hs).1 1 t hRun⟩

/-
  After a step down with pruning, a live node of the callee represents a
  node that the callee had, is bound to a root, or is collapsed.
-/
theorem pruning_leaves_owned_nodes
    (hGraphs : ∀ f g, s.graph? f = some g → g.WellFormed)
    (hCallee : s.graph? callee.id = some calleeGraph)
    (hPrune : config.cloning.pruneForeign = true)
    (hRun : topDownStep config s cs callee =
      .ok (some (count, t))) :
    ∃ caller k h, s.graph? cs.caller = some caller ∧
      topDownCopy config.cloning cs callee caller
        calleeGraph = .ok k ∧
      t.graph? callee.id = some h ∧
      ∀ m n, h.slot m = .live n →
        (∃ id n₀ j, calleeGraph.slot id = .live n₀ ∧
          k.dest.Leads id m j) ∨
        (∃ r c, h.roots.get? r = some c ∧ c.node = m) ∨
        n.isCollapsed = true := by
  rcases exists_stepDown hGraphs hRun with
    ⟨caller, g, k, h, hStep, _, hNew⟩
  cases hCallee.symm.trans hStep.calleeGraph
  have hMerged := hStep.later.wellFormed
  have hPruned := hStep.prunes hPrune
  refine ⟨caller, k, h, hStep.callerGraph, hStep.copies,
    hNew, ?_⟩
  -- At first every node represents itself.
  have hStart : calleeGraph.Owned
      fun id => ∃ n₀, calleeGraph.slot id = .live n₀ :=
    fun id n hLive _ =>
      Or.inl ⟨id, 0, ⟨n, hLive⟩, .live hLive⟩
  have hOwned := (steps_topDownCopy hStep.listed
    hStep.copies).owned hStep.listed (fun _ hFlags => hFlags)
      hStart
  have hCollected := Collected.of_pruneForeign hMerged hPruned
  intro m n hLive
  rcases hCollected.nodes m n hLive with
    ⟨l, hl, hSame, _⟩
  have hRooted : k.dest.Rooted m →
      ∃ r c, h.roots.get? r = some c ∧ c.node = m := by
    intro hRooted
    rcases hCollected.rooted_iff.mpr hRooted with
      ⟨r, c, _, hRoot, hLeads⟩
    exact ⟨r, c, hRoot,
      (hCollected.eq_of_leads hLeads).1.symm⟩
  have hWhy : l.isForeign = false ∨ k.dest.Rooted m := by
    rcases slot_of_pruneForeign hMerged hPruned hl with
      ⟨_, _, hFree⟩ | ⟨hWhy, _⟩
    · rw [hLive] at hFree
      cases hFree
    · exact hWhy
  rcases hWhy with hl' | hBound
  · rcases hOwned m l hl hl' with
      ⟨id, j, ⟨n₀, hOld⟩, hLeads⟩ | hBound | hCollapsed
    · exact Or.inl ⟨id, n₀, j, hOld, hLeads⟩
    · exact Or.inr (Or.inl (hRooted hBound))
    · exact Or.inr (Or.inr (hSame.collapsed.trans hCollapsed))
  · exact Or.inr (Or.inl (hRooted hBound))

/- What is left of the list belongs to the callee. -/
theorem pruning_leaves_owned_nodes_of_walk :
    ∃ callee caller k h t,
      Update.runAll {} walkCallee = .ok callee ∧
      Update.runAll {} listCaller = .ok caller ∧
      topDownStep {} (Store.ofPair callee caller) walkCall
        walkFunction = .ok (some (1, t)) ∧
      topDownCopy ({} : Config).cloning walkCall walkFunction
        caller callee = .ok k ∧
      t.graph? 0 = some h ∧
      ∀ m n, h.slot m = .live n →
        (∃ id n₀ j, callee.slot id = .live n₀ ∧
          k.dest.Leads id m j) ∨
        (∃ r c, h.roots.get? r = some c ∧ c.node = m) ∨
        n.isCollapsed = true := by
  rcases Update.exists_runs {} walkCallee listCaller
      (P := fun g h =>
        (topDownStep {} (Store.ofPair g h) walkCall
          walkFunction).map (·.map Prod.fst) = .ok (some 1))
      (by decide) (by decide +kernel) with
    ⟨callee, caller, hBuild, hBuild', hCallee, hCaller, hEval⟩
  rcases Checked.map_eq_ok_iff.mp hEval with ⟨t?, hRun, hSome⟩
  rcases Option.map_eq_some_iff.mp hSome with
    ⟨⟨_, t⟩, rfl, rfl⟩
  have hGraph : (Store.ofPair callee caller).graph?
      walkFunction.id = some callee := rfl
  have hPrune : ({} : Config).cloning.pruneForeign = true :=
    rfl
  rcases pruning_leaves_owned_nodes
      (Store.forall_ofPair hCallee hCaller) hGraph hPrune hRun
    with ⟨_, k, h, hFound, hCopy, hNew, hNodes⟩
  cases hFound
  exact ⟨callee, caller, k, h, t, hBuild, hBuild', hRun,
    hCopy, hNew, hNodes⟩

/- An array. -/
def foldCallee : List Update :=
  [.createNode Flags.empty 8,
    .merge (.setArray 0 8),
    .merge (.bindRoot (.formal 0) (some ⟨0, 0⟩))]

/- Two fields that lead to two offsets of one object. -/
def foldCaller : List Update :=
  [.createNode Flags.empty 16,
    .createNode Flags.empty 16,
    .merge (.addLink ⟨0, 0⟩ none ⟨1, 0⟩),
    .merge (.addLink ⟨0, 8⟩ none ⟨1, 8⟩),
    .merge (.bindRoot (.scalar 7) (some ⟨0, 0⟩))]

/-
  Merged with an array, both fields are one, and the object that they lead
  to collapses. It is the caller's, yet the node that stands for it is not
  pruned.
-/
theorem pruning_spares_collapsed_copy :
    ∃ callee caller k h t n, Update.runAll {} foldCallee = .ok callee ∧
      Update.runAll {} foldCaller = .ok caller ∧
      callee.AllNative ∧
      topDownStep {} (Store.ofPair callee caller) walkCall walkFunction =
        .ok (some (0, t)) ∧
      topDownCopy ({} : Config).cloning walkCall walkFunction caller callee = .ok k ∧
      t.graph? 0 = some h ∧ h.slot 3 = .live n ∧
      (∀ id n₀ j, callee.slot id = .live n₀ → ¬ k.dest.Leads id 3 j) ∧
      ∀ r c, h.roots.get? r = some c → c.node ≠ 3 := by
  rcases Update.exists_runs {} foldCallee foldCaller (P := fun g h =>
        (g.AllNative ∧ g.liveNodes.map Prod.fst = [0]) ∧
        (topDownCopy ({} : Config).cloning walkCall walkFunction h g).map (fun k =>
            (k.dest.slot 0).node?.isSome) = .ok true ∧
        (topDownStep {} (Store.ofPair g h) walkCall walkFunction).map (·.map fun p =>
            (p.1, (p.2.graph? 0).map fun g =>
              ((g.slot 3).node?.isSome, g.roots.entries.all (·.2.node != 3)))) =
          .ok (some (0, some (true, true))))
      (by decide) (by decide +kernel) with
    ⟨callee, caller, hBuild, hBuild', hCallee, hCaller, ⟨hNative, hOnly⟩, hFirst, hEval⟩
  rcases map_eq_ok_iff.mp hFirst with ⟨k, hCopy, hStays⟩
  rcases map_eq_ok_iff.mp hEval with ⟨t?, hRun, hSome⟩
  rcases Option.map_eq_some_iff.mp hSome with ⟨⟨count, t⟩, rfl, hAnswer⟩
  injection hAnswer with hCount hAnswer
  subst hCount
  rcases Option.map_eq_some_iff.mp hAnswer with ⟨h, hNew, hAnswer⟩
  injection hAnswer with hThere hRoots
  rcases Option.isSome_iff_exists.mp hThere with ⟨n, hn⟩
  refine ⟨callee, caller, k, h, t, n, hBuild, hBuild',
    hNative, hRun, hCopy, hNew, Slot.node?_eq_some_iff.mp hn,
    ?_, ?_⟩
  · intro id n₀ j hOld hLeads
    have hMem := List.mem_map_of_mem (f := Prod.fst) (mem_liveNodes.mpr hOld)
    rw [hOnly] at hMem
    cases List.mem_singleton.mp hMem
    rcases Option.isSome_iff_exists.mp hStays with ⟨l, hl⟩
    rcases hLeads.eq_of_live (Slot.node?_eq_some_iff.mp hl) with ⟨hEq, _⟩
    cases hEq
  · intro r c hRoot
    have hAll := List.all_eq_true.mp hRoots (r, c) ((OrdMap.get?_eq_some_iff _ _ _).mp hRoot)
    simpa using hAll

end HeapShape
