import HeapShape.Proofs.Lowering.Progress
import HeapShape.Proofs.Propagation.Progress
import HeapShape.Proofs.Simulation.Exact
import HeapShape.Proofs.Simulation.Injective
import HeapShape.Proofs.Store
import HeapShape.Pass.Fixpoint
import HeapShape.Pass.TopDown

/-
  Steps on stores end well.

  The graphs of a store are in order: no recorded cell names a freed slot,
  and sites that are foreign to the functions of a graph lie in nodes of
  globals. Every step that a pass takes keeps the graphs so, and it fails by
  overflow only.

  Main declarations:
    * `Strays`
    * `Store.InOrder.yields_bottomUpStep`
    * `Store.InOrder.yields_topDownStep`
    * `Store.InOrder.yields_reconcileSites`
-/

-- Stores In Order

namespace HeapShape

open Checked

/-
  A kind of sites that are strangers to some functions. They are stack sites
  that the policy keeps at home, and none is allocated by the functions
  themselves.
-/
structure Strays
    (P : OrdSet FunctionId → AllocSite → Prop)
    (p : Program)
    (policy : CloningPolicy) : Prop where
  stack : ∀ fs s, P fs s → s.isStack = true
  stripped : ∀ fs s, P fs s → policy.stripAllocas = true
  kept : ∀ fs s, P fs s → policy.noEscape = true
  home : ∀ fs f op s, f ∈ p.functions → f.id ∈ fs →
    op ∈ f.body → s ∈ op.site? → ¬ P fs s

/-
  A graph is in order for its own functions.
-/
def Graph.InOrder
    (P : OrdSet FunctionId → AllocSite → Prop)
    (g : Graph) : Prop :=
  g.Kept (P g.functions)

/- The graphs of a store are in order. -/
def Store.InOrder
    (P : OrdSet FunctionId → AllocSite → Prop)
    (s : Store) : Prop :=
  ∀ g ∈ s.graphs, g.InOrder P

variable {P : OrdSet FunctionId → AllocSite → Prop}

namespace Graph

variable {g h : Graph}

theorem InOrder.of_kept
    (hh : h.Kept (P g.functions))
    (hFunctions : h.functions = g.functions) :
    h.InOrder P := by
  unfold InOrder
  rw [hFunctions]
  exact hh

theorem InOrder.step
    (hg : g.InOrder P)
    (hgh : Evolves (P g.functions) (fun _ => False) g h) :
    h.InOrder P :=
  .of_kept (Kept.step hg hgh) hgh.functions

theorem InOrder.collected
    (hg : g.InOrder P)
    (hgh : Collected g h) :
    h.InOrder P :=
  .of_kept (Kept.collected hg hgh) hgh.functions

theorem InOrder.yields_compress
    (hg : g.InOrder P) :
    Yields g.compress (InOrder P) :=
  (Kept.yields_compress hg).imp fun _ hh =>
    hg.collected hh.1.toCollected

theorem InOrder.yields_pruneForeign
    (hg : g.InOrder P) :
    Yields g.pruneForeign fun found => found.2.InOrder P :=
  (Kept.yields_pruneForeign hg).imp fun _ hh =>
    hg.collected hh.1

theorem InOrder.yields_removeDead
    (hg : g.InOrder P) :
    Yields g.removeDead fun found => found.2.InOrder P :=
  (Kept.yields_removeDead hg).imp fun _ hh =>
    hg.collected hh.1

end Graph

namespace Store

open Graph

variable {s t : Store} {f : FunctionId} {g h : Graph}

theorem InOrder.empty :
    InOrder P {} := by
  intro g hMem
  simp at hMem

theorem InOrder.graph
    (hs : s.InOrder P)
    (hGraph : s.graph? f = some g) :
    g.InOrder P :=
  hs g (mem_graphs hGraph)

/- A graph is put in the place of another. -/
theorem forall_setGraph
    {Q : Graph → Prop}
    (hs : ∀ g ∈ s.graphs, Q g)
    (hh : Q h)
    (f : FunctionId) :
    ∀ g ∈ (s.setGraph f h).graphs, Q g := by
  unfold Store.setGraph
  split
  · intro g hMem
    rcases Array.mem_or_eq_of_mem_setIfInBounds hMem with hOld | rfl
    · exact hs g hOld
    · exact hh
  · exact hs

theorem InOrder.setGraph
    (hs : s.InOrder P)
    (hh : h.InOrder P)
    (f : FunctionId) :
    (s.setGraph f h).InOrder P :=
  forall_setGraph hs hh f

theorem InOrder.insert
    (hs : s.InOrder P)
    {fs : List FunctionId}
    (hg : (fs.foldl addFunction g).InOrder P) :
    (s.insert fs g).2.InOrder P := by
  intro h hMem
  rcases Array.mem_push.mp hMem with hOld | rfl
  · exact hs h hOld
  · exact hg

/- Every graph is changed to one in order. -/
theorem InOrder.yields_mapGraphs
    {α : Type}
    {f : Graph → Checked (α × Graph)}
    (hs : s.InOrder P)
    (hf : ∀ g, g.InOrder P → Yields (f g) fun r => r.2.InOrder P) :
    Yields (s.mapGraphs f) fun r => r.2.InOrder P := by
  unfold Store.mapGraphs
  refine (Checked.yields_mapM fun g hMem =>
    hf g (hs g (Array.mem_toList_iff.mp hMem))).bind ?_
  intro out hOut
  refine .ok ?_
  intro h hMem
  rw [List.mem_toArray] at hMem
  rcases List.mem_map.mp hMem with ⟨r, hr, rfl⟩
  rcases hOut r hr with ⟨_, _, hKept⟩
  exact hKept

-- Steps Of Propagation

open Graph

variable {p : Program} {config : Config}

theorem InOrder.yields_bottomUpStep
    (hs : s.InOrder P)
    (hP : Strays P p config.cloning)
    (cs : CallSite)
    (callee : FunctionDef) :
    Yields (bottomUpStep config s cs callee) fun t? => ∀ t, t? = some t →
      t.InOrder P := by
  unfold bottomUpStep
  split
  · exact .ok nofun
  · next calleeGraph callerGraph hPair =>
    rcases pair?_eq_some_iff.mp hPair with ⟨_, hCallee, hCaller⟩
    refine (Kept.yields_bottomUpCopy (hs.graph hCallee).wellFormed (hs.graph hCaller)
      (fun site hSite => ⟨hP.stripped _ site hSite, hP.stack _ site hSite⟩) cs callee).bind ?_
    rintro k ⟨hKept, hFunctions⟩
    refine (InOrder.of_kept hKept hFunctions).yields_compress.bind ?_
    intro g hg
    refine .ok ?_
    intro t hSome
    cases hSome
    exact hs.setGraph hg cs.caller

theorem InOrder.yields_topDownStep
    (hs : s.InOrder P)
    (hP : Strays P p config.cloning)
    (cs : CallSite)
    (callee : FunctionDef) :
    Yields (topDownStep config s cs callee) fun t? => ∀ r, t? = some r →
      r.2.InOrder P := by
  unfold topDownStep
  split
  · exact .ok nofun
  · next callerGraph calleeGraph hPair =>
    rcases pair?_eq_some_iff.mp hPair with ⟨_, hCaller, hCallee⟩
    refine (Kept.yields_topDownCopy (hs.graph hCaller).wellFormed (hs.graph hCallee)
      (fun site hSite => ⟨hP.kept _ site hSite, hP.stack _ site hSite⟩) cs callee).bind ?_
    rintro k ⟨hKept, hFunctions⟩
    have hDest := InOrder.of_kept hKept hFunctions
    split
    · refine hDest.yields_pruneForeign.bind ?_
      rintro ⟨pruned, g⟩ hg
      refine .ok ?_
      intro r hSome
      cases hSome
      exact hs.setGraph hg callee.id
    · refine hDest.yields_compress.bind ?_
      intro g hg
      refine .ok ?_
      intro r hSome
      cases hSome
      exact hs.setGraph hg callee.id

/- What a call needs can be told. -/
theorem InOrder.yields_decide
    (hs : s.InOrder P)
    (ctx : Context)
    (cs : CallSite)
    (callee : FunctionDef) :
    Yields (ctx.decide s cs callee) fun _ => True := by
  unfold Context.decide
  split
  · exact .ok trivial
  · next callerGraph calleeGraph hPair =>
    rcases pair?_eq_some_iff.mp hPair with ⟨_, hCaller, hCallee⟩
    refine (Simulation.yields_ofCall (hs.graph hCallee).wellFormed
      (hs.graph hCaller).wellFormed cs callee).bind ?_
    intro sim _
    dsimp only
    split
    · refine (sim.yields_isInjective _).bind ?_
      intro injective _
      cases injective with
      | true => exact .ok trivial
      | false => exact .ok trivial
    · exact .ok trivial

end Store

-- Steps Of Closures

open Graph

variable {g : Graph}

/- Scalars are cleared at nodes of the graph. -/
theorem Graph.InOrder.yields_clearScalars
    (hg : g.InOrder P)
    {ids : OrdSet NodeId}
    (hIds : ∀ id ∈ ids, g.hasNode id = true) :
    Yields (clearScalars g ids) (InOrder P) := by
  refine Yields.imp (P := Evolves (P g.functions) (fun _ => False) g) ?_
    fun _ hLast => hg.step hLast
  refine yields_foldlM (.refl hg.wellFormed) ?_
  intro h id hMem hStep
  have hNode := hIds id ((OrdSet.mem_toList_iff _ _).mp hMem)
  exact (Evolves.modifyNode _ _ hStep.wellFormed (hStep.merged.hasNode hg.wellFormed hNode)
    (fun _ hRun => Sound.clearUniqueScalar hStep.wellFormed
      hRun) (fun _ => rfl) (fun _ _ hs _ => Or.inl hs)).imp
    fun _ hLast => hStep.trans hLast

/- Sites that are added are no strangers. -/
theorem Graph.InOrder.yields_addSites
    (hg : g.InOrder P)
    {sites : List (NodeId × AllocSite)}
    (hSites : ∀ e ∈ sites, g.hasNode e.1 = true ∧ ¬ P g.functions e.2) :
    Yields (addSites g sites) (InOrder P) := by
  refine Yields.imp (P := Evolves (P g.functions) (fun _ => False) g) ?_
    fun _ hLast => hg.step hLast
  refine yields_foldlM (.refl hg.wellFormed) ?_
  intro h e hMem hStep
  rcases hSites e hMem with ⟨hNode, hSite⟩
  exact (Evolves.of_spends (Spends.addAllocSite (hStep.wellFormed.admits (P := P g.functions)
      (X := fun _ => False) (s := 0))
    (hStep.merged.hasNode hg.wellFormed hNode) hSite)).imp
    fun _ hLast => hStep.trans hLast

/- What is missing and may be given is no stack site. -/
theorem not_stack_of_mem_missingSites
    {keepStack : Bool}
    {fromSites intoSites : OrdSet AllocSite}
    {site : AllocSite}
    (hMem : site ∈ missingSites keepStack fromSites intoSites)
    (hKeep : keepStack = true) :
    site.isStack = false := by
  have hTaken := (List.mem_filter.mp hMem).2
  simp only [hKeep, Bool.true_and, Bool.and_eq_true, Bool.not_eq_true'] at hTaken
  exact hTaken.1

/- A site that some mapped node is to be given. -/
theorem mem_flatten_sites
    {mapped : List Mapped}
    {node : Mapped → NodeId}
    {missing : Mapped → List AllocSite}
    {e : NodeId × AllocSite}
    (hMem : e ∈ (mapped.map fun m => (missing m).map fun s => (node m, s)).flatten) :
    ∃ m ∈ mapped, ∃ x ∈ missing m, e = (node m, x) := by
  rcases List.mem_flatten.mp hMem with ⟨es, hes, he⟩
  rcases List.mem_map.mp hes with ⟨m, hm, rfl⟩
  rcases List.mem_map.mp he with ⟨x, hx, rfl⟩
  exact ⟨m, hm, x, hx, rfl⟩

/- A live callee node with its live image. -/
structure Mapped.Lies
    (callerGraph calleeGraph : Graph)
    (sim : Simulation)
    (m : Mapped) : Prop where
  live : calleeGraph.slot m.id = .live m.node
  image : ∃ img, sim.image? m.id = some img ∧
    img.node = m.imageId
  imageLive : callerGraph.slot m.imageId = .live m.image

variable {callerGraph calleeGraph : Graph} {sim : Simulation}

/- Where images are live, the nodes can be listed. -/
theorem exists_mappedNodes
    (calleeGraph : Graph)
    (hImages : ∀ id img, sim.image? id = some img →
        ∃ n, callerGraph.slot img.node = .live n) :
    ∃ mapped, mappedNodes callerGraph calleeGraph sim = .ok mapped ∧
      ∀ m ∈ mapped, m.Lies callerGraph calleeGraph sim := by
  unfold mappedNodes
  rw [Checked.exists_mapM_eq_ok_iff]
  intro e hMem
  rcases List.mem_filterMap.mp hMem with ⟨⟨id, n⟩, hLive, hSome⟩
  rcases Option.map_eq_some_iff.mp hSome with ⟨img, hImage, rfl⟩
  rcases hImages id img hImage with ⟨n', hn'⟩
  refine ⟨⟨id, n, img.node, n'⟩, ?_, mem_liveNodes.mp hLive, ⟨img, hImage, rfl⟩, hn'⟩
  dsimp only
  rw [contents_of_live hn']
  rfl

namespace Store

variable {p : Program} {s : Store}

/- The images of a simulation that was found are live. -/
theorem yields_boundary?
    (hs : ∀ g ∈ s.graphs, g.WellFormed)
    (cs : CallSite)
    (callee : FunctionDef) :
    Yields (boundary? s cs callee) fun b? =>
      ∀ b, b? = some b → s.graph? cs.caller = some b.1 ∧ s.graph? callee.id = some b.2.1 ∧
        Simulation.ofCall cs callee b.2.1 b.1 = .ok b.2.2 ∧
        b.2.2.isFunction = true ∧
        ∀ id img, b.2.2.image? id = some img → ∃ n, b.1.slot img.node = .live n := by
  unfold boundary?
  split
  · next callerGraph calleeGraph hCaller hCallee =>
    have hg := hs _ (mem_graphs hCaller)
    have hh := hs _ (mem_graphs hCallee)
    refine (Simulation.yields_ofCall hh hg cs callee).and_eq.bind ?_
    rintro sim ⟨_, hRun⟩
    split
    · next hFunction =>
      refine .ok ?_
      intro b hSome
      cases hSome
      refine ⟨hCaller, hCallee, hRun, hFunction, ?_⟩
      intro id img hImage
      rcases (Simulation.addPairs_exact hg hRun).1
          (by simpa [Simulation.isFunction] using hFunction) with ⟨hPending, _⟩
      rcases hPending.images id img hImage with ⟨_, n, _, hLive, _⟩
      exact ⟨n, hLive⟩
    · refine .ok ?_
      intro b hNone
      cases hNone
  · refine .ok ?_
    intro b hNone
    cases hNone

theorem InOrder.yields_boundary?
    (hs : s.InOrder P)
    (cs : CallSite)
    (callee : FunctionDef) :
    Yields (boundary? s cs callee) fun b? =>
      ∀ b, b? = some b → b.1.InOrder P ∧ b.2.1.InOrder P ∧
        ∀ id img, b.2.2.image? id = some img →
          ∃ n, b.1.slot img.node = .live n := by
  refine (Store.yields_boundary? (fun g hMem =>
    (hs g hMem).wellFormed) cs callee).imp ?_
  intro b? hAll b hSome
  rcases hAll b hSome with ⟨hCaller, hCallee, _, _, hImages⟩
  exact ⟨hs.graph hCaller, hs.graph hCallee, hImages⟩

theorem InOrder.yields_reconcileScalars
    (hs : s.InOrder P)
    (cs : CallSite)
    (callee : FunctionDef) :
    Yields (reconcileScalars s cs callee) fun r => r.store.InOrder P := by
  unfold reconcileScalars
  refine (hs.yields_boundary? cs callee).bind ?_
  intro b? hBoundary
  cases b? with
  | none => exact .ok hs
  | some b =>
    rcases b with ⟨callerGraph, calleeGraph, sim⟩
    rcases hBoundary _ rfl with ⟨hCaller, hCallee, hImages⟩
    rcases exists_mappedNodes calleeGraph hImages with ⟨mapped, hRun, hMapped⟩
    dsimp only
    rw [hRun, ok_bind]
    have hInCaller : ∀ m ∈ mapped, callerGraph.hasNode m.imageId = true :=
      fun m hm => hasNode_of_live (hMapped m hm).imageLive
    have hInCallee : ∀ m ∈ mapped, calleeGraph.hasNode m.id = true :=
      fun m hm => hasNode_of_live (hMapped m hm).live
    refine (hCaller.yields_clearScalars ?_).bind ?_
    · intro id hMem
      rw [OrdSet.mem_ofList_iff] at hMem
      rcases List.mem_map.mp hMem with ⟨m, hm, rfl⟩
      exact hInCaller m (List.mem_of_mem_filter (List.mem_of_mem_filter hm))
    · intro g hg
      refine (hCallee.yields_clearScalars ?_).bind ?_
      · intro id hMem
        rw [OrdSet.mem_ofList_iff] at hMem
        rcases List.mem_map.mp hMem with ⟨m, hm, rfl⟩
        exact hInCallee m (List.mem_of_mem_filter (List.mem_of_mem_filter hm))
      · intro h hh
        exact .ok ((hs.setGraph hg _).setGraph hh _)

theorem InOrder.yields_reconcileSites
    {policy : CloningPolicy}
    (hs : s.InOrder P)
    (hP : Strays P p policy)
    (cs : CallSite)
    (callee : FunctionDef) :
    Yields (reconcileSites policy s cs callee) fun r => r.store.InOrder P := by
  unfold reconcileSites
  refine (hs.yields_boundary? cs callee).bind ?_
  intro b? hBoundary
  cases b? with
  | none => exact .ok hs
  | some b =>
    rcases b with ⟨callerGraph, calleeGraph, sim⟩
    rcases hBoundary _ rfl with ⟨hCaller, hCallee, hImages⟩
    rcases exists_mappedNodes calleeGraph hImages with ⟨mapped, hRun, hMapped⟩
    dsimp only
    rw [hRun, ok_bind]
    refine (hCaller.yields_addSites ?_).bind ?_
    · intro e hMem
      rcases mem_flatten_sites hMem with ⟨m, hm, site, hSite, rfl⟩
      refine ⟨hasNode_of_live (hMapped m hm).imageLive, ?_⟩
      intro hStray
      have hNot := not_stack_of_mem_missingSites hSite (hP.stripped _ _ hStray)
      rw [hP.stack _ _ hStray] at hNot
      cases hNot
    · intro g hg
      refine (hCallee.yields_addSites ?_).bind ?_
      · intro e hMem
        rcases mem_flatten_sites hMem with ⟨m, hm, site, hSite, rfl⟩
        refine ⟨hasNode_of_live (hMapped m hm).live, ?_⟩
        intro hStray
        have hNot := not_stack_of_mem_missingSites hSite (hP.kept _ _ hStray)
        rw [hP.stack _ _ hStray] at hNot
        cases hNot
      · intro h hh
        exact .ok ((hs.setGraph hg _).setGraph hh _)

end Store

end HeapShape
