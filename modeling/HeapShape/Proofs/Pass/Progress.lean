import HeapShape.Proofs.CallGraph
import HeapShape.Proofs.Pass.Kept
import HeapShape.Proofs.Worklist

/-
  Passes end well.

  A pass is made of steps that keep the graphs of a store in order, so it
  ends with an answer, with an error of its own or by overflow, and its
  store is in order.

  Main declarations:
    * `Store.InOrder.yields_bottomUpPass`
    * `Store.InOrder.yields_uniqueScalarClosure`
    * `Store.InOrder.yields_allocSiteClosure`
    * `Store.InOrder.yields_checkStable`
-/

-- The Bottom-Up Pass

namespace HeapShape

open Checked Graph

variable {P : OrdSet FunctionId → AllocSite → Prop} {ctx : Context} {s : Store} {g : Graph}

/- The functions that are noted are those of the graph. -/
theorem mem_functions_foldl_addFunction
    {fs : List FunctionId}
    {f : FunctionId} :
    f ∈ (fs.foldl addFunction g).functions ↔ f ∈ g.functions ∨ f ∈ fs := by
  induction fs generalizing g with
  | nil => simp
  | cons e fs ih =>
    rw [List.foldl_cons, ih, List.mem_cons]
    unfold addFunction
    rw [OrdSet.mem_insert_iff]
    tauto

theorem functions_foldl_addFunction_congr
    {h : Graph}
    (hgh : h.functions = g.functions)
    (fs : List FunctionId) :
    (fs.foldl addFunction h).functions = (fs.foldl addFunction g).functions := by
  induction fs generalizing g h with
  | nil => exact hgh
  | cons f fs ih =>
    apply ih
    exact congrArg (OrdSet.insert · f) hgh

theorem Graph.Kept.foldl_addFunction
    {Q : AllocSite → Prop}
    (hg : g.Kept Q)
    (fs : List FunctionId) :
    (fs.foldl Graph.addFunction g).Kept Q := by
  induction fs generalizing g with
  | nil => exact hg
  | cons f fs ih => exact ih (hg.addFunction f)

/-
  The bodies of functions make a graph that is in order once the functions
  are noted.
-/
theorem gives_lowerFunctions_kept
    {p : Program}
    {policy : CloningPolicy}
    (hP : Strays P p policy)
    (hWords : p.InWords)
    (config : GraphConfig)
    {fs : List FunctionDef}
    (hFs : ∀ f ∈ fs, f ∈ p.functions) :
    (lowerFunctions p fs { config := config }).Gives fun g =>
      g.Kept (P ((fs.map FunctionDef.id).foldl addFunction g).functions) := by
  have hEmpty := Kept.empty (P := fun _ => False) config
  have hLowered := fun Q hSites => gives_lowerFunctions Q hEmpty.wellFormed hWords.1
    (fun f hf => hWords.2 f (hFs f hf)) hSites
  refine (hLowered (fun _ => False) (fun _ _ _ _ _ _ h =>
    h)).imp_eq ?_
  rintro r hRun _ g rfl
  -- The kind depends on the functions that the graph has in
  -- the end, so it is chosen once the graph is known.
  generalize hEnd : ((fs.map FunctionDef.id).foldl addFunction g).functions = ids
  have hMem : ∀ f ∈ fs, f.id ∈ ids := by
    intro f hf
    rw [← hEnd, mem_functions_foldl_addFunction]
    exact Or.inr (List.mem_map_of_mem hf)
  have hSites : ∀ f ∈ fs, ∀ op ∈ f.body, ∀ s ∈ op.site?, ¬ P ids s :=
    fun f hf op hOp s hs =>
      hP.home ids f op s (hFs f hf) (hMem f hf) hOp hs
  rcases (hLowered (P ids) hSites).of_eq_ok hRun g rfl with ⟨hg, hCalls, hConfined⟩
  refine ⟨hg, ?_, hConfined _ ?_⟩
  · intro cs cells hCells
    rw [hCalls] at hCells
    cases hCells
  · intro id n site hLive
    cases hLive

namespace Store

variable {stats : BottomUpStats}

/- Connecting a call with one callee. -/
theorem InOrder.yields_resolveCallee
    (hs : s.InOrder P)
    (hP : Strays P ctx.program ctx.config.cloning)
    (cs : CallSite)
    (callee : FunctionDef) :
    Yields (resolveCallee ctx cs (stats, s) callee) fun r => r.2.InOrder P := by
  unfold resolveCallee
  dsimp only
  split
  · split
    · exact .ok hs
    · next g hGraph =>
      have hg := hs.graph hGraph
      refine (Evolves.resolveInPlace (P g.functions)
        (fun _ => False) hg.wellFormed cs callee).bind ?_
      intro h hStep
      exact .ok (hs.setGraph (hg.step hStep) _)
  · refine (hs.yields_bottomUpStep hP cs callee).bind ?_
    intro t? hNext
    cases t? with
    | none => exact .ok hs
    | some t => exact .ok (hNext t rfl)

/- Resolving a call. -/
theorem InOrder.yields_resolveCall
    (hs : s.InOrder P)
    (hP : Strays P ctx.program ctx.config.cloning)
    (cs : CallSite) :
    Yields (resolveCall ctx (stats, s) cs) fun r => r.2.InOrder P := by
  unfold resolveCall
  split
  · exact .ok hs
  · refine Yields.bind (P := fun r => r.2.InOrder P) ?_ ?_
    · refine yields_foldlM hs ?_
      intro state callee _ hState
      exact hState.yields_resolveCallee hP cs callee
    · rintro ⟨stats, t⟩ ht
      dsimp only
      split
      · next g _ hGraph =>
        have hg := ht.graph hGraph
        refine (Evolves.markExternal (P g.functions) (fun _ => False) hg.wellFormed cs).bind ?_
        intro h hStep
        exact .ok (ht.setGraph (hg.step hStep) _)
      · exact .ok ht

theorem InOrder.yields_compressGraph
    (hs : s.InOrder P)
    (f? : Option FunctionId) :
    Yields (compressGraph s f?) (InOrder P) := by
  cases f? with
  | none => exact .ok hs
  | some f =>
    unfold compressGraph
    dsimp only
    split
    · exact .ok hs
    · next g hGraph =>
      refine (hs.graph hGraph).yields_compress.bind ?_
      intro h hh
      exact .ok (hs.setGraph hh f)

theorem InOrder.yields_bottomUpComponent
    (hs : s.InOrder P)
    (hP : Strays P ctx.program ctx.config.cloning)
    (hWords : ctx.program.InWords)
    (component : List FunctionId) :
    Yields (bottomUpComponent ctx stats s component) fun r => r.2.InOrder P := by
  unfold bottomUpComponent
  dsimp only
  split
  · exact .ok hs
  · refine (gives_lowerFunctions_kept hP hWords ctx.config.graph ?_).bind ?_
    · intro f hf
      rcases List.mem_filterMap.mp (List.mem_of_mem_filter hf) with ⟨_, _, hFind⟩
      exact (CallGraph.function?_eq_some hFind).1
    · intro r hLowered
      cases r with
      | error e => exact .ok hs
      | ok g =>
        have ht := hs.insert ((hLowered g rfl).foldl_addFunction _)
        refine Yields.bind (P := fun r => r.2.InOrder P) ?_ ?_
        · refine yields_foldlM ht ?_
          intro state cs _ hState
          exact hState.yields_resolveCall hP cs
        · rintro ⟨stats, t⟩ ht
          refine (ht.yields_compressGraph _).bind ?_
          intro t ht
          exact .ok ht

theorem InOrder.yields_bottomUpComponents
    (hs : s.InOrder P)
    (hP : Strays P ctx.program ctx.config.cloning)
    (hWords : ctx.program.InWords)
    (components : List (List FunctionId)) :
    Yields (bottomUpComponents ctx stats s components) fun r => r.2.InOrder P := by
  induction components generalizing stats s with
  | nil => exact .ok hs
  | cons component rest ih =>
    unfold bottomUpComponents
    refine (hs.yields_bottomUpComponent hP hWords component).bind ?_
    rintro ⟨answer, t⟩ ht
    cases answer with
    | ok stats => exact ih ht
    | error e => exact .ok ht

theorem InOrder.yields_bottomUpPass
    (hs : s.InOrder P)
    (hP : Strays P ctx.program ctx.config.cloning)
    (hWords : ctx.program.InWords) :
    Yields (bottomUpPass ctx s) fun r => r.2.InOrder P :=
  hs.yields_bottomUpComponents hP hWords _

-- The Top-Down Pass

theorem InOrder.yields_pushContext
    {stats : TopDownStats}
    (hs : s.InOrder P)
    (hP : Strays P ctx.program ctx.config.cloning)
    (cs : CallSite)
    (callee : FunctionDef) :
    Yields (pushContext ctx cs (stats, s) callee) fun r => r.2.InOrder P := by
  unfold pushContext
  dsimp only
  refine (hs.yields_topDownStep hP cs callee).bind ?_
  intro t? hNext
  cases t? with
  | none => exact .ok hs
  | some r => exact .ok (hNext r rfl)

theorem InOrder.yields_pushCall
    {stats : TopDownStats}
    (hs : s.InOrder P)
    (hP : Strays P ctx.program ctx.config.cloning)
    (cs : CallSite) :
    Yields (pushCall ctx (stats, s) cs) fun r => r.2.InOrder P := by
  unfold pushCall
  split
  · refine yields_foldlM hs ?_
    intro state callee _ hState
    exact hState.yields_pushContext hP cs callee
  · exact .ok hs

theorem InOrder.yields_topDownComponent
    {stats : TopDownStats}
    (hs : s.InOrder P)
    (hP : Strays P ctx.program ctx.config.cloning)
    (component : List FunctionId) :
    Yields (topDownComponent ctx (stats, s) component) fun r => r.2.InOrder P := by
  unfold topDownComponent
  refine Yields.bind (P := fun r => r.2.InOrder P) ?_ ?_
  · refine yields_foldlM hs ?_
    intro state cs _ hState
    exact hState.yields_pushCall hP cs
  · rintro ⟨stats, t⟩ ht
    dsimp only
    split
    · exact .ok ht
    · exact .ok ht

theorem InOrder.yields_topDownPass
    (hs : s.InOrder P)
    (hP : Strays P ctx.program ctx.config.cloning) :
    Yields (topDownPass ctx s) fun r => r.2.InOrder P := by
  refine yields_foldlM hs ?_
  intro state component _ hState
  exact hState.yields_topDownComponent hP component

-- Work Lists

/- A closure whose steps end well ends well. -/
theorem InOrder.yields_runClosure
    {reconcile : Reconcile}
    (hReconcile : ∀ t cs callee, t.InOrder P →
      Yields (reconcile t cs callee) fun r =>
        r.store.InOrder P)
    (hs : s.InOrder P) :
    Yields (runClosure ctx reconcile s) fun r => r.2.InOrder P := by
  unfold runClosure
  refine (Worklist.yields_drainWithin (Q := fun state => state.2.InOrder P) ?_ hs).bind ?_
  · rintro id ⟨changes, t⟩ w ht
    unfold closureStep
    dsimp only
    split
    · exact .ok ht
    · split
      · refine Yields.bind (P := fun r => r.2.1.InOrder P) ?_ ?_
        · refine yields_foldlM ht ?_
          rintro ⟨changes, u, w⟩ callee _ hu
          unfold closeCallee
          dsimp only
          split
          · exact .ok hu
          · refine (hReconcile u _ callee hu).bind ?_
            intro r hr
            exact .ok hr
        · rintro ⟨changes, u, w⟩ hu
          exact .ok hu
      · exact .ok ht
  · rintro ⟨outcome, ⟨changes, t⟩, rest⟩ ht
    cases outcome with
    | ok iterations => exact .ok ht
    | error e => exact .ok ht

theorem InOrder.yields_uniqueScalarClosure
    (hs : s.InOrder P) :
    Yields (uniqueScalarClosure ctx s) fun r => r.2.InOrder P :=
  yields_runClosure (fun _ cs callee ht =>
    ht.yields_reconcileScalars cs callee) hs

theorem InOrder.yields_allocSiteClosure
    (hs : s.InOrder P)
    (hP : Strays P ctx.program ctx.config.cloning) :
    Yields (allocSiteClosure ctx s) fun r => r.2.InOrder P :=
  yields_runClosure (fun _ cs callee ht =>
    ht.yields_reconcileSites hP cs callee) hs

theorem InOrder.yields_settleCallee
    {stats : FixpointStats}
    {w : Worklist CallSiteId}
    (hs : s.InOrder P)
    (hP : Strays P ctx.program ctx.config.cloning)
    (cs : CallSite)
    (callee : FunctionDef) :
    Yields (settleCallee ctx cs (stats, s, w) callee) fun r => r.2.1.InOrder P := by
  unfold settleCallee
  dsimp only
  refine (hs.yields_decide ctx cs callee).bind ?_
  intro need _
  cases need with
  | settled => exact .ok hs
  | down =>
    refine (hs.yields_topDownStep hP cs callee).bind ?_
    intro t? hNext
    cases t? with
    | none => exact .ok hs
    | some r => exact .ok (hNext r rfl)
  | up =>
    refine (hs.yields_bottomUpStep hP cs callee).bind ?_
    intro t? hNext
    cases t? with
    | none => exact .ok hs
    | some t => exact .ok (hNext t rfl)

/- What a call still needs can be told. -/
theorem InOrder.yields_pending
    (hs : s.InOrder P)
    (ctx : Context)
    (cs : CallSite) :
    Yields (ctx.pending s cs) fun _ => True := by
  unfold Context.pending
  split
  · induction ctx.definedCallees cs with
    | nil => exact .ok trivial
    | cons callee rest ih =>
      unfold Context.firstNeed
      refine (hs.yields_decide ctx cs callee).bind ?_
      intro need _
      cases need with
      | settled => exact ih
      | down => exact .ok trivial
      | up => exact .ok trivial
  · exact .ok trivial

theorem InOrder.yields_pendingCalls
    (hs : s.InOrder P) :
    Yields (pendingCalls ctx s) fun _ => True := by
  refine (Checked.yields_filterM ?_).imp fun _ _ => trivial
  intro id _
  split
  · exact .ok trivial
  · refine (hs.yields_pending ctx _).bind ?_
    intro need _
    exact .ok trivial

theorem InOrder.yields_runFixpoint
    (hs : s.InOrder P)
    (hP : Strays P ctx.program ctx.config.cloning) :
    Yields (runFixpoint ctx s) fun r => r.2.InOrder P := by
  unfold runFixpoint
  refine hs.yields_pendingCalls.bind ?_
  intro seeds _
  refine (Worklist.yields_drainWithin (Q := fun state => state.2.InOrder P) ?_ hs).bind ?_
  · rintro id ⟨stats, t⟩ w ht
    unfold fixpointStep
    dsimp only
    split
    · exact .ok ht
    · split
      · refine Yields.bind (P := fun r => r.2.1.InOrder P) ?_ ?_
        · refine yields_foldlM ht ?_
          rintro ⟨stats, u, w⟩ callee _ hu
          exact hu.yields_settleCallee hP _ callee
        · rintro ⟨stats, u, w⟩ hu
          exact .ok hu
      · exact .ok ht
  · rintro ⟨outcome, ⟨stats, t⟩, rest⟩ ht
    cases outcome with
    | ok n => exact .ok ht
    | error e => exact .ok ht

theorem InOrder.yields_checkStable
    (hs : s.InOrder P) :
    Yields (checkStable ctx s) fun _ => True := by
  unfold checkStable
  induction ctx.callGraph.order with
  | nil => exact .ok trivial
  | cons id rest ih =>
    unfold firstUnstable
    split
    · exact ih
    · refine (hs.yields_pending ctx _).bind ?_
      intro need _
      cases need with
      | settled => exact ih
      | down => exact .ok trivial
      | up => exact .ok trivial

end Store

end HeapShape
