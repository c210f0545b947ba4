import HeapShape.Proofs.Analysis.Progress
import HeapShape.Proofs.Graph.Swept
import HeapShape.Proofs.Pass.Stable
import HeapShape.Proofs.Propagation.Discharge
import HeapShape.Proofs.Simulation.Trimmed

/-
  Cleaning changes no decision.

  What a call needs is read from the simulation between two graphs, and the
  simulation is the same after the graphs were cleaned. So a run that ended
  with all calls settled has nothing left to do when it is asked to go on.

  Main declarations:
    * `Graph.Trimmed.of_clean`
    * `Analysis.closeAndCheck_eq_ok`
    * `runFixpoint_of_settled`
    * `cleaning_changes_no_decision`
-/

-- Decisions

namespace HeapShape

open Checked

namespace Graph

variable {g h : Graph}

/- Recorded calls play no part in what is looked up. -/
theorem Trimmed.of_clean
    (hg : g.WellFormed)
    {count : Nat}
    (hRun : g.clean = .ok (count, h)) :
    Trimmed g.clearCallSites h :=
  .of_removeDead (hg.congr rfl rfl rfl rfl) hRun

theorem sameShape_clearCallSites
    (g : Graph) :
    SameShape g g.clearCallSites where
  config := rfl
  roots := rfl
  size := rfl
  resolve := by
    funext c
    exact resolveWithin_eq (g := g) (h := g.clearCallSites) (fun _ => Or.inl rfl) _ c
  occupied := fun _ => rfl
  nodes := fun _ => rfl

/- A link or a root that has no live cell. -/
def Strays
    (g : Graph) : Prop :=
  ∃ c, g.clearCallSites.Stores c ∧
    g.resolve c = .error .addOverflow

/- Only such a cell keeps a graph from being cleaned. -/
theorem WellFormed.strays_of_clean
    (hg : g.WellFormed)
    {fault : Fault}
    (hRun : g.clean = .error fault) :
    fault = .addOverflow ∧ g.Strays := by
  have hBare : g.clearCallSites.WellFormed :=
    hg.congr rfl rfl rfl rfl
  rcases hBare.overflow_of_removeDead nofun hRun with
    ⟨hFault, c, hc, hOver⟩
  rw [g.sameShape_clearCallSites.resolve] at hOver
  exact ⟨hFault, c, hc, hOver⟩

end Graph

/- The simulation at a call survives the cleaning. -/
theorem Simulation.ofCall_clean
    {callee callee' caller caller' : Graph}
    {m n : Nat}
    (hCallee : callee.WellFormed)
    (hCaller : caller.WellFormed)
    (hCalleeRun : callee.clean = .ok (m, callee'))
    (hCallerRun : caller.clean = .ok (n, caller'))
    (cs : CallSite)
    (f : FunctionDef) :
    ofCall cs f callee' caller' = ofCall cs f callee caller := by
  have hBareCallee : callee.clearCallSites.WellFormed := hCallee.congr rfl rfl rfl rfl
  have hBareCaller : caller.clearCallSites.WellFormed := hCaller.congr rfl rfl rfl rfl
  rw [ofCall_trimmed hBareCallee hBareCaller (.of_clean hCallee hCalleeRun)
    (.of_clean hCaller hCallerRun)]
  exact ofCall_eq callee.sameShape_clearCallSites caller.sameShape_clearCallSites cs f

variable {s t : Store} {counts : List Nat}

theorem Store.strays_of_clean
    (hs : ∀ g ∈ s.graphs, g.WellFormed)
    {fault : Fault}
    (hRun : s.clean = .error fault) :
    fault = .addOverflow ∧ ∃ g ∈ s.graphs, g.Strays := by
  unfold Store.clean Store.mapGraphs at hRun
  rcases bind_eq_error hRun with hFail | ⟨_, _, hRun⟩
  · rcases Checked.mapM_eq_error hFail with ⟨g, hMem, hg⟩
    have hIn := Array.mem_toList_iff.mp hMem
    rcases (hs g hIn).strays_of_clean hg with ⟨hFault, hStrays⟩
    exact ⟨hFault, g, hIn, hStrays⟩
  · cases hRun

theorem Context.decide_clean
    (hs : ∀ g ∈ s.graphs, g.WellFormed)
    (hRun : s.clean = .ok (counts, t))
    (ctx : Context)
    (cs : CallSite)
    (callee : FunctionDef) :
    ctx.decide t cs callee = ctx.decide s cs callee := by
  rcases Store.mapGraphs_eq_ok hRun with ⟨hOwners, hGraphs⟩
  unfold Context.decide
  cases hPair : s.pair? cs.caller callee.id with
  | none =>
    have hNone := hOwners.isSome_pair? cs.caller callee.id
    rw [hPair, Option.isSome_none, Option.isSome_eq_false_iff, Option.isNone_iff_eq_none] at hNone
    rw [hNone]
  | some pair =>
    rcases pair with ⟨caller, own⟩
    rcases Store.pair?_eq_some_iff.mp hPair with ⟨hApart, hCaller, hCallee⟩
    rcases hGraphs _ caller hCaller with ⟨_, caller', hCleanCaller, hCaller'⟩
    rcases hGraphs _ own hCallee with ⟨_, own', hCleanCallee, hCallee'⟩
    have hPair' : t.pair? cs.caller callee.id = some (caller', own') := by
      rw [Store.pair?_eq_some_iff, hOwners.sameGraph_eq]
      exact ⟨hApart, hCaller', hCallee'⟩
    have hSim : Simulation.ofCall cs callee own' caller' = Simulation.ofCall cs callee own caller :=
      Simulation.ofCall_clean (hs _ (Store.mem_graphs hCallee))
        (hs _ (Store.mem_graphs hCaller)) hCleanCallee
        hCleanCaller cs callee
    rw [hPair']
    dsimp only
    rw [hSim]

-- Settled Calls

variable {ctx : Context}

theorem Context.pending_clean
    (hs : ∀ g ∈ s.graphs, g.WellFormed)
    (hRun : s.clean = .ok (counts, t))
    (ctx : Context)
    (cs : CallSite) :
    ctx.pending t cs = ctx.pending s cs := by
  have hNeed : ∀ callees, ctx.firstNeed t cs callees = ctx.firstNeed s cs callees := by
    intro callees
    induction callees with
    | nil => rfl
    | cons callee rest ih =>
      unfold Context.firstNeed
      rw [Context.decide_clean hs hRun, ih]
  unfold Context.pending
  rw [hNeed]

/- After a check without an error all calls are settled. -/
theorem settled_of_firstUnstable
    {ids : List CallSiteId}
    (hRun : firstUnstable ctx s ids = .ok (.ok ())) :
    ∀ id ∈ ids, ∀ cs, ctx.callSite? id = some cs → ctx.pending s cs = .ok .settled := by
  induction ids with
  | nil => nofun
  | cons id rest ih =>
    rw [List.forall_mem_cons]
    unfold firstUnstable at hRun
    split at hRun
    · next hNone =>
      refine ⟨?_, ih hRun⟩
      intro cs hFind
      rw [hNone] at hFind
      cases hFind
    · next cs hFind =>
      rcases of_bind hRun with ⟨need, hPending, hRun⟩
      cases need with
      | settled =>
        refine ⟨?_, ih hRun⟩
        intro cs' hFind'
        rw [hFind] at hFind'
        cases hFind'
        exact hPending
      | down => cases hRun
      | up => cases hRun

/- Where all calls are settled, none is pending. -/
theorem pendingCalls_of_settled
    (hSettled : ∀ id ∈ ctx.callGraph.order, ∀ cs,
      ctx.callSite? id = some cs →
      ctx.pending s cs = .ok .settled) :
    pendingCalls ctx s = .ok [] := by
  refine Checked.filterM_eq_nil ?_
  intro id hMem
  cases hFind : ctx.callSite? id with
  | none => rfl
  | some cs =>
    dsimp only
    rw [hSettled id hMem cs hFind]
    rfl

/- The fixpoint then has nothing to do. -/
theorem runFixpoint_of_settled
    (hSettled : ∀ id ∈ ctx.callGraph.order, ∀ cs,
      ctx.callSite? id = some cs →
      ctx.pending s cs = .ok .settled) :
    runFixpoint ctx s = .ok (.ok {}, s) := by
  unfold runFixpoint
  rw [pendingCalls_of_settled hSettled, ok_bind]
  unfold Worklist.drain Worklist.drainWithin
  rfl

namespace Analysis

variable {a a' : Analysis}

/- What a run that passes the check leaves behind. -/
theorem closeAndCheck_eq_ok
    (hRun : a.closeAndCheck ctx = .ok (.ok (), a')) :
    a'.config = a.config ∧ a'.callGraph? = a.callGraph? ∧
      (a.config.fixpoint.checkPostcondition = true →
          checkStable ctx a'.store = .ok (.ok ())) := by
  unfold closeAndCheck at hRun
  dsimp only at hRun
  rcases exists_of_optional_closure (fun _ _ hClosure =>
      runClosure_spec keepsShapes_reconcileScalars hClosure)
      hRun with ⟨_, s, _, hRun⟩ | ⟨n, limit, s, hRun⟩
  · dsimp only at hRun
    rcases exists_of_optional_closure (fun _ _ hClosure =>
        runClosure_spec (keepsShapes_reconcileSites _) hClosure) hRun with
      ⟨_, t, _, hRun⟩ | ⟨n, limit, t, hRun⟩
    · dsimp only at hRun
      split at hRun
      · rcases of_bind hRun with ⟨verdict, hCheck, hRun⟩
        cases hRun
        exact ⟨rfl, rfl, fun _ => hCheck⟩
      · next hOff =>
        cases hRun
        exact ⟨rfl, rfl, fun hOn => absurd hOn hOff⟩
    · cases hRun
  · cases hRun

/- A run that ends well has been checked before cleaning. -/
theorem runContextSensitive_eq_ok
    {p : Program}
    (hWords : p.InWords)
    {stats : ContextSensitiveStats}
    (hRun : a.runContextSensitive p = .ok (.ok stats, a')) :
    ∃ s counts, (∀ g ∈ s.graphs, g.WellFormed) ∧ s.clean = .ok (counts, a'.store) ∧
      a'.config = a.config ∧
      a'.callGraph? = some (CallGraph.ofProgram p) ∧
      (a.config.fixpoint.checkPostcondition = true →
        checkStable (.ofProgram p a.config) s = .ok (.ok ())) := by
  have hNone : Strays (fun _ _ => False) p
      a.config.cloning :=
    ⟨nofun, nofun, nofun, fun _ _ _ _ _ _ _ _ h => h⟩
  unfold runContextSensitive at hRun
  dsimp only at hRun
  rcases of_bind hRun with ⟨⟨up, s₁⟩, hUp, hRun⟩
  have hs₁ := (Store.InOrder.empty.yields_bottomUpPass hNone hWords).of_eq_ok hUp
  cases up with
  | error e => cases hRun
  | ok up =>
    dsimp only at hRun
    rcases of_bind hRun with ⟨⟨fix, s₂⟩, hFix, hRun⟩
    have hs₂ := (hs₁.yields_runFixpoint hNone).of_eq_ok hFix
    cases fix with
    | error e => cases hRun
    | ok fix =>
      dsimp only at hRun
      rcases of_bind hRun with ⟨⟨verdict, b⟩, hClose, hRun⟩
      cases verdict with
      | error e => cases hRun
      | ok _ =>
        have hb := (yields_closeAndCheck hs₂ hNone).of_eq_ok hClose
        rcases closeAndCheck_eq_ok hClose with ⟨hConfig, hGraph, hCheck⟩
        dsimp only at hRun
        rcases of_bind hRun with ⟨⟨counts, t⟩, hClean, hRun⟩
        cases hRun
        exact ⟨b.store, counts, fun g hg => (hb.1 g hg).wellFormed, hClean, hConfig, hGraph, hCheck⟩

end Analysis

/-
  Cleaning a store of well-formed graphs leaves every decision as it was. It
  fails only where a link or a root has no live cell, because the offset
  leaves the word range. So a context-sensitive run that ended well, with
  the final check, has nothing left to do: asked to go on, it takes no step
  and changes no graph.
-/
theorem cleaning_changes_no_decision :
    (∀ s : Store, (∀ g ∈ s.graphs, g.WellFormed) →
      Checked.YieldsUnless (∃ g ∈ s.graphs, g.Strays)
        s.clean fun r => ∀ (ctx : Context) (cs : CallSite)
          (callee : FunctionDef),
          ctx.decide r.2 cs callee =
            ctx.decide s cs callee) ∧
    (∀ (a a' : Analysis) (p : Program)
        (stats : ContextSensitiveStats),
      p.InWords →
      a.config.fixpoint.checkPostcondition = true →
      a.runContextSensitive p = .ok (.ok stats, a') →
      a'.propagate p =
        .ok (.ok {
          seeded := 0
          itemsProcessed := 0
          downSteps := 0
          upSteps := 0 }, a')) := by
  refine ⟨?_, ?_⟩
  · intro s hs
    cases hRun : s.clean with
    | error fault =>
      rcases Store.strays_of_clean hs hRun with ⟨rfl, hStrays⟩
      exact Or.inl ⟨hStrays, rfl⟩
    | ok r => exact .ok (Context.decide_clean hs hRun)
  · intro a a' p stats hWords hCheck hRun
    rcases Analysis.runContextSensitive_eq_ok hWords hRun with
      ⟨s, counts, hs, hClean, hConfig, hGraph, hStable⟩
    have hSettled := settled_of_firstUnstable (hStable hCheck)
    have hContext : a'.context p (CallGraph.ofProgram p) =
        .ofProgram p a.config := by
      rw [Analysis.context, hConfig]
      rfl
    have hRest : runFixpoint (.ofProgram p a.config)
        a'.store = .ok (.ok {}, a'.store) := by
      refine runFixpoint_of_settled ?_
      intro id hMem cs hFind
      rw [Context.pending_clean hs hClean]
      exact hSettled id hMem cs hFind
    unfold Analysis.propagate
    split
    · next hNone =>
      rw [hGraph] at hNone
      cases hNone
    · next c hSome =>
      rw [hGraph] at hSome
      cases hSome
      rw [hContext, hRest]
      rfl

/-
  Two objects that the callee keeps apart. One has a link to a node that was
  merged, and one node is dead.
-/
def staleCallee : List Update :=
  [.createNode (Flags.ofList [.modified]) 8,
    .createNode (Flags.ofList [.modified]) 8,
    .createNode Flags.empty 8,
    .createNode Flags.empty 8,
    .createNode Flags.empty 8,
    .merge (.addLink ⟨0, 0⟩ none ⟨2, 0⟩),
    .merge (.unify ⟨3, 0⟩ ⟨2, 0⟩),
    .merge (.bindRoot (.formal 0) (some ⟨0, 0⟩)),
    .merge (.bindRoot (.formal 1) (some ⟨1, 0⟩))]

/- One object with a link, passed twice. -/
def linkedCaller : List Update :=
  [.createNode Flags.empty 8,
    .createNode Flags.empty 8,
    .merge (.addLink ⟨0, 0⟩ none ⟨1, 0⟩),
    .merge (.bindRoot (.scalar 7) (some ⟨0, 0⟩))]

/-
  A callee that loses a dead node still needs a step down. A run that took
  two steps takes none when it goes on.
-/
theorem cleaning_changes_no_decision_of_twoCallers :
    (∃ s t, (∀ g ∈ s.graphs, g.WellFormed) ∧
      s.clean = .ok ([1, 0], t) ∧
      Context.decide ⟨{}, {}, {}⟩ s pairCall pairFunction =
        .ok .down ∧
      Context.decide ⟨{}, {}, {}⟩ t pairCall pairFunction =
        .ok .down) ∧
    ∃ stats a',
      (Analysis.new {}).runContextSensitive twoCallers =
        .ok (.ok stats, a') ∧
      stats.fixpoint.steps = 2 ∧
      a'.propagate twoCallers =
        .ok (.ok {
          seeded := 0
          itemsProcessed := 0
          downSteps := 0
          upSteps := 0 }, a') := by
  constructor
  · rcases Update.exists_runs {} staleCallee linkedCaller
        (P := fun g h =>
          (Store.ofPair g h).clean.map Prod.fst =
            .ok [1, 0] ∧
          Context.decide ⟨{}, {}, {}⟩ (Store.ofPair g h)
            pairCall pairFunction = .ok .down)
        (by decide) (by decide +kernel) with
      ⟨callee, caller, _, _, hCallee, hCaller, hClean, hDown⟩
    rcases Checked.map_eq_ok_iff.mp hClean with
      ⟨⟨_, t⟩, hRun, rfl⟩
    have hs : ∀ g ∈ (Store.ofPair callee caller).graphs,
        g.WellFormed := by
      simpa [Store.ofPair] using ⟨hCallee, hCaller⟩
    refine ⟨_, t, hs, hRun, hDown, ?_⟩
    rw [(cleaning_changes_no_decision.1 _ hs).of_eq_ok hRun]
    exact hDown
  · have hRun : (do
        let ran ←
          (Analysis.new {}).runContextSensitive twoCallers
        return ran.1.toOption.map fun stats =>
          stats.fixpoint.steps) = Except.ok (some 2) := by
      cbv
    rw [Checked.bind_eq_ok_iff] at hRun
    rcases hRun with ⟨⟨answer, a'⟩, hRun, hSteps⟩
    cases answer with
    | error e => cases hSteps
    | ok stats =>
        exact ⟨stats, a', hRun, Option.some.inj
          (Except.ok.inj hSteps),
          cleaning_changes_no_decision.2 _ a' twoCallers stats
            (by decide) rfl hRun⟩

end HeapShape
