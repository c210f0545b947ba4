import HeapShape.Proofs.Pass.Fixpoint
import HeapShape.Proofs.Simulation

/-
  The closures change no decision.

  A closure clears unique scalars or adds allocation sites. It leaves the
  shapes of all graphs as they are, and what a call needs is read from
  shapes.

  Main declarations:
    * `Store.SameShapes`
    * `keepsShapes_reconcileScalars`
    * `keepsShapes_reconcileSites`
    * `runClosure_spec`
-/

-- Stores Of The Same Shapes

namespace HeapShape

open Checked

namespace Store

/- The same functions own graphs of the same shapes. -/
structure SameShapes
    (s t : Store) : Prop extends SameOwners s t where
  shapes : ∀ f g, s.graph? f = some g →
    ∃ h, t.graph? f = some h ∧ g.SameShape h

variable {r s t : Store} {a b : FunctionId} {g g' h h' : Graph}

theorem SameShapes.refl
    (s : Store) : SameShapes s s where
  toSameOwners := .refl s
  shapes := fun _ g hGraph => ⟨g, hGraph, .refl g⟩

theorem SameShapes.trans
    (hrs : SameShapes r s)
    (hst : SameShapes s t) :
    SameShapes r t where
  toSameOwners := hrs.toSameOwners.trans hst.toSameOwners
  shapes := by
    intro f g hGraph
    rcases hrs.shapes f g hGraph with ⟨g₁, hGraph₁, hShape₁⟩
    rcases hst.shapes f g₁ hGraph₁ with ⟨g₂, hGraph₂, hShape₂⟩
    exact ⟨g₂, hGraph₂, hShape₁.trans hShape₂⟩

/- A graph is replaced by one of its shape. -/
theorem sameShapes_setGraph
    (hGraph : s.graph? a = some g)
    (hShape : g.SameShape h) :
    SameShapes s (s.setGraph a h) where
  toSameOwners := s.sameOwners_setGraph a h
  shapes := by
    intro f g' hGraph'
    rw [graph?_setGraph hGraph]
    split
    · next hSame =>
      rcases sameGraph_iff.mp hSame with ⟨i, ha, hf⟩
      unfold graph? at hGraph hGraph'
      rw [ha] at hGraph
      rw [hf, hGraph] at hGraph'
      cases hGraph'
      exact ⟨h, rfl, hShape⟩
    · exact ⟨g', hGraph', .refl g'⟩

/- The graphs of both ends of a call are replaced. -/
theorem sameShapes_setGraph_setGraph
    (hApart : s.sameGraph a b = false)
    (ha : s.graph? a = some g)
    (hb : s.graph? b = some h)
    (hg : g.SameShape g')
    (hh : h.SameShape h') :
    SameShapes s ((s.setGraph a g').setGraph b h') := by
  have hb' : (s.setGraph a g').graph? b = some h := by
    rw [graph?_setGraph ha, hApart]
    exact hb
  exact (sameShapes_setGraph ha hg).trans (sameShapes_setGraph hb' hh)

end Store

namespace Context

variable {ctx : Context} {s t : Store}

theorem decide_eq_of_sameShapes
    (hst : s.SameShapes t)
    (cs : CallSite)
    (callee : FunctionDef) :
    ctx.decide t cs callee = ctx.decide s cs callee := by
  cases hPair : s.pair? cs.caller callee.id with
  | none =>
    have hNone := hst.isSome_pair? cs.caller callee.id
    rw [hPair] at hNone
    apply decide_eq
    rw [hPair]
    exact Option.not_isSome_iff_eq_none.mp (by simp [hNone])
  | some pair =>
    rcases pair with ⟨g, h⟩
    rcases Store.pair?_eq_some_iff.mp hPair with ⟨hApart, hCaller, hCallee⟩
    rcases hst.shapes _ g hCaller with ⟨g', hCaller', hShape⟩
    rcases hst.shapes _ h hCallee with ⟨h', hCallee', hShape'⟩
    have hPair' : t.pair? cs.caller callee.id = some (g', h') := by
      rw [Store.pair?_eq_some_iff, hst.sameGraph_eq]
      exact ⟨hApart, hCaller', hCallee'⟩
    unfold Context.decide
    rw [hPair, hPair']
    dsimp only
    rw [Simulation.ofCall_eq hShape' hShape]

/- What a call needs is read from shapes. -/
theorem pending_eq_of_sameShapes
    (hst : s.SameShapes t)
    (cs : CallSite) :
    ctx.pending t cs = ctx.pending s cs := by
  unfold Context.pending
  rw [firstNeed_eq fun f _ => decide_eq_of_sameShapes hst cs f]

end Context

-- Reconciling Two Graphs

/- Reconciling two graphs leaves their shapes alone. -/
def KeepsShapes
    (reconcile : Reconcile) : Prop :=
  ∀ s cs callee r,
    s.sameGraph cs.caller callee.id = false →
    reconcile s cs callee = .ok r → s.SameShapes r.store

variable {g h : Graph} {s : Store} {cs : CallSite} {callee : FunctionDef}

theorem sameShape_clearScalars
    {ids : OrdSet NodeId}
    (hRun : clearScalars g ids = .ok h) :
    g.SameShape h := by
  refine foldlM_induction (P := g.SameShape) ?_ (.refl g) hRun
  intro g₁ id _ g₂ hShape hStep
  exact hShape.trans (Graph.sameShape_modifyNode hStep fun _ => rfl)

theorem sameShape_addSites
    {sites : List (NodeId × AllocSite)}
    (hRun : addSites g sites = .ok h) :
    g.SameShape h := by
  refine foldlM_induction (P := g.SameShape) ?_ (.refl g) hRun
  rintro g₁ ⟨id, site⟩ _ g₂ hShape hStep
  exact hShape.trans (Graph.sameShape_modifyNode hStep fun _ => rfl)

/- The graphs at a boundary are those of its ends. -/
theorem boundary?_eq_ok
    {sim : Simulation}
    (hRun : boundary? s cs callee = .ok (some (g, h, sim))) :
    s.graph? cs.caller = some g ∧ s.graph? callee.id = some h := by
  unfold boundary? at hRun
  split at hRun
  · next callerGraph calleeGraph hCaller hCallee =>
    rcases of_bind hRun with ⟨sim', _, hRun⟩
    split at hRun
    · cases hRun
      exact ⟨hCaller, hCallee⟩
    · cases hRun
  · cases hRun

theorem keepsShapes_reconcileScalars :
    KeepsShapes reconcileScalars := by
  intro s cs callee r hApart hRun
  unfold reconcileScalars at hRun
  rcases of_bind hRun with ⟨ends?, hEnds, hRun⟩
  cases ends? with
  | none =>
    cases hRun
    exact .refl s
  | some ends =>
    rcases ends with ⟨g, h, sim⟩
    rcases boundary?_eq_ok hEnds with ⟨hCaller, hCallee⟩
    dsimp only at hRun
    rcases of_bind hRun with ⟨mapped, _, hRun⟩
    rcases of_bind hRun with ⟨g', hg, hRun⟩
    rcases of_bind hRun with ⟨h', hh, hRun⟩
    cases hRun
    exact Store.sameShapes_setGraph_setGraph hApart hCaller hCallee (sameShape_clearScalars hg)
      (sameShape_clearScalars hh)

theorem keepsShapes_reconcileSites
    (policy : CloningPolicy) :
    KeepsShapes (reconcileSites policy) := by
  intro s cs callee r hApart hRun
  unfold reconcileSites at hRun
  rcases of_bind hRun with ⟨ends?, hEnds, hRun⟩
  cases ends? with
  | none =>
    cases hRun
    exact .refl s
  | some ends =>
    rcases ends with ⟨g, h, sim⟩
    rcases boundary?_eq_ok hEnds with ⟨hCaller, hCallee⟩
    dsimp only at hRun
    rcases of_bind hRun with ⟨mapped, _, hRun⟩
    rcases of_bind hRun with ⟨g', hg, hRun⟩
    rcases of_bind hRun with ⟨h', hh, hRun⟩
    cases hRun
    exact Store.sameShapes_setGraph_setGraph hApart hCaller hCallee (sameShape_addSites hg)
      (sameShape_addSites hh)

-- Runs

variable {ctx : Context} {reconcile : Reconcile} {t : Store}

/- Making a call agree with one callee. -/
theorem closeCallee_spec
    (hReconcile : KeepsShapes reconcile)
    {state state' : ClosureState}
    (hRun : closeCallee ctx reconcile cs state callee = .ok state') :
    state.2.1.SameShapes state'.2.1 := by
  rcases state with ⟨changes, s, w⟩
  unfold closeCallee at hRun
  dsimp only at hRun
  split at hRun
  · cases hRun
    exact .refl s
  · next hApart =>
    rcases of_bind hRun with ⟨r, hStep, hRun⟩
    cases hRun
    exact hReconcile s cs callee r (by simpa using hApart) hStep

theorem keeps_closureStep
    (hReconcile : KeepsShapes reconcile)
    (start : Store) :
    Worklist.Keeps (closureStep ctx reconcile) fun state _ => start.SameShapes state.2 := by
  rintro a rest ⟨changes, s⟩ answer ⟨changes', t⟩ w' hBefore hRun
  unfold closureStep at hRun
  dsimp only at hRun
  split at hRun
  · cases hRun
    exact ⟨rfl, hBefore⟩
  · next cs hFind =>
    split at hRun
    · rcases of_bind hRun with ⟨state, hFold, hRun⟩
      cases hRun
      refine ⟨rfl, ?_⟩
      refine foldlM_induction (P := fun state => start.SameShapes state.2.1) ?_ hBefore hFold
      intro state callee _ state' hShapes hStep
      exact hShapes.trans (closeCallee_spec hReconcile hStep)
    · cases hRun
      exact ⟨rfl, hBefore⟩

/- A closure keeps all shapes, or is stopped by its limit. -/
theorem runClosure_spec
    (hReconcile : KeepsShapes reconcile)
    {answer : Except AnalysisError ClosureStats}
    (hRun : runClosure ctx reconcile s = .ok (answer, t)) :
    (∃ stats, answer = .ok stats ∧ s.SameShapes t) ∨
      ∃ n limit, answer = .error (.iterationLimit n limit) := by
  unfold runClosure at hRun
  dsimp only at hRun
  rcases of_bind hRun with ⟨run, hDrain, hRun⟩
  rcases Worklist.drainWithin_spec (keeps_closureStep hReconcile s) (.refl s) hDrain with
    ⟨n, hOk, hEnd⟩ | ⟨n, hError, _⟩
  · rw [hOk] at hRun
    cases hRun
    exact Or.inl ⟨_, rfl, hEnd⟩
  · rw [hError] at hRun
    cases hRun
    exact Or.inr ⟨n, _, rfl⟩

end HeapShape
