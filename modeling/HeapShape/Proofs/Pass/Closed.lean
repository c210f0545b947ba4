import HeapShape.Proofs.Graph.Congruence
import HeapShape.Proofs.Pass.Stable

/-
  What the closures close.

  A closure visits a call until its two sides agree. A visit that changes a
  graph queues the calls of the function the change was made at, so a call
  that is covered is visited again after every change that it can see. At
  the end the covered calls are closed. Where all calls are, running the
  closure again changes nothing.

  Main declarations:
    * `Simulation.Relates`
    * `closed_of_runClosure`
    * `runClosure_of_closed`
    * `closures_close_covered_calls`
-/

-- Closed Calls

namespace HeapShape

open Checked

/- Nodes that had a unique scalar each have the same. -/
def Node.ScalarsAgree
    (n image : Node) : Prop :=
  n.uniqueScalar.everHad = true →
  image.uniqueScalar.everHad = true →
    n.uniqueScalar.value? = image.uniqueScalar.value?

/-
  A callee node and its image have sites of the same numbers, but for stack
  sites that the policy keeps on their side.
-/
def Node.SitesAgree
    (policy : CloningPolicy)
    (n image : Node) : Prop :=
  (∀ site ∈ n.allocSites.toList,
    ¬ (policy.stripAllocas = true ∧ site.isStack = true) →
      ∃ other ∈ image.allocSites.toList,
        other.id = site.id) ∧
  (∀ site ∈ image.allocSites.toList,
    ¬ (policy.noEscape = true ∧ site.isStack = true) →
      ∃ other ∈ n.allocSites.toList,
        other.id = site.id)

/- Every live callee node is related to its image. -/
def Simulation.Relates
    (sim : Simulation)
    (Q : Node → Node → Prop)
    (callerGraph calleeGraph : Graph) : Prop :=
  ∀ id n img, calleeGraph.slot id = .live n →
    sim.image? id = some img →
    ∃ image, callerGraph.contents img.node = .ok image ∧
      Q n image

/- The two sides of a call agree, if its mapping exists. -/
def CallSite.Agrees
    (cs : CallSite)
    (callee : FunctionDef)
    (Q : Node → Node → Prop)
    (callerGraph calleeGraph : Graph) : Prop :=
  ∃ sim,
    Simulation.ofCall cs callee calleeGraph callerGraph =
      .ok sim ∧
    (sim.isFunction = true →
      sim.Relates Q callerGraph calleeGraph)

/- A call agrees with each callee that has another graph. -/
def Context.Closed
    (ctx : Context)
    (Q : Node → Node → Prop)
    (s : Store)
    (cs : CallSite) : Prop :=
  ctx.isPropagatable cs = true →
    ∀ callee ∈ ctx.definedCallees cs, ∀ g h,
      s.pair? cs.caller callee.id = some (g, h) →
      cs.Agrees callee Q g h

theorem Context.readsPairs_closed
    {ctx : Context}
    (Q : Node → Node → Prop) :
    ctx.ReadsPairs (ctx.Closed Q) := by
  intro s t cs hPairs hClosed hPropagatable callee hDefined g h hPair
  rw [hPairs hPropagatable callee hDefined] at hPair
  exact hClosed hPropagatable callee hDefined g h hPair

/-
  A way to make two graphs agree. It reports changes wherever they do not,
  and changes nothing where it reports none.
-/
structure Enforces
    (reconcile : Reconcile)
    (Q : Node → Node → Prop) : Prop where
  absent : ∀ s cs callee,
    s.graph? cs.caller = none ∨ s.graph? callee.id = none →
    reconcile s cs callee = .ok { store := s }
  idle : ∀ s cs callee g h,
    s.pair? cs.caller callee.id = some (g, h) →
    cs.Agrees callee Q g h →
    reconcile s cs callee = .ok { store := s }
  changes : ∀ s cs callee g h r,
    s.pair? cs.caller callee.id = some (g, h) →
    reconcile s cs callee = .ok r →
    ∃ g' h', r.store =
        (s.setGraph cs.caller g').setGraph callee.id h' ∧
      (r.caller = 0 → g' = g) ∧
      (r.callee = 0 → h' = h) ∧
      (r.caller = 0 → r.callee = 0 →
        cs.Agrees callee Q g h)

end HeapShape

-- Runs Of A Closure

namespace HeapShape

open Checked

variable {ctx : Context} {reconcile : Reconcile} {Q : Node → Node → Prop} {s t : Store}
variable {id : CallSiteId} {cs : CallSite} {callee : FunctionDef} {f : FunctionId} {g : Graph}

/- Putting a graph where it already is. -/
theorem Store.setGraph_eq_self
    (hGraph : s.graph? f = some g) :
    s.setGraph f g = s := by
  unfold Store.graph? at hGraph
  rcases Option.bind_eq_some_iff.mp hGraph with ⟨i, hSlot, hAt⟩
  unfold Store.setGraph
  rw [hSlot]
  dsimp only
  rcases Array.getElem?_eq_some_iff.mp hAt with ⟨hLt, rfl⟩
  rw [Array.setIfInBounds_def, dif_pos hLt, Array.set_getElem_self]

/- The queue after a change that may be none. -/
theorem Context.queues_setGraph_of_count
    (hf : f ∈ ctx.ends s)
    (hGraph : s.graph? f = some g)
    {h : Graph}
    {count : Nat}
    (hCount : count = 0 → h = g)
    (w : Worklist CallSiteId) :
    ctx.Queues s (s.setGraph f h) w.queue (if count > 0 then w.pushAll (ctx.dependents f)
        else w).queue := by
  split
  · exact queues_setGraph hf hGraph h w
  · next hNone =>
    rw [hCount (Nat.eq_zero_of_not_pos hNone), Store.setGraph_eq_self hGraph]
    exact .refl s w.queue

/- Where a call agrees with a callee, nothing happens. -/
theorem closeCallee_of_agrees
    (hReconcile : Enforces reconcile Q)
    (hAgrees : ∀ g h, s.pair? cs.caller callee.id = some (g, h) → cs.Agrees callee Q g h)
    (changes : Nat)
    (w : Worklist CallSiteId) :
    closeCallee ctx reconcile cs (changes, s, w) callee = .ok (changes, s, w) := by
  unfold closeCallee
  dsimp only
  split
  · rfl
  · next hApart =>
    have hIdle : reconcile s cs callee = .ok { store := s } := by
      cases hCaller : s.graph? cs.caller with
      | none => exact hReconcile.absent s cs callee (Or.inl hCaller)
      | some g =>
        cases hCallee : s.graph? callee.id with
        | none => exact hReconcile.absent s cs callee (Or.inr hCallee)
        | some h =>
          have hPair := Store.pair?_eq_some_iff.mpr
            ⟨Bool.eq_false_of_not_eq_true hApart, hCaller, hCallee⟩
          exact hReconcile.idle s cs callee g h hPair (hAgrees g h hPair)
    rw [hIdle]
    rfl

/- A visit queues the call, or finds that it agrees. -/
theorem closeCallee_queues
    (hReconcile : Enforces reconcile Q)
    (hLists : ctx.Lists id cs)
    (hPropagatable : ctx.isPropagatable cs = true)
    (hDefined : callee ∈ ctx.definedCallees cs)
    {changes changes' : Nat}
    {w w' : Worklist CallSiteId}
    (hRun : closeCallee ctx reconcile cs (changes, s, w) callee = .ok (changes', t, w')) :
    ctx.Queues s t w.queue w'.queue ∧ (id ∈ w'.queue ∨
        (∀ g h, s.pair? cs.caller callee.id = some (g, h) →
            cs.Agrees callee Q g h) ∧ t = s) := by
  cases hPair : s.pair? cs.caller callee.id with
  | none =>
    rw [closeCallee_of_agrees hReconcile (fun g h hSome => by rw [hPair] at hSome; cases hSome)]
      at hRun
    cases hRun
    exact ⟨.refl _ _, Or.inr ⟨nofun, rfl⟩⟩
  | some pair =>
    rcases pair with ⟨g, h⟩
    rcases Store.pair?_eq_some_iff.mp hPair with ⟨hApart, hCaller, hCallee⟩
    unfold closeCallee at hRun
    dsimp only at hRun
    rw [hApart, if_neg (by decide)] at hRun
    rcases of_bind hRun with ⟨r, hStep, hRun⟩
    cases hRun
    rcases hReconcile.changes s cs callee g h r hPair hStep
      with ⟨g', h', hStore, hUp, hDown, hAgrees⟩
    have hMem := Context.mem_crossings hLists.ordered hLists.find hPropagatable hDefined
      (Option.isSome_of_eq_some hPair)
    -- The caller's graph is replaced, then the callee's.
    have hSwapped := Store.pair?_swap (Store.pair?_setGraph (Store.pair?_swap hPair) g')
    have hFirst := Context.queues_setGraph_of_count
      (Context.mem_ends hMem (Or.inl rfl)) hCaller hUp w
    have hSecond := Context.queues_setGraph_of_count (by
        rw [Context.ends_eq hFirst.owners]
        exact Context.mem_ends hMem (Or.inr rfl))
      (Store.pair?_eq_some_iff.mp hSwapped).2.2 hDown
      (if r.caller > 0 then
        w.pushAll (ctx.dependents cs.caller) else w)
    rw [hStore]
    refine ⟨hFirst.trans hSecond, ?_⟩
    by_cases hNone : r.caller = 0 ∧ r.callee = 0
    · right
      refine ⟨?_, ?_⟩
      · rintro _ _ ⟨⟩
        exact hAgrees hNone.1 hNone.2
      · rw [hUp hNone.1, hDown hNone.2, Store.setGraph_eq_self hCaller,
          Store.setGraph_eq_self hCallee]
    · left
      by_cases hChanged : r.caller > 0
      · apply hSecond.waiting
        rw [if_pos hChanged, Worklist.mem_pushAll_iff]
        exact Or.inr hLists.caller
      · rw [if_pos (by omega), Worklist.mem_pushAll_iff]
        exact Or.inr (hLists.callees callee hDefined)

/- A step keeps every covered call waiting or closed. -/
theorem keeps_closed_closureStep
    (hReconcile : Enforces reconcile Q)
    (hIndexes : ctx.callGraph.Indexes ctx.program.sortedCallSites)
    (start : Store) :
    Worklist.Keeps (closureStep ctx reconcile) fun state queue =>
        ctx.Tracks (ctx.Closed Q) start state.2 queue := by
  rintro a rest ⟨changes, s⟩ answer ⟨changes', t⟩ w' hBefore hRun
  unfold closureStep at hRun
  dsimp only at hRun
  cases hFind : ctx.callSite? a with
  | none =>
    rw [hFind] at hRun
    cases hRun
    refine ⟨rfl, hBefore.queues (Context.readsPairs_closed Q) (.refl _ _) ?_⟩
    intro cs hLists
    rw [hLists.find] at hFind
    cases hFind
  | some cs =>
    rw [hFind] at hRun
    dsimp only at hRun
    have hLists := Context.lists_of_callSite? hIndexes hFind
    split at hRun
    · next hPropagatable =>
      rcases of_bind hRun with ⟨⟨_, _, _⟩, hFold, hRun⟩
      cases hRun
      rcases Context.visits_spec (fun f hf _ _ _ _ _ _ =>
          closeCallee_queues hReconcile hLists hPropagatable hf) hFold with
        ⟨hQueues, hAgrees⟩
      refine ⟨rfl, hBefore.queues (Context.readsPairs_closed Q) hQueues ?_⟩
      intro cs' hLists'
      rw [hLists'.find] at hFind
      cases hFind
      rcases hAgrees with hId | ⟨hAll, rfl⟩
      · exact Or.inl hId
      · exact Or.inr fun _ => hAll
    · next hPropagatable =>
      cases hRun
      refine ⟨rfl, hBefore.queues (Context.readsPairs_closed Q) (.refl _ _) ?_⟩
      intro cs' hLists'
      rw [hLists'.find] at hFind
      cases hFind
      exact Or.inr fun hTrue => absurd hTrue hPropagatable

/- A closure that ends has closed the covered calls. -/
theorem closed_of_runClosure
    (hReconcile : Enforces reconcile Q)
    (hIndexes : ctx.callGraph.Indexes ctx.program.sortedCallSites)
    {stats : ClosureStats}
    (hRun : runClosure ctx reconcile s = .ok (.ok stats, t))
    (hFind : ctx.callSite? id = some cs)
    (hCovered : ctx.Covered s cs) :
    ctx.Closed Q t cs := by
  unfold runClosure at hRun
  dsimp only at hRun
  rcases of_bind hRun with ⟨run, hDrain, hRun⟩
  -- At the start every call waits.
  have hStart : ctx.Tracks (ctx.Closed Q) s s
      (({} : Worklist CallSiteId).pushAll ctx.callGraph.order).queue := by
    refine ⟨.refl s, ?_⟩
    intro id cs hLists _
    exact Or.inl (Worklist.mem_pushAll_iff.mpr (Or.inr hLists.ordered))
  rcases Worklist.drainWithin_spec (keeps_closed_closureStep hReconcile hIndexes s) hStart hDrain with
    ⟨n, hOk, hEnd⟩ | ⟨n, hError, _⟩
  · rw [hOk] at hRun
    cases hRun
    rcases hEnd.covered id cs (Context.lists_of_callSite? hIndexes hFind) hCovered
      with hWaits | hClosed
    · exact absurd hWaits List.not_mem_nil
    · exact hClosed
  · rw [hError] at hRun
    cases hRun

end HeapShape

-- Running A Closure Again

namespace HeapShape

open Checked

variable {ctx : Context} {reconcile : Reconcile} {Q : Node → Node → Prop} {s t : Store}
variable {id : CallSiteId} {stats : ClosureStats}

/- A step at a closed call does nothing. -/
theorem closureStep_of_closed
    (hReconcile : Enforces reconcile Q)
    (hClosed : ∀ cs, ctx.callSite? id = some cs → ctx.Closed Q s cs)
    (changes : Nat)
    (w : Worklist CallSiteId) :
    closureStep ctx reconcile id (changes, s) w = .ok (.ok (), (changes, s), w) := by
  unfold closureStep
  dsimp only
  split
  · rfl
  · next cs hFind =>
    split
    · next hPropagatable =>
      have hVisits : ∀ callees : List FunctionDef, (∀ f ∈ callees, f ∈ ctx.definedCallees cs) →
          callees.foldlM (closeCallee ctx reconcile cs) (changes, s, w) = .ok (changes, s, w) := by
        intro callees hDefined
        induction callees with
        | nil => rfl
        | cons f rest ih =>
          rw [List.foldlM_cons, closeCallee_of_agrees hReconcile (hClosed cs hFind hPropagatable f
              (hDefined f List.mem_cons_self))]
          exact ih fun f' hf' =>
            hDefined f' (List.mem_cons_of_mem _ hf')
      rw [hVisits _ fun _ hf => hf]
      rfl
    · rfl

/- No step takes calls out of the queue. -/
theorem length_le_closureStep
    {state state' : Nat × Store}
    {answer : Except AnalysisError Unit}
    {w w' : Worklist CallSiteId}
    (hRun : closureStep ctx reconcile id state w = .ok (answer, state', w')) :
    w.queue.length ≤ w'.queue.length := by
  rcases state with ⟨changes, s⟩
  unfold closureStep at hRun
  dsimp only at hRun
  split at hRun
  · cases hRun
    exact Nat.le_refl _
  · split at hRun
    · rcases of_bind hRun with ⟨⟨_, _, _⟩, hFold, hRun⟩
      cases hRun
      refine foldlM_induction (P := fun state : ClosureState =>
          w.queue.length ≤ state.2.2.queue.length)
        ?_ (Nat.le_refl _) hFold
      rintro ⟨changes, s, w₁⟩ callee _ state hLength hStep
      refine hLength.trans ?_
      unfold closeCallee at hStep
      dsimp only at hStep
      split at hStep
      · cases hStep
        exact Nat.le_refl _
      · rcases of_bind hStep with ⟨r, _, hStep⟩
        cases hStep
        have hPushed : ∀ (count : Nat) (w : Worklist CallSiteId)
            (items : List CallSiteId), w.queue.length ≤ (if count > 0 then w.pushAll items
                else w).queue.length := by
          intro count w items
          split
          · exact Worklist.length_le_pushAll w items
          · exact Nat.le_refl _
        exact (hPushed _ _ _).trans (hPushed _ _ _)
    · cases hRun
      exact Nat.le_refl _

/-
  Where all calls are closed, a closure visits each of them once and reports
  no change. The limit that the last run kept is enough for that.
-/
theorem runClosure_of_closed
    (hReconcile : Enforces reconcile Q)
    (hClosed : ∀ id cs, ctx.callSite? id = some cs → ctx.Closed Q t cs)
    (hRun : runClosure ctx reconcile s = .ok (.ok stats, t)) :
    ∃ n ≤ stats.iterations, runClosure ctx reconcile t =
        .ok (.ok { iterations := n, changes := 0 }, t) := by
  unfold runClosure at hRun
  dsimp only at hRun
  rcases of_bind hRun with ⟨run, hDrain, hRun⟩
  split at hRun
  · next iterations hOk =>
    cases hRun
    have hCount := Worklist.le_of_drainWithin (fun _ _ _ _ _ _ => length_le_closureStep) hDrain hOk
    rw [Nat.zero_add] at hCount
    refine ⟨_, hCount.1, ?_⟩
    unfold runClosure Worklist.drain
    dsimp only
    rcases Worklist.drainWithin_of_idle (fun id _ w =>
        closureStep_of_closed hReconcile (hClosed id) 0 w)
        (hCount.1.trans (Nat.zero_add _ ▸ hCount.2)) with ⟨rest, hIdle⟩
    rw [hIdle, Nat.zero_add]
    rfl
  · cases hRun

/- What a closure that ended has closed. -/
theorem runClosure_closes
    (hReconcile : Enforces reconcile Q)
    (hIndexes : ctx.callGraph.Indexes ctx.program.sortedCallSites)
    (hRun : runClosure ctx reconcile s = .ok (.ok stats, t)) :
    (∀ id cs, ctx.callSite? id = some cs → ctx.Covered s cs → ctx.Closed Q t cs) ∧
    ((∀ id cs, ctx.callSite? id = some cs → ctx.Covered s cs) →
      ∃ n ≤ stats.iterations, runClosure ctx reconcile t =
          .ok (.ok { iterations := n, changes := 0 }, t)) := by
  constructor
  · intro id cs
    exact closed_of_runClosure hReconcile hIndexes hRun
  · intro hCovered
    refine runClosure_of_closed hReconcile ?_ hRun
    intro id cs hFind
    exact closed_of_runClosure hReconcile hIndexes hRun hFind (hCovered id cs hFind)

end HeapShape

-- The Two Closures

namespace HeapShape

open Checked

variable {Q : Node → Node → Prop} {g h : Graph}

/- The mapped nodes are the live nodes with their images. -/
theorem Simulation.relates_iff_mappedNodes
    {sim : Simulation} :
    sim.Relates Q g h ↔ ∃ mapped, mappedNodes g h sim = .ok mapped ∧
        ∀ m ∈ mapped, Q m.node m.image := by
  unfold mappedNodes
  rw [Checked.exists_mapM_eq_ok_iff]
  constructor
  · rintro hRelates e hMem
    rcases List.mem_filterMap.mp hMem with ⟨⟨id, n⟩, hLive, hSome⟩
    rcases Option.map_eq_some_iff.mp hSome with ⟨img, hImage, rfl⟩
    rcases hRelates id n img (Graph.mem_liveNodes.mp hLive) hImage with ⟨image, hContents, hQ⟩
    refine ⟨⟨id, n, img.node, image⟩, ?_, hQ⟩
    dsimp only
    rw [hContents]
    rfl
  · intro hAll id n img hLive hImage
    rcases hAll (id, n, img) (List.mem_filterMap.mpr ⟨(id, n), Graph.mem_liveNodes.mpr hLive,
        Option.map_eq_some_iff.mpr ⟨img, hImage, rfl⟩⟩)
      with ⟨m, hRun, hQ⟩
    rcases of_bind hRun with ⟨image, hContents, hRun⟩
    cases hRun
    exact ⟨image, hContents, hQ⟩

/-
  What is done to the graphs of a caller and a callee with some mapped
  nodes: changes and the new graph for each.
-/
abbrev Edit :=
  Graph → Graph → List Mapped →
    Checked (Nat × Graph × Nat × Graph)

/- Edit the graphs at a call. -/
def Edit.reconcile
    (edit : Edit) : Reconcile :=
  fun s cs callee => do
    match ← boundary? s cs callee with
    | none => return { store := s }
    | some ends => do
        let mapped ← mappedNodes ends.1 ends.2.1 ends.2.2
        let edited ← edit ends.1 ends.2.1 mapped
        return {
          caller := edited.1
          callee := edited.2.2.1
          store :=
            (s.setGraph cs.caller edited.2.1).setGraph
              callee.id edited.2.2.2 }

/- An edit that reports changes where nodes do not agree. -/
structure Edit.Reports
    (edit : Edit)
    (Q : Node → Node → Prop) : Prop where
  idle : ∀ g h mapped, (∀ m ∈ mapped, Q m.node m.image) →
    edit g h mapped = .ok (0, g, 0, h)
  changes : ∀ g h mapped edited,
    edit g h mapped = .ok edited →
    (edited.1 = 0 → edited.2.1 = g) ∧
    (edited.2.2.1 = 0 → edited.2.2.2 = h) ∧
    (edited.1 = 0 → edited.2.2.1 = 0 →
      ∀ m ∈ mapped, Q m.node m.image)

variable {s : Store} {cs : CallSite} {callee : FunctionDef}

theorem boundary?_eq_none
    (hAbsent : s.graph? cs.caller = none ∨ s.graph? callee.id = none) :
    boundary? s cs callee = .ok none := by
  unfold boundary?
  split
  · next hCaller hCallee =>
    rw [hCaller, hCallee] at hAbsent
    rcases hAbsent with hNone | hNone <;> cases hNone
  · rfl

theorem boundary?_of_pair
    (hPair : s.pair? cs.caller callee.id = some (g, h)) :
    boundary? s cs callee = do
      let sim ← Simulation.ofCall cs callee h g
      return if sim.isFunction then some (g, h, sim)
        else none := by
  rcases Store.pair?_eq_some_iff.mp hPair with ⟨_, hCaller, hCallee⟩
  unfold boundary?
  rw [hCaller, hCallee]
  dsimp only
  congr 1
  funext sim
  split <;> rfl

theorem Edit.Reports.enforces
    {edit : Edit}
    (hReports : edit.Reports Q) :
    Enforces edit.reconcile Q where
  absent := by
    intro s cs callee hAbsent
    unfold Edit.reconcile
    rw [boundary?_eq_none hAbsent]
    rfl
  idle := by
    rintro s cs callee g h hPair ⟨sim, hSim, hRelates⟩
    rcases Store.pair?_eq_some_iff.mp hPair with ⟨_, hCaller, hCallee⟩
    unfold Edit.reconcile
    rw [boundary?_of_pair hPair, bind_assoc, bind_eq_ok_iff]
    refine ⟨sim, hSim, ?_⟩
    rw [pure_bind]
    by_cases hFunction : sim.isFunction = true
    · rcases Simulation.relates_iff_mappedNodes.mp (hRelates hFunction) with ⟨mapped, hMapped, hAll⟩
      rw [if_pos hFunction]
      dsimp only
      rw [bind_eq_ok_iff]
      refine ⟨mapped, hMapped, ?_⟩
      rw [bind_eq_ok_iff]
      refine ⟨_, hReports.idle g h mapped hAll, ?_⟩
      rw [Store.setGraph_eq_self hCaller, Store.setGraph_eq_self hCallee]
      rfl
    · rw [if_neg hFunction]
      rfl
  changes := by
    intro s cs callee g h r hPair hRun
    rcases Store.pair?_eq_some_iff.mp hPair with ⟨_, hCaller, hCallee⟩
    unfold Edit.reconcile at hRun
    rw [boundary?_of_pair hPair, bind_assoc] at hRun
    rcases of_bind hRun with ⟨sim, hSim, hRun⟩
    rw [pure_bind] at hRun
    by_cases hFunction : sim.isFunction = true
    · rw [if_pos hFunction] at hRun
      dsimp only at hRun
      rcases of_bind hRun with ⟨mapped, hMapped, hRun⟩
      rcases of_bind hRun with ⟨edited, hEdit, hRun⟩
      cases hRun
      rcases hReports.changes g h mapped edited hEdit with ⟨hUp, hDown, hAll⟩
      exact ⟨_, _, rfl, hUp, hDown, fun hNone hNone' =>
        ⟨sim, hSim, fun _ =>
          Simulation.relates_iff_mappedNodes.mpr ⟨mapped, hMapped, hAll hNone hNone'⟩⟩⟩
    · rw [if_neg hFunction] at hRun
      cases hRun
      refine ⟨g, h, ?_, fun _ => rfl, fun _ => rfl, fun _ _ => ⟨sim, hSim, fun hTrue =>
          absurd hTrue hFunction⟩⟩
      rw [Store.setGraph_eq_self hCaller, Store.setGraph_eq_self hCallee]

/- Nodes differ exactly if they do not agree. -/
theorem Mapped.scalarsDiffer_eq_false_iff
    {m : Mapped} :
    m.scalarsDiffer = false ↔ m.node.ScalarsAgree m.image := by
  unfold Mapped.scalarsDiffer Node.ScalarsAgree
  cases m.node.uniqueScalar.everHad <;>
    cases m.image.uniqueScalar.everHad <;> simp

theorem Mapped.isSome_of_scalarsDiffer
    {m : Mapped}
    (hDiffers : m.scalarsDiffer = true) :
    m.node.uniqueScalar.value?.isSome =
      true ∨ m.image.uniqueScalar.value?.isSome = true := by
  unfold Mapped.scalarsDiffer at hDiffers
  cases hNode : m.node.uniqueScalar.value? with
  | some v => exact Or.inl rfl
  | none =>
    cases hImage : m.image.uniqueScalar.value? with
    | some v => exact Or.inr rfl
    | none => simp [hNode, hImage] at hDiffers

/- Clearing nothing. -/
theorem clearScalars_eq_self
    {ids : OrdSet NodeId}
    {g' : Graph}
    (hNone : ids.size = 0)
    (hRun : clearScalars g ids = .ok g') :
    g' = g := by
  rw [OrdSet.size_eq_length, List.length_eq_zero_iff] at hNone
  unfold clearScalars at hRun
  rw [hNone] at hRun
  cases hRun
  rfl

/- Clearing unique scalars is an edit. -/
def clearDiffering : Edit :=
  fun callerGraph calleeGraph mapped => do
    let differing := mapped.filter Mapped.scalarsDiffer
    let inCallee := OrdSet.ofList <|
      (differing.filter fun m =>
        m.node.uniqueScalar.value?.isSome).map Mapped.id
    let inCaller := OrdSet.ofList <|
      (differing.filter fun m =>
        m.image.uniqueScalar.value?.isSome).map
          Mapped.imageId
    let callerGraph ← clearScalars callerGraph inCaller
    let calleeGraph ← clearScalars calleeGraph inCallee
    return (inCaller.size, callerGraph, inCallee.size,
      calleeGraph)

theorem reconcileScalars_eq :
    reconcileScalars = clearDiffering.reconcile := by
  funext s cs callee
  unfold reconcileScalars Edit.reconcile clearDiffering
  congr 1
  funext ends?
  cases ends? with
  | none => rfl
  | some ends => simp only [bind_assoc, pure_bind]

theorem reports_clearDiffering :
    clearDiffering.Reports Node.ScalarsAgree where
  idle := by
    intro g h mapped hAll
    have hNone : mapped.filter Mapped.scalarsDiffer = [] := by
      rw [List.filter_eq_nil_iff]
      intro m hMem
      rw [Mapped.scalarsDiffer_eq_false_iff.mpr (hAll m hMem)]
      decide
    unfold clearDiffering
    rw [hNone]
    rfl
  changes := by
    intro g h mapped edited hRun
    unfold clearDiffering at hRun
    dsimp only at hRun
    rcases of_bind hRun with ⟨g', hg, hRun⟩
    rcases of_bind hRun with ⟨h', hh, hRun⟩
    cases hRun
    refine ⟨fun hNone => ?_, fun hNone => ?_, fun hCaller hCallee m hMem => ?_⟩
    · exact clearScalars_eq_self hNone hg
    · exact clearScalars_eq_self hNone hh
    · rw [← Mapped.scalarsDiffer_eq_false_iff]
      by_contra hDiffers
      rw [Bool.not_eq_false] at hDiffers
      have hIn : m ∈ mapped.filter Mapped.scalarsDiffer := List.mem_filter.mpr ⟨hMem, hDiffers⟩
      -- One of two different values is there to be cleared.
      rw [OrdSet.size_ofList_eq_zero_iff, List.map_eq_nil_iff,
        List.filter_eq_nil_iff] at hCaller hCallee
      rcases Mapped.isSome_of_scalarsDiffer hDiffers with hSome | hSome
      · exact hCallee m hIn hSome
      · exact hCaller m hIn hSome

/- Adding missing sites is an edit. -/
def exchangeSites
    (policy : CloningPolicy) : Edit :=
  fun callerGraph calleeGraph mapped => do
    let up := (mapped.map fun m =>
      (missingSites policy.stripAllocas
        m.node.allocSites m.image.allocSites).map
          fun s => (m.imageId, s)).flatten
    let down := (mapped.map fun m =>
      (missingSites policy.noEscape
        m.image.allocSites m.node.allocSites).map
          fun s => (m.id, s)).flatten
    let callerGraph ← addSites callerGraph up
    let calleeGraph ← addSites calleeGraph down
    return (up.length, callerGraph, down.length, calleeGraph)

theorem reconcileSites_eq
    (policy : CloningPolicy) :
    reconcileSites policy = (exchangeSites policy).reconcile := by
  funext s cs callee
  unfold reconcileSites Edit.reconcile exchangeSites
  congr 1
  funext ends?
  cases ends? with
  | none => rfl
  | some ends => simp only [bind_assoc, pure_bind]

/- Nothing is missing exactly if the sites are there. -/
theorem missingSites_eq_nil_iff
    {keepStack : Bool}
    {fromSites intoSites : OrdSet AllocSite} :
    missingSites keepStack fromSites intoSites = [] ↔ ∀ site ∈ fromSites.toList,
        ¬ (keepStack = true ∧ site.isStack = true) →
        ∃ other ∈ intoSites.toList, other.id = site.id := by
  unfold missingSites hasSiteId
  rw [List.filter_eq_nil_iff]
  refine forall₂_congr fun site _ => ?_
  cases keepStack <;> cases site.isStack <;> simp

/- No node of a list gets a site. -/
theorem flatten_missingSites_eq_nil_iff
    (mapped : List Mapped)
    (node : Mapped → NodeId)
    (missing : Mapped → List AllocSite) :
    (mapped.map fun m =>
      (missing m).map fun s => (node m, s)).flatten = [] ↔
      ∀ m ∈ mapped, missing m = [] := by
  simp

theorem reports_exchangeSites
    (policy : CloningPolicy) :
    (exchangeSites policy).Reports (Node.SitesAgree policy) where
  idle := by
    intro g h mapped hAll
    have hUp := (flatten_missingSites_eq_nil_iff mapped Mapped.imageId _).mpr fun m hMem =>
        missingSites_eq_nil_iff.mpr (hAll m hMem).1
    have hDown := (flatten_missingSites_eq_nil_iff mapped Mapped.id _).mpr fun m hMem =>
        missingSites_eq_nil_iff.mpr (hAll m hMem).2
    unfold exchangeSites
    rw [hUp, hDown]
    rfl
  changes := by
    intro g h mapped edited hRun
    unfold exchangeSites at hRun
    dsimp only at hRun
    rcases of_bind hRun with ⟨g', hg, hRun⟩
    rcases of_bind hRun with ⟨h', hh, hRun⟩
    cases hRun
    dsimp only
    refine ⟨fun hNone => ?_, fun hNone => ?_, fun hCaller hCallee m hMem => ?_⟩
    · rw [List.eq_nil_of_length_eq_zero hNone] at hg
      cases hg
      rfl
    · rw [List.eq_nil_of_length_eq_zero hNone] at hh
      cases hh
      rfl
    · rw [List.length_eq_zero_iff, flatten_missingSites_eq_nil_iff] at hCaller hCallee
      exact ⟨missingSites_eq_nil_iff.mp (hCaller m hMem),
        missingSites_eq_nil_iff.mp (hCallee m hMem)⟩

end HeapShape

-- Closing

namespace HeapShape

open Checked

theorem enforces_reconcileScalars :
    Enforces reconcileScalars Node.ScalarsAgree := by
  rw [reconcileScalars_eq]
  exact reports_clearDiffering.enforces

theorem enforces_reconcileSites
    (policy : CloningPolicy) :
    Enforces (reconcileSites policy) (Node.SitesAgree policy) := by
  rw [reconcileSites_eq]
  exact (reports_exchangeSites policy).enforces

/-
  When a closure ends, every covered call is closed: if the mapping between
  the graphs of its caller and of a callee is a function, each callee node
  agrees with its image on unique scalars, or on allocation sites. If every
  call is covered, running the closure again reports no change and leaves
  all graphs as they are.
-/
theorem closures_close_covered_calls
    (p : Program)
    (config : Config)
    (s t : Store)
    (stats : ClosureStats) :
    (uniqueScalarClosure (.ofProgram p config) s =
        .ok (.ok stats, t) →
      (∀ id cs,
        (Context.ofProgram p config).callSite? id = some cs →
        (Context.ofProgram p config).Covered s cs →
        (Context.ofProgram p config).Closed
          Node.ScalarsAgree t cs) ∧
      ((∀ id cs,
        (Context.ofProgram p config).callSite? id = some cs →
        (Context.ofProgram p config).Covered s cs) →
        ∃ n ≤ stats.iterations,
          uniqueScalarClosure (.ofProgram p config) t =
            .ok (.ok { iterations := n, changes := 0 },
              t))) ∧
    (allocSiteClosure (.ofProgram p config) s =
        .ok (.ok stats, t) →
      (∀ id cs,
        (Context.ofProgram p config).callSite? id = some cs →
        (Context.ofProgram p config).Covered s cs →
        (Context.ofProgram p config).Closed
          (Node.SitesAgree config.cloning) t cs) ∧
      ((∀ id cs,
        (Context.ofProgram p config).callSite? id = some cs →
        (Context.ofProgram p config).Covered s cs) →
        ∃ n ≤ stats.iterations,
          allocSiteClosure (.ofProgram p config) t =
            .ok (.ok { iterations := n, changes := 0 },
              t))) := by
  have hIndexes := CallGraph.indexes_ofProgram p
  exact ⟨runClosure_closes enforces_reconcileScalars hIndexes,
    runClosure_closes (enforces_reconcileSites _) hIndexes⟩

/- An object passed on through two calls. -/
def relay : Program where
  functions :=
    [{ id := 0, name := "f", formals := [⟨0, true⟩] },
      { id := 1, name := "g", formals := [⟨1, true⟩] },
      { id := 2, name := "h", body := [.alloc 2 0 .heap 8 none] }]
  callSites :=
    [{ id := 0, caller := 1, target := .direct 0, actuals := [some 1] },
      { id := 1, caller := 2, target := .direct 1, actuals := [some 2] }]

/-
  The site of the object reaches the formals of both callees, and no node
  keeps a unique scalar.
-/
theorem closures_close_covered_calls_of_relay :
    ∃ s t u scalars sites,
      uniqueScalarClosure (.ofProgram relay {}) s =
        .ok (.ok scalars, t) ∧
      0 < scalars.changes ∧
      allocSiteClosure (.ofProgram relay {}) t =
        .ok (.ok sites, u) ∧
      0 < sites.changes ∧
      (∀ id cs,
        (Context.ofProgram relay {}).callSite? id = some cs →
        (Context.ofProgram relay {}).Closed
          Node.ScalarsAgree t cs ∧
        (Context.ofProgram relay {}).Closed
          (Node.SitesAgree {}) u cs) ∧
      (∃ n, allocSiteClosure (.ofProgram relay {}) u =
        .ok (.ok { iterations := n, changes := 0 }, u)) := by
  have hRun : (do
      let up ← bottomUpPass (.ofProgram relay {}) {}
      let first ←
        uniqueScalarClosure (.ofProgram relay {}) up.2
      let second ←
        allocSiteClosure (.ofProgram relay {}) first.2
      return (first.1.toOption.map ClosureStats.changes,
        second.1.toOption.map ClosureStats.changes,
        decide (∀ cs ∈ relay.callSites,
          (Context.ofProgram relay {}).Covered up.2 cs))) =
        Except.ok (some 3, some 2, true) := by
    cbv
  rw [Checked.bind_eq_ok_iff] at hRun
  rcases hRun with ⟨⟨_, s⟩, _, hRun⟩
  rw [Checked.bind_eq_ok_iff] at hRun
  rcases hRun with ⟨⟨answer, t⟩, hScalars, hRun⟩
  rw [Checked.bind_eq_ok_iff] at hRun
  rcases hRun with ⟨⟨answer', u⟩, hSites, hRun⟩
  rw [Checked.pure_eq_ok_iff, Prod.mk.injEq,
    Prod.mk.injEq] at hRun
  rcases hRun with ⟨hCount, hCount', hCovered⟩
  have hCovered : ∀ id cs,
      (Context.ofProgram relay {}).callSite? id = some cs →
      (Context.ofProgram relay {}).Covered s cs := by
    intro id cs hFind
    exact of_decide_eq_true hCovered cs
      (CallGraph.callSite?_eq_some hFind).1
  cases answer with
  | error e => cases hCount
  | ok scalars =>
  cases answer' with
  | error e => cases hCount'
  | ok sites =>
      rcases runClosure_spec keepsShapes_reconcileScalars
        hScalars with ⟨_, _, hShapes⟩ | ⟨_, _, hError⟩
      · have hFirst := (closures_close_covered_calls relay {} s
          t scalars).1 hScalars
        have hSecond := (closures_close_covered_calls relay {}
          t u sites).2 hSites
        have hCovered' := fun id cs hFind =>
          (hCovered id cs hFind).of_sameOwners
            hShapes.toSameOwners
        rcases hSecond.2 hCovered' with ⟨n, _, hAgain⟩
        refine ⟨s, t, u, scalars, sites, hScalars, ?_, hSites,
          ?_, ?_, n, hAgain⟩
        · rw [Option.some.inj hCount]
          decide
        · rw [Option.some.inj hCount']
          decide
        · intro id cs hFind
          exact ⟨hFirst.1 id cs hFind (hCovered id cs hFind),
            hSecond.1 id cs hFind (hCovered' id cs hFind)⟩
      · cases hError

/-
  Two functions that call each other, and a caller of each. The second
  caller passes an object, the first one its own formal.
-/
def callersOfRelayLoop : Program where
  functions :=
    [{ id := 0, name := "f", formals := [⟨0, true⟩] },
      { id := 1, name := "g", formals := [⟨1, true⟩] },
      { id := 2, name := "h", formals := [⟨2, true⟩] },
      { id := 3, name := "k", body := [.alloc 3 0 .heap 8 none] }]
  callSites :=
    [{ id := 0, caller := 0, target := .direct 1, actuals := [some 0] },
      { id := 1, caller := 1, target := .direct 0, actuals := [some 1] },
      { id := 2, caller := 2, target := .direct 0, actuals := [some 2] },
      { id := 3, caller := 3, target := .direct 1, actuals := [some 3] }]

/-
  The object's site reaches the graph that the loop shares at a call of the
  one member. The call of the other member is not queued, and a second run
  still finds it open.
-/
theorem unclosed_callersOfRelayLoop :
    ∃ s t u stats, allocSiteClosure (.ofProgram callersOfRelayLoop {}) s =
      .ok (.ok stats, t) ∧
      allocSiteClosure (.ofProgram callersOfRelayLoop {}) t =
        .ok (.ok { iterations := 5, changes := 1 }, u) := by
  have hRun : (do
      let up ← bottomUpPass (.ofProgram callersOfRelayLoop {}) {}
      let first ← allocSiteClosure (.ofProgram callersOfRelayLoop {}) up.2
      let second ← allocSiteClosure (.ofProgram callersOfRelayLoop {}) first.2
      return (first.1.toOption.isSome, second.1)) = Except.ok (true,
          .ok { iterations := 5, changes := 1 }) := by
    cbv
  rcases of_bind hRun with ⟨⟨_, s⟩, _, hRun⟩
  rcases of_bind hRun with ⟨⟨answer, t⟩, hFirst, hRun⟩
  rcases of_bind hRun with ⟨⟨answer', u⟩, hSecond, hRun⟩
  rw [pure_eq_ok_iff, Prod.mk.injEq] at hRun
  rcases hRun with ⟨hOk, rfl⟩
  cases answer with
  | error e => cases hOk
  | ok stats => exact ⟨s, t, u, stats, hFirst, hSecond⟩

end HeapShape
