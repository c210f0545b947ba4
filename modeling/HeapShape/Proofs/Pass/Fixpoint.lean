import HeapShape.Pass.Fixpoint
import HeapShape.Proofs.CallGraph
import HeapShape.Proofs.Store
import HeapShape.Proofs.Worklist

/-
  What the fixpoint over call sites settles.

  A step at a call changes one graph and queues the calls that involve the
  function the step was at. Functions that share the graph see it change as
  well, but their calls are not queued. A call is covered if no such change
  can pass it by. The fixpoint settles every covered call.

  Main declarations:
    * `Context.crossings`
    * `Context.Tracks.queues`
    * `settleCallee_spec`
    * `converging_of_runFixpoint`
-/

-- Calls Between Graphs

namespace HeapShape

open Checked

namespace Context

/- The calls between different graphs, with their callees. -/
def crossings
    (ctx : Context)
    (s : Store) : List (CallSite × FunctionDef) :=
  (ctx.callGraph.order.filterMap ctx.callSite?).flatMap
    fun cs =>
      if ctx.isPropagatable cs then
        ((ctx.definedCallees cs).filter fun f =>
          (s.pair? cs.caller f.id).isSome).map fun f => (cs, f)
      else []

/- The functions at which steps can be taken. -/
def ends
    (ctx : Context)
    (s : Store) : List FunctionId :=
  (ctx.crossings s).flatMap fun c => [c.1.caller, c.2.id]

/-
  Whoever changes a graph that a call reads queues the call.
-/
def Covered
    (ctx : Context)
    (s : Store)
    (cs : CallSite) : Prop :=
  ∀ c ∈ ctx.crossings s, c.1 = cs → ∀ f ∈ ctx.ends s,
    s.sameGraph f cs.caller = true ∨
        s.sameGraph f c.2.id = true →
      cs.id ∈ ctx.dependents f

instance
    (ctx : Context)
    (s : Store)
    (cs : CallSite) : Decidable (ctx.Covered s cs) :=
  inferInstanceAs (Decidable (∀ c ∈ ctx.crossings s,
    c.1 = cs → ∀ f ∈ ctx.ends s,
      s.sameGraph f cs.caller = true ∨
          s.sameGraph f c.2.id = true →
        cs.id ∈ ctx.dependents f))

variable {ctx : Context} {s t : Store} {id : CallSiteId} {cs : CallSite} {callee : FunctionDef}

theorem mem_crossings
    (hOrder : id ∈ ctx.callGraph.order)
    (hFind : ctx.callSite? id = some cs)
    (hPropagatable : ctx.isPropagatable cs = true)
    (hDefined : callee ∈ ctx.definedCallees cs)
    (hPair : (s.pair? cs.caller callee.id).isSome = true) :
    (cs, callee) ∈ ctx.crossings s := by
  unfold crossings
  refine List.mem_flatMap.mpr ⟨cs, ?_, ?_⟩
  · exact List.mem_filterMap.mpr ⟨id, hOrder, hFind⟩
  · rw [if_pos hPropagatable]
    exact List.mem_map.mpr ⟨callee, List.mem_filter.mpr ⟨hDefined, hPair⟩, rfl⟩

/- A crossing is between a call and one of its callees. -/
theorem defined_of_mem_crossings
    (hMem : (cs, callee) ∈ ctx.crossings s) :
    callee ∈ ctx.definedCallees cs := by
  rcases List.mem_flatMap.mp hMem with ⟨other, _, hMem⟩
  split at hMem
  · rcases List.mem_map.mp hMem with ⟨f, hf, hEq⟩
    cases hEq
    exact (List.mem_filter.mp hf).1
  · exact absurd hMem List.not_mem_nil

variable {f : FunctionId}

theorem mem_ends
    (hMem : (cs, callee) ∈ ctx.crossings s)
    (hf : f = cs.caller ∨ f = callee.id) :
    f ∈ ctx.ends s := by
  refine List.mem_flatMap.mpr ⟨(cs, callee), hMem, ?_⟩
  simpa using hf

/- Crossings are a matter of owners. -/
theorem crossings_eq
    (hst : s.SameOwners t) :
    ctx.crossings t = ctx.crossings s := by
  unfold crossings
  simp only [hst.isSome_pair?]

theorem ends_eq
    (hst : s.SameOwners t) :
    ctx.ends t = ctx.ends s := by
  unfold ends
  rw [crossings_eq hst]

/- The facts about a call that its context lists. -/
structure Lists
    (ctx : Context)
    (id : CallSiteId)
    (cs : CallSite) : Prop where
  find : ctx.callSite? id = some cs
  number : cs.id = id
  ordered : id ∈ ctx.callGraph.order
  caller : id ∈ ctx.dependents cs.caller
  callees : ∀ f ∈ ctx.definedCallees cs,
    id ∈ ctx.dependents f.id

/- A function found by its number has the number. -/
theorem function?_id
    (hFind : ctx.function? f = some callee) :
    callee.id = f :=
  (CallGraph.function?_eq_some hFind).2

/- The context of a program lists all its calls. -/
theorem lists_of_callSite?
    (hIndexes : ctx.callGraph.Indexes ctx.program.sortedCallSites)
    (hFind : ctx.callSite? id = some cs) :
    ctx.Lists id cs := by
  rcases CallGraph.callSite?_eq_some hFind with ⟨hMem, rfl⟩
  rw [← CallGraph.mem_sortedCallSites_iff] at hMem
  refine ⟨hFind, rfl, ?_, ?_, ?_⟩
  · rw [hIndexes.order]
    exact List.mem_map_of_mem hMem
  · exact List.mem_append_right _ (hIndexes.defs cs hMem)
  · intro f hf
    have hCallee := (List.mem_filter.mp hf).1
    unfold Context.callees at hCallee
    split at hCallee
    · next r hResolution =>
      rcases List.mem_filterMap.mp hCallee with ⟨callee, hIn, hFunction⟩
      rw [function?_id hFunction]
      exact List.mem_append_left _ (hIndexes.uses cs.id r hResolution callee hIn)
    · exact absurd hCallee List.not_mem_nil

/- Calls between functions with graphs of their own. -/
theorem covered_of_unshared
    (hLists : ctx.Lists id cs)
    (hAlone : ∀ f f', s.sameGraph f f' = true → f = f') :
    ctx.Covered s cs := by
  rintro ⟨_, callee⟩ hMem rfl f _ (hCaller | hCallee)
  · rw [hAlone f _ hCaller, hLists.number]
    exact hLists.caller
  · rw [hAlone f _ hCallee, hLists.number]
    exact hLists.callees callee (defined_of_mem_crossings hMem)

-- Changes And The Queue

/-
  Whatever changed from `s` to `t`, the calls of a function that shares the
  changed graph are queued.
-/
structure Queues
    (ctx : Context)
    (s t : Store)
    (before after : List CallSiteId) : Prop where
  owners : s.SameOwners t
  waiting : ∀ id ∈ before, id ∈ after
  changed : ∀ e, t.graph? e = s.graph? e ∨
    ∃ f ∈ ctx.ends s, s.sameGraph f e = true ∧
      ∀ id ∈ ctx.dependents f, id ∈ after

variable {r : Store} {before between after : List CallSiteId}

theorem Queues.refl
    (s : Store)
    (w : List CallSiteId) :
    ctx.Queues s s w w where
  owners := .refl s
  waiting := fun _ hMem => hMem
  changed := fun _ => Or.inl rfl

theorem Queues.trans
    (hrs : ctx.Queues r s before between)
    (hst : ctx.Queues s t between after) :
    ctx.Queues r t before after where
  owners := hrs.owners.trans hst.owners
  waiting := fun id hMem =>
    hst.waiting id (hrs.waiting id hMem)
  changed := by
    intro e
    rcases hst.changed e with hSame | ⟨f, hf, hGraph, hAll⟩
    · rcases hrs.changed e with hSame' | ⟨f, hf, hGraph, hAll⟩
      · exact Or.inl (hSame.trans hSame')
      · exact Or.inr ⟨f, hf, hGraph, fun id hMem =>
          hst.waiting id (hAll id hMem)⟩
    · rw [ends_eq hrs.owners] at hf
      rw [hrs.owners.sameGraph_eq] at hGraph
      exact Or.inr ⟨f, hf, hGraph, hAll⟩

/- A step at a function that queues its calls. -/
theorem queues_setGraph
    (hf : f ∈ ctx.ends s)
    {g : Graph}
    (hGraph : s.graph? f = some g)
    (h : Graph)
    (w : Worklist CallSiteId) :
    ctx.Queues s (s.setGraph f h) w.queue (w.pushAll (ctx.dependents f)).queue where
  owners := s.sameOwners_setGraph f h
  waiting := fun id hMem =>
    Worklist.mem_pushAll_iff.mpr (Or.inl hMem)
  changed := by
    intro e
    rw [Store.graph?_setGraph hGraph]
    split
    · next hSame =>
      exact Or.inr ⟨f, hf, hSame, fun id hMem =>
        Worklist.mem_pushAll_iff.mpr (Or.inr hMem)⟩
    · exact Or.inl rfl

/- What a call needs depends on the two graphs it joins. -/
theorem decide_eq
    (hPair : t.pair? cs.caller callee.id = s.pair? cs.caller callee.id) :
    ctx.decide t cs callee = ctx.decide s cs callee := by
  unfold Context.decide
  rw [hPair]

variable {callees : List FunctionDef}

theorem firstNeed_eq
    (hDecide : ∀ f ∈ callees, ctx.decide t cs f = ctx.decide s cs f) :
    ctx.firstNeed t cs callees = ctx.firstNeed s cs callees := by
  induction callees with
  | nil => rfl
  | cons f rest ih =>
    unfold firstNeed
    rw [hDecide f List.mem_cons_self, ih fun f' hf' => hDecide f' (List.mem_cons_of_mem _ hf')]

/- A covered call whose graphs may have changed is queued. -/
theorem Queues.pair?_eq
    (hst : ctx.Queues s t before after)
    (hLists : ctx.Lists id cs)
    (hCovered : ctx.Covered s cs)
    (hAfter : id ∉ after)
    (hPropagatable : ctx.isPropagatable cs = true)
    (hDefined : callee ∈ ctx.definedCallees cs) :
    t.pair? cs.caller callee.id = s.pair? cs.caller callee.id := by
  cases hPair : (s.pair? cs.caller callee.id).isSome with
  | false =>
    have hNone := hst.owners.isSome_pair? cs.caller callee.id
    rw [hPair] at hNone
    simp only [Option.isSome_eq_false_iff, Option.isNone_iff_eq_none] at hNone hPair
    rw [hNone, hPair]
  | true =>
    have hMem := mem_crossings hLists.ordered hLists.find hPropagatable hDefined hPair
    -- A change at an end of the call would have queued it.
    have hSame : ∀ e, e = cs.caller ∨ e = callee.id → t.graph? e = s.graph? e := by
      intro e he
      rcases hst.changed e with hSame | ⟨f, hf, hGraph, hAll⟩
      · exact hSame
      · have hDepends := hCovered _ hMem rfl f hf (by
          rcases he with rfl | rfl
          · exact Or.inl hGraph
          · exact Or.inr hGraph)
        rw [hLists.number] at hDepends
        exact absurd (hAll id hDepends) hAfter
    unfold Store.pair?
    rw [hst.owners.sameGraph_eq, hSame _ (Or.inl rfl), hSame _ (Or.inr rfl)]

/- A property of calls read from the graphs they join. -/
def ReadsPairs
    (ctx : Context)
    (Q : Store → CallSite → Prop) : Prop :=
  ∀ s t cs,
    (ctx.isPropagatable cs = true →
      ∀ callee ∈ ctx.definedCallees cs,
        t.pair? cs.caller callee.id =
          s.pair? cs.caller callee.id) →
    Q s cs → Q t cs

theorem readsPairs_settled :
    ctx.ReadsPairs fun s cs => ctx.pending s cs = .ok .settled := by
  intro s t cs hPairs hSettled
  rw [← hSettled]
  unfold Context.pending
  split
  · next hPropagatable =>
    apply firstNeed_eq
    intro callee hDefined
    exact decide_eq (hPairs hPropagatable callee hDefined)
  · rfl

/- Every covered call waits, or has a property. -/
structure Tracks
    (ctx : Context)
    (Q : Store → CallSite → Prop)
    (start s : Store)
    (queue : List CallSiteId) : Prop where
  owners : start.SameOwners s
  covered : ∀ id cs, ctx.Lists id cs →
    ctx.Covered start cs →
      id ∈ queue ∨ Q s cs

/- Which calls are covered is a matter of owners. -/
theorem Covered.of_sameOwners
    (hCovered : ctx.Covered s cs)
    (hst : s.SameOwners t) :
    ctx.Covered t cs := by
  unfold Context.Covered
  rw [Context.crossings_eq hst, Context.ends_eq hst]
  simp only [hst.sameGraph_eq]
  exact hCovered

/- What a step at a waiting call does for the others. -/
theorem Tracks.queues
    {Q : Store → CallSite → Prop}
    (hReads : ctx.ReadsPairs Q)
    {start : Store}
    {a : CallSiteId}
    {rest : List CallSiteId}
    (hBefore : ctx.Tracks Q start s (a :: rest))
    (hQueues : ctx.Queues s t rest after)
    (hDone : ∀ cs, ctx.Lists a cs → a ∈ after ∨ Q t cs) :
    ctx.Tracks Q start t after where
  owners := hBefore.owners.trans hQueues.owners
  covered := by
    intro id cs hLists hCovered
    rcases hBefore.covered id cs hLists hCovered with hWaits | hHolds
    · rcases List.mem_cons.mp hWaits with rfl | hRest
      · exact hDone cs hLists
      · exact Or.inl (hQueues.waiting id hRest)
    · by_cases hAfter : id ∈ after
      · exact Or.inl hAfter
      · right
        refine hReads s t cs ?_ hHolds
        intro hPropagatable callee hDefined
        exact hQueues.pair?_eq hLists (hCovered.of_sameOwners hBefore.owners) hAfter
          hPropagatable hDefined

/-
  A call visited at some of its callees, one after the other. A visit that
  leaves the call out of the queue changes nothing and shows a fact about
  the callee.
-/
theorem visits_spec
    {σ : Type}
    {visit : σ × Store × Worklist CallSiteId → FunctionDef →
      Checked (σ × Store × Worklist CallSiteId)}
    {D : Store → FunctionDef → Prop}
    (hVisit : ∀ f ∈ callees, ∀ x s w x' t w',
      visit (x, s, w) f = .ok (x', t, w') →
      ctx.Queues s t w.queue w'.queue ∧ (id ∈ w'.queue ∨ D s f ∧ t = s))
    {x x' : σ}
    {w w' : Worklist CallSiteId}
    (hRun : callees.foldlM visit (x, s, w) = .ok (x', t, w')) :
    ctx.Queues s t w.queue w'.queue ∧
      (id ∈ w'.queue ∨ (∀ f ∈ callees, D s f) ∧ t = s) := by
  induction callees generalizing x s w with
  | nil =>
    cases hRun
    exact ⟨.refl _ _, Or.inr ⟨nofun, rfl⟩⟩
  | cons callee rest ih =>
    rw [List.foldlM_cons] at hRun
    rcases of_bind hRun with ⟨⟨x₁, s₁, w₁⟩, hFirst, hRest⟩
    rcases hVisit callee List.mem_cons_self _ _ _ _ _ _ hFirst with ⟨hQueues, hHolds⟩
    rcases ih (fun f hf => hVisit f (List.mem_cons_of_mem _ hf)) hRest with ⟨hQueues', hHolds'⟩
    refine ⟨hQueues.trans hQueues', ?_⟩
    rcases hHolds with hId | ⟨hHolds, rfl⟩
    · exact Or.inl (hQueues'.waiting id hId)
    · rcases hHolds' with hId | ⟨hAll, rfl⟩
      · exact Or.inl hId
      · exact Or.inr ⟨List.forall_mem_cons.mpr ⟨hHolds, hAll⟩, rfl⟩

end Context

-- Steps

variable {ctx : Context} {config : Config} {s t : Store} {id : CallSiteId} {cs : CallSite}
variable {callee : FunctionDef} {callerGraph calleeGraph : Graph}

/- A step up replaces the graph of the caller. -/
theorem bottomUpStep_eq_ok
    (hPair : s.pair? cs.caller callee.id = some (callerGraph, calleeGraph))
    (t? : Option Store)
    (hRun : bottomUpStep config s cs callee = .ok t?) :
    ∃ g, t? = some (s.setGraph cs.caller g) := by
  unfold bottomUpStep at hRun
  rw [Store.pair?_swap hPair] at hRun
  dsimp only at hRun
  revert t?
  iterate 2 refine Checked.result_of_bind fun _ => ?_
  intro t? hLast
  exact ⟨_, (pure_eq_ok_iff.mp hLast).symm⟩

/- A step down replaces the graph of the callee. -/
theorem topDownStep_eq_ok
    (hPair : s.pair? cs.caller callee.id = some (callerGraph, calleeGraph))
    (t? : Option (Nat × Store))
    (hRun : topDownStep config s cs callee = .ok t?) :
    ∃ n g, t? = some (n, s.setGraph callee.id g) := by
  unfold topDownStep at hRun
  rw [hPair] at hRun
  dsimp only at hRun
  revert t?
  refine Checked.result_of_bind fun _ => ?_
  split
  all_goals
    refine Checked.result_of_bind fun _ => ?_
    intro t? hLast
    exact ⟨_, _, (pure_eq_ok_iff.mp hLast).symm⟩

/- A call that needs something joins two graphs. -/
theorem exists_pair_of_decide
    {need : Propagation}
    (hDecide : ctx.decide s cs callee = .ok need)
    (hNeed : need ≠ .settled) :
    ∃ g h, s.pair? cs.caller callee.id = some (g, h) := by
  unfold Context.decide at hDecide
  split at hDecide
  · cases hDecide
    exact absurd rfl hNeed
  · next g h hPair => exact ⟨g, h, hPair⟩

variable {stats stats' : FixpointStats} {w w' : Worklist CallSiteId}

/-
  A call and one callee: nothing is needed, or a step at one end replaces
  the graph there and queues the calls of that end.
-/
theorem settleCallee_cases
    (hRun : settleCallee ctx cs (stats, s, w) callee = .ok (stats', t, w')) :
    (ctx.decide s cs callee = .ok .settled ∧ t = s ∧ w' = w) ∨
    ∃ f g h, (f = cs.caller ∨ f = callee.id) ∧
      (s.pair? cs.caller callee.id).isSome = true ∧
      s.graph? f = some g ∧ t = s.setGraph f h ∧
      w' = w.pushAll (ctx.dependents f) := by
  unfold settleCallee at hRun
  rcases of_bind hRun with ⟨need, hDecide, hRun⟩
  cases need with
  | settled =>
    cases hRun
    exact Or.inl ⟨hDecide, rfl, rfl⟩
  | down =>
    rcases exists_pair_of_decide hDecide (by decide) with ⟨g, h, hPair⟩
    dsimp only at hRun
    rcases of_bind hRun with ⟨t?, hStep, hRun⟩
    rcases topDownStep_eq_ok hPair t? hStep with ⟨n, h', rfl⟩
    cases hRun
    exact Or.inr ⟨callee.id, h, h', Or.inr rfl, Option.isSome_of_eq_some hPair,
      (Store.pair?_eq_some_iff.mp hPair).2.2, rfl, rfl⟩
  | up =>
    rcases exists_pair_of_decide hDecide (by decide) with ⟨g, h, hPair⟩
    dsimp only at hRun
    rcases of_bind hRun with ⟨t?, hStep, hRun⟩
    rcases bottomUpStep_eq_ok hPair t? hStep with ⟨g', rfl⟩
    cases hRun
    exact Or.inr ⟨cs.caller, g, g', Or.inl rfl, Option.isSome_of_eq_some hPair,
      (Store.pair?_eq_some_iff.mp hPair).2.1, rfl, rfl⟩

/- After a step the call is queued again. -/
theorem settleCallee_spec
    (hLists : ctx.Lists id cs)
    (hPropagatable : ctx.isPropagatable cs = true)
    (hDefined : callee ∈ ctx.definedCallees cs)
    (hRun : settleCallee ctx cs (stats, s, w) callee = .ok (stats', t, w')) :
    ctx.Queues s t w.queue w'.queue ∧ (id ∈ w'.queue ∨
        ctx.decide s cs callee = .ok .settled ∧ t = s) := by
  rcases settleCallee_cases hRun with
    ⟨hDecide, rfl, rfl⟩ |
    ⟨f, g, h, hEnd, hPair, hGraph, rfl, rfl⟩
  · exact ⟨.refl t w'.queue, Or.inr ⟨hDecide, rfl⟩⟩
  · have hMem := Context.mem_crossings hLists.ordered hLists.find hPropagatable hDefined hPair
    have hf := Context.mem_ends hMem hEnd
    have hId : id ∈ ctx.dependents f := by
      rcases hEnd with rfl | rfl
      · exact hLists.caller
      · exact hLists.callees callee hDefined
    exact ⟨Context.queues_setGraph hf hGraph h w,
      Or.inl (Worklist.mem_pushAll_iff.mpr (Or.inr hId))⟩

/- No need at any callee is no need at all. -/
theorem firstNeed_eq_settled
    {callees : List FunctionDef}
    (hAll : ∀ f ∈ callees, ctx.decide s cs f = .ok .settled) :
    ctx.firstNeed s cs callees = .ok .settled := by
  induction callees with
  | nil => rfl
  | cons f rest ih =>
    unfold Context.firstNeed
    rw [hAll f List.mem_cons_self]
    exact ih fun f' hf' =>
      hAll f' (List.mem_cons_of_mem _ hf')

-- The Main Loop

/-
  Every covered call is waiting or settled. Who is covered is told from the
  store at the start, as owners never change.
-/
def Converging
    (ctx : Context)
    (start s : Store)
    (queue : List CallSiteId) : Prop :=
  ctx.Tracks (fun s cs => ctx.pending s cs = .ok .settled)
    start s queue

/- The seeds are the calls that need something. -/
theorem converging_seeds
    {seeds : List CallSiteId}
    (hSeeds : pendingCalls ctx s = .ok seeds)
    (w : Worklist CallSiteId) :
    Converging ctx s s (w.pushAll seeds).queue where
  owners := .refl s
  covered := by
    intro id cs hLists _
    rcases Checked.filterM_eq_ok hSeeds id hLists.ordered with ⟨needs, hNeeds, hSeed⟩
    rw [hLists.find] at hNeeds
    dsimp only at hNeeds
    rcases of_bind hNeeds with ⟨need, hPending, hNeeds⟩
    rw [pure_eq_ok_iff] at hNeeds
    by_cases hSettled : need = .settled
    · rw [hPending, hSettled]
      exact Or.inr rfl
    · left
      rw [Worklist.mem_pushAll_iff]
      right
      apply hSeed
      rw [← hNeeds]
      simpa using hSettled

/- A step keeps every covered call waiting or settled. -/
theorem keeps_fixpointStep
    (hIndexes : ctx.callGraph.Indexes ctx.program.sortedCallSites)
    (start : Store) :
    Worklist.Keeps (fixpointStep ctx) fun state queue => Converging ctx start state.2 queue := by
  rintro a rest ⟨stats, s⟩ answer ⟨stats', t⟩ w' hBefore hRun
  unfold fixpointStep at hRun
  dsimp only at hRun
  cases hFind : ctx.callSite? a with
  | none =>
    rw [hFind] at hRun
    cases hRun
    refine ⟨rfl, hBefore.queues Context.readsPairs_settled (.refl _ _) ?_⟩
    intro cs hLists
    rw [hLists.find] at hFind
    cases hFind
  | some cs =>
    rw [hFind] at hRun
    dsimp only at hRun
    have hLists := Context.lists_of_callSite? hIndexes hFind
    split at hRun
    · next hPropagatable =>
      rcases of_bind hRun with ⟨⟨_, _, _⟩, hFold, hRun⟩
      cases hRun
      rcases Context.visits_spec (fun f hf _ _ _ _ _ _ =>
          settleCallee_spec hLists hPropagatable hf) hFold
        with ⟨hQueues, hSettled⟩
      refine ⟨rfl, hBefore.queues Context.readsPairs_settled hQueues ?_⟩
      intro cs' hLists'
      rw [hLists'.find] at hFind
      cases hFind
      rcases hSettled with hId | ⟨hAll, rfl⟩
      · exact Or.inl hId
      · right
        unfold Context.pending
        rw [if_pos hPropagatable]
        exact firstNeed_eq_settled hAll
    · next hPropagatable =>
      cases hRun
      refine ⟨rfl, hBefore.queues
      Context.readsPairs_settled (.refl _ _) ?_⟩
      intro cs' hLists'
      rw [hLists'.find] at hFind
      cases hFind
      right
      unfold Context.pending
      rw [if_neg hPropagatable]

/- The fixpoint settles the covered calls. -/
theorem converging_of_runFixpoint
    (hIndexes : ctx.callGraph.Indexes ctx.program.sortedCallSites)
    (hRun : runFixpoint ctx s = .ok (.ok stats, t)) :
    Converging ctx s t [] := by
  unfold runFixpoint at hRun
  rcases of_bind hRun with ⟨seeds, hSeeds, hRun⟩
  dsimp only at hRun
  rcases of_bind hRun with ⟨run, hDrain, hRun⟩
  rcases Worklist.drainWithin_spec (keeps_fixpointStep hIndexes s)
      (converging_seeds hSeeds {}) hDrain with
    ⟨n, hOk, hEnd⟩ | ⟨n, hError, _⟩
  · rw [hOk] at hRun
    cases hRun
    exact hEnd
  · rw [hError] at hRun
    cases hRun

end HeapShape
