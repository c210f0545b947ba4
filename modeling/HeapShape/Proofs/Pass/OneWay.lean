import HeapShape.Proofs.CallGraph.Calls
import HeapShape.Proofs.Graph.Mirrored
import HeapShape.Proofs.Pass.Closed
import HeapShape.Proofs.Pass.Progress
import Mathlib.Algebra.Order.BigOperators.Group.Finset

/-
  The closures end, and move one way.

  A closure revises nodes and changes nothing else. A unique scalar is
  dropped and never comes back; a node gains sites whose numbers it lacked,
  from a node at the other side of a simulation. The simulation reads none
  of this, so it stays the same. What is left to drop, or to gain, grows
  less with each change, and a closure makes a bounded number of visits.

  Main declarations:
    * `Graph.Revised`
    * `Node.Gains`
    * `Exchange`
    * `closures_end_and_move_one_way`
-/

-- Revised Graphs

namespace HeapShape

open Checked

open Finset (range)

namespace Graph

/- Some nodes are revised, and nothing else is changed. -/
structure Revised
    (R : NodeId → Node → Node → Prop)
    (g h : Graph) : Prop where
  rest : h = { g with slots := h.slots }
  size : h.slots.size = g.slots.size
  slots : ∀ id, h.slot id = g.slot id ∨
    ∃ n n', g.slot id = .live n ∧ h.slot id = .live n' ∧
      R id n n'

/- Some node is revised. -/
def Differs
    (R : NodeId → Node → Node → Prop)
    (g h : Graph) : Prop :=
  ∃ id n n', g.slot id = .live n ∧ h.slot id = .live n' ∧
    R id n n'

/- What is left to do at the nodes of a graph. -/
def rank
    (left : Node → Nat)
    (g : Graph) : Nat :=
  ∑ id ∈ range g.slots.size,
    (g.slot id).node?.elim 0 left

variable {R S : NodeId → Node → Node → Prop} {g h i : Graph}

theorem Revised.refl
    (g : Graph) :
    g.Revised R g :=
  ⟨rfl, rfl, fun _ => Or.inl rfl⟩

theorem Revised.imp
    (hgh : g.Revised R h)
    (hRS : ∀ id n n', g.slot id = .live n → R id n n' → S id n n') :
    g.Revised S h where
  rest := hgh.rest
  size := hgh.size
  slots := by
    intro id
    rcases hgh.slots id with hSame | ⟨n, n', hn, hn', hR⟩
    · exact Or.inl hSame
    · exact Or.inr ⟨n, n', hn, hn', hRS id n n' hn hR⟩

theorem Revised.trans
    (hgh : g.Revised R h)
    (hhi : h.Revised R i)
    (hR : ∀ id n m l, R id n m → R id m l → R id n l) :
    g.Revised R i where
  rest := by
    refine hhi.rest.trans ?_
    rw [hgh.rest]
  size := hhi.size.trans hgh.size
  slots := by
    intro id
    rcases hhi.slots id with hSame | ⟨m, l, hm, hl, hml⟩
    · rw [hSame]
      exact hgh.slots id
    · rcases hgh.slots id with hSame | ⟨n, m', hn, hm', hnm⟩
      · exact Or.inr ⟨m, l, hSame ▸ hm, hl, hml⟩
      · rw [hm] at hm'
        cases hm'
        exact Or.inr ⟨n, l, hn, hl, hR id n m l hnm hml⟩

/- A node is revised, or revised once more. -/
theorem Revised.setSlot
    (hgh : g.Revised R h)
    {id : NodeId}
    {n m m' : Node}
    (hn : g.slot id = .live n)
    (hm : h.slot id = .live m)
    (hR : R id n m') :
    g.Revised R (h.setSlot id (.live m')) where
  rest := by
    unfold Graph.setSlot
    rw [hgh.rest]
  size := by
    rw [← hgh.size]
    exact Array.size_setIfInBounds
  slots := by
    intro j
    rw [slot_setSlot (lt_size_of_live hm)]
    split
    · next hEq =>
      subst hEq
      exact Or.inr ⟨n, m', hn, rfl, hR⟩
    · exact hgh.slots j

/- Changes at live nodes are made one after the other. -/
theorem exists_modifyAll
    {α : Type}
    {node : α → NodeId}
    {f : α → Node → Node}
    {items : List α}
    (hItems : ∀ a ∈ items, ∃ n, g.slot (node a) = .live n ∧
      ∀ m, m = n ∨ R (node a) n m → R (node a) n (f a m))
    (hgh : g.Revised R h) :
    ∃ i, items.foldlM (fun h a => h.modifyNode (node a) (f a)) h = .ok i ∧
      g.Revised R i ∧ (items ≠ [] → g.Differs R i) := by
  induction items generalizing h with
  | nil => exact ⟨h, rfl, hgh, fun hNone => absurd rfl hNone⟩
  | cons a rest ih =>
    rcases hItems a List.mem_cons_self with ⟨n, hn, hNext⟩
    have hLive : ∃ m, h.slot (node a) = .live m ∧ (m = n ∨ R (node a) n m) := by
      rcases hgh.slots (node a) with hSame | ⟨n', m, hn', hm, hR⟩
      · exact ⟨n, hSame.trans hn, Or.inl rfl⟩
      · rw [hn] at hn'
        cases hn'
        exact ⟨m, hm, Or.inr hR⟩
    rcases hLive with ⟨m, hm, hOld⟩
    have hStep := hgh.setSlot hn hm (hNext m hOld)
    rcases ih (fun b hb =>
        hItems b (List.mem_cons_of_mem _ hb)) hStep with
      ⟨i, hRun, hgi, hSome⟩
    refine ⟨i, ?_, hgi, fun _ => ?_⟩
    · rw [List.foldlM_cons, modifyNode_of_live hm, ok_bind]
      exact hRun
    · cases rest with
      | cons b rest => exact hSome (List.cons_ne_nil b rest)
      | nil =>
        cases hRun
        refine ⟨node a, n, _, hn, ?_, hNext m hOld⟩
        rw [slot_setSlot (lt_size_of_live hm), if_pos rfl]

/- Revisions that leave less to do. -/
theorem Revised.rank_le
    {left : Node → Nat}
    (hgh : g.Revised R h)
    (hLess : ∀ id n n', g.slot id = .live n → R id n n' → left n' < left n) :
    h.rank left ≤ g.rank left ∧ (g.Differs R h → h.rank left < g.rank left) := by
  have hEach : ∀ id, (h.slot id).node?.elim 0 left ≤ (g.slot id).node?.elim 0 left := by
    intro id
    rcases hgh.slots id with hSame | ⟨n, n', hn, hn', hR⟩
    · rw [hSame]
    · rw [hn, hn']
      exact (hLess id n n' hn hR).le
  unfold rank
  rw [hgh.size]
  refine ⟨Finset.sum_le_sum fun id _ => hEach id, ?_⟩
  rintro ⟨id, n, n', hn, hn', hR⟩
  refine Finset.sum_lt_sum (fun id _ => hEach id) ⟨id, ?_, ?_⟩
  · exact Finset.mem_range.mpr (lt_size_of_live hn)
  · rw [hn, hn']
    exact hLess id n n' hn hR

end Graph

-- Revised Stores

open Finset (range)

namespace Store

/- The graphs have the same owners, and nodes are revised. -/
structure Revised
    (R : Node → Node → Prop)
    (s t : Store) : Prop extends SameOwners s t where
  graphs : ∀ (i : Nat) g, s.graphs[i]? = some g →
    ∃ h, t.graphs[i]? = some h ∧ Graph.Revised (fun _ => R) g h

/- What is left to do at the nodes of a store. -/
def rank
    (left : Node → Nat)
    (s : Store) : Nat :=
  ∑ i ∈ range s.graphs.size,
    (s.graphs[i]?).elim 0 (Graph.rank left)

variable {R : Node → Node → Prop} {left : Node → Nat} {s t u : Store} {f : FunctionId} {g h : Graph}

theorem Revised.refl
    (s : Store) :
    s.Revised R s where
  toSameOwners := .refl s
  graphs := fun _ g hAt => ⟨g, hAt, .refl g⟩

theorem Revised.trans
    (hst : s.Revised R t)
    (htu : t.Revised R u)
    (hR : ∀ n m l, R n m → R m l → R n l) :
    s.Revised R u where
  toSameOwners := hst.toSameOwners.trans htu.toSameOwners
  graphs := by
    intro i g hAt
    rcases hst.graphs i g hAt with ⟨h, hAt', hgh⟩
    rcases htu.graphs i h hAt' with ⟨k, hAt'', hhk⟩
    exact ⟨k, hAt'', hgh.trans hhk fun _ => hR⟩

/- The slot of the graph that a function has. -/
theorem exists_slot
    (hGraph : s.graph? f = some g) :
    ∃ i, s.graphs[i]? = some g ∧ ∀ h, s.setGraph f h =
      { s with graphs := s.graphs.setIfInBounds i h } := by
  rcases Option.bind_eq_some_iff.mp hGraph with ⟨i, hSlot, hAt⟩
  refine ⟨i, hAt, fun h => ?_⟩
  unfold setGraph
  rw [hSlot]

theorem Revised.setGraph
    (hGraph : s.graph? f = some g)
    (hgh : g.Revised (fun _ => R) h) :
    s.Revised R (s.setGraph f h) where
  toSameOwners := s.sameOwners_setGraph f h
  graphs := by
    rcases exists_slot hGraph with ⟨i, hAt, hSet⟩
    intro j k hj
    rw [hSet h]
    by_cases hEq : i = j
    · subst hEq
      rw [hAt] at hj
      cases hj
      refine ⟨h, ?_, hgh⟩
      rw [Array.getElem?_setIfInBounds_self_of_lt (Array.getElem?_eq_some_iff.mp hAt).1]
    · exact ⟨k, by rw [Array.getElem?_setIfInBounds_ne hEq, hj], .refl k⟩

/- Only the rank of the graph that is replaced counts. -/
theorem rank_setGraph
    (left : Node → Nat)
    (hGraph : s.graph? f = some g)
    (h : Graph) :
    (s.setGraph f h).rank left + g.rank left = s.rank left + h.rank left := by
  rcases exists_slot hGraph with ⟨i, hAt, hSet⟩
  have hLt := (Array.getElem?_eq_some_iff.mp hAt).1
  have hMem := Finset.mem_range.mpr hLt
  rw [hSet h]
  unfold rank
  rw [Array.size_setIfInBounds, ← Finset.add_sum_erase _ _ hMem,
    ← Finset.add_sum_erase (range s.graphs.size)
      (fun i => (s.graphs[i]?).elim 0 (Graph.rank left)) hMem]
  have hRest : ∀ j ∈ (range s.graphs.size).erase i,
      ((s.graphs.setIfInBounds i h)[j]?).elim 0 (Graph.rank left) =
      (s.graphs[j]?).elim 0 (Graph.rank left) := by
    intro j hj
    rw [Array.getElem?_setIfInBounds_ne (Ne.symm (Finset.ne_of_mem_erase hj))]
  rw [Finset.sum_congr rfl hRest, hAt, Array.getElem?_setIfInBounds_self_of_lt hLt]
  dsimp only [Option.elim]
  omega

end Store

-- Runs That End

/- A callee with a body, at a call that is propagated. -/
def Context.Calls
    (ctx : Context)
    (cs : CallSite)
    (callee : FunctionDef) : Prop :=
  (∃ id, ctx.callSite? id = some cs) ∧
    ctx.isPropagatable cs = true ∧
    callee ∈ ctx.definedCallees cs

/- A move at a call of the program. -/
def Context.Moves
    (ctx : Context)
    (move : CallSite → FunctionDef → Store → Store → Prop)
    (s t : Store) : Prop :=
  ∃ cs callee, ctx.Calls cs callee ∧ move cs callee s t

/-
  A way to make two graphs agree that ends well, and leaves less to do
  wherever it reports a change. Only if `F` holds may it overflow.
-/
def Context.Lowers
    (ctx : Context)
    (F : Prop)
    (reconcile : Reconcile)
    (Q : Store → Prop)
    (rank : Store → Nat)
    (move : CallSite → FunctionDef → Store → Store → Prop) :
    Prop :=
  ∀ s cs callee, Q s → ctx.Calls cs callee →
    s.sameGraph cs.caller callee.id = false →
    YieldsUnless F (reconcile s cs callee) fun r =>
      Q r.store ∧
      (r.store = s ∨ move cs callee s r.store) ∧
      rank r.store ≤ rank s ∧
      (0 < r.caller ∨ 0 < r.callee → rank r.store < rank s)

/- Calls of the program wait, each of them once. -/
def Context.Waiting
    (ctx : Context)
    (queue : List CallSiteId) : Prop :=
  queue.Nodup ∧ ∀ id ∈ queue, id ∈ ctx.callGraph.order

variable {ctx : Context} {F : Prop} {reconcile : Reconcile} {Q : Store → Prop} {rank : Store → Nat}
variable {move : CallSite → FunctionDef → Store → Store → Prop} {s t : Store}

theorem Context.Waiting.length_le
    {queue : List CallSiteId}
    (hQueue : ctx.Waiting queue) :
    queue.length ≤ ctx.callGraph.order.length :=
  (hQueue.1.subperm hQueue.2).length_le

theorem Context.Waiting.pushAll
    {w : Worklist CallSiteId}
    (hQueue : ctx.Waiting w.queue)
    {items : List CallSiteId}
    (hItems : ∀ id ∈ items, id ∈ ctx.callGraph.order) :
    ctx.Waiting (w.pushAll items).queue := by
  refine ⟨(w.pushAll items).distinct, ?_⟩
  intro id hMem
  rcases Worklist.mem_pushAll_iff.mp hMem with hOld | hNew
  · exact hQueue.2 id hOld
  · exact hItems id hNew

/-
  What visits leave: the store is reached by moves, and less is left to do
  or nothing more waits.
-/
structure Context.Visited
    (ctx : Context)
    (Q : Store → Prop)
    (rank : Store → Nat)
    (move : CallSite → FunctionDef → Store → Store → Prop)
    (start state : ClosureState) : Prop where
  holds : Q state.2.1
  queue : ctx.Waiting state.2.2.queue
  moves : Relation.ReflTransGen (ctx.Moves move) start.2.1
    state.2.1
  nearer : rank state.2.1 < rank start.2.1 ∨
    rank state.2.1 ≤ rank start.2.1 ∧
      state.2.2 = start.2.2

variable {state : ClosureState}

theorem Context.Visited.closeCallee
    (hIndexes : ctx.callGraph.Indexes ctx.program.sortedCallSites)
    (hLowers : ctx.Lowers F reconcile Q rank move)
    {start : ClosureState}
    (hState : ctx.Visited Q rank move start state)
    {cs : CallSite}
    {callee : FunctionDef}
    (hCalls : ctx.Calls cs callee) :
    YieldsUnless F (closeCallee ctx reconcile cs state callee) (ctx.Visited Q rank move start) := by
  rcases state with ⟨changes, s, w⟩
  have hPush : ∀ (count : Nat) (w : Worklist CallSiteId) f, ctx.Waiting w.queue → ctx.Waiting
        (if count > 0 then w.pushAll (ctx.dependents f)
          else w).queue := by
    intro count w f hWaiting
    split
    · refine hWaiting.pushAll fun id hMem => ?_
      exact hIndexes.listed f id (List.mem_append.mp hMem)
    · exact hWaiting
  unfold HeapShape.closeCallee
  dsimp only
  split
  · exact .ok hState
  · next hApart =>
    refine (hLowers s cs callee hState.holds hCalls (Bool.eq_false_of_not_eq_true hApart)).bind ?_
    rintro r ⟨hHolds, hMove, hLe, hLess⟩
    refine .ok ⟨hHolds, hPush _ _ _ (hPush _ _ _ hState.queue), ?_, ?_⟩
    · dsimp only
      rcases hMove with hSame | hMove
      · rw [hSame]
        exact hState.moves
      · exact hState.moves.tail ⟨cs, callee, hCalls, hMove⟩
    · have hOld := hState.nearer
      dsimp only at hOld ⊢
      by_cases hChanged : 0 < r.caller ∨ 0 < r.callee
      · have hLess := hLess hChanged
        exact Or.inl (by omega)
      · rw [not_or] at hChanged
        rw [if_neg hChanged.1, if_neg hChanged.2]
        rcases hOld with hOld | ⟨hOld, hSame⟩
        · exact Or.inl (hLe.trans_lt hOld)
        · exact Or.inr ⟨hLe.trans hOld, hSame⟩

/-
  A visit takes a call from the queue. Where it puts calls back, less is
  left to do, and that counts for as many calls as there are.
-/
theorem Context.Visited.far_lt
    {changes : Nat}
    {rest : Worklist CallSiteId}
    (hState : ctx.Visited Q rank move (changes, s, rest) state) :
    rank state.2.1 * ctx.callGraph.order.length + state.2.2.queue.length <
      rank s * ctx.callGraph.order.length + (rest.queue.length + 1) := by
  have hLength := hState.queue.length_le
  rcases hState.nearer with hLess | ⟨hLe, hSame⟩
  · have hMul := Nat.mul_le_mul_right ctx.callGraph.order.length (Nat.succ_le_of_lt hLess)
    rw [Nat.succ_mul] at hMul
    dsimp only at hMul
    omega
  · have hMul := Nat.mul_le_mul_right ctx.callGraph.order.length hLe
    rw [hSame]
    dsimp only at hMul ⊢
    omega

theorem approaches_closureStep
    (hIndexes : ctx.callGraph.Indexes ctx.program.sortedCallSites)
    (hLowers : ctx.Lowers F reconcile Q rank move)
    (start : Store) :
    Worklist.Approaches F (closureStep ctx reconcile)
      (fun state queue => Q state.2 ∧ ctx.Waiting queue ∧
        Relation.ReflTransGen (ctx.Moves move) start state.2)
      fun state queue =>
        rank state.2 * ctx.callGraph.order.length + queue.length where
  waiting := fun _ _ => Nat.le_add_left _ _
  nearer := by
    rintro a rest ⟨changes, s⟩ ⟨hHolds, hQueue, hMoves⟩
    have hRest : ctx.Waiting rest.queue :=
      ⟨(List.nodup_cons.mp hQueue.1).2, fun id hMem =>
        hQueue.2 id (List.mem_cons_of_mem _ hMem)⟩
    have hIdle : ctx.Visited Q rank move (changes, s, rest) (changes, s, rest) :=
      ⟨hHolds, hRest, .refl, Or.inr ⟨le_rfl, rfl⟩⟩
    unfold closureStep
    dsimp only
    split
    · exact .ok ⟨rfl, ⟨hHolds, hRest, hMoves⟩, hIdle.far_lt⟩
    · next cs hFind =>
      split
      · next hPropagatable =>
        refine YieldsUnless.bind (P := ctx.Visited Q rank move (changes, s, rest)) ?_ ?_
        · refine Checked.yieldsUnless_foldlM hIdle ?_
          intro state callee hDefined hState
          exact hState.closeCallee hIndexes hLowers ⟨⟨a, hFind⟩, hPropagatable, hDefined⟩
        · intro state hState
          exact .ok ⟨rfl, ⟨hState.holds, hState.queue, hMoves.trans hState.moves⟩, hState.far_lt⟩
      · exact .ok ⟨rfl, ⟨hHolds, hRest, hMoves⟩, hIdle.far_lt⟩

/- The same settings with another limit. -/
def Config.capped
    (config : Config)
    (limit : Nat) : Config :=
  { config with fixpoint :=
      { config.fixpoint with maxIterations := limit } }

/-
  A closure has one answer under all limits that allow so many visits, and
  makes no more. It ends without an error, unless a fact holds and a sum
  leaves the word range.
-/
def EndsWithin
    (F : Prop)
    (closure : Nat → Checked (Answered ClosureStats))
    (bound : Nat) : Prop :=
  ∃ result,
    (∀ limit, bound ≤ Worklist.allowed limit →
      closure limit = result) ∧
    YieldsUnless F result fun r =>
      ∃ stats, r.1 = .ok stats ∧ stats.iterations ≤ bound

/- At the start every call waits. -/
theorem Context.waiting_order
    (ctx : Context) :
    ctx.Waiting (({} : Worklist CallSiteId).pushAll ctx.callGraph.order).queue :=
  Context.Waiting.pushAll ⟨List.nodup_nil, fun _ hMem => absurd hMem List.not_mem_nil⟩
    fun _ hMem => hMem

theorem runClosure_ends
    {p : Program}
    {config : Config}
    (hLowers : (Context.ofProgram p config).Lowers F reconcile Q rank move)
    (hs : Q s) :
    EndsWithin F (fun limit => runClosure (.ofProgram p (config.capped limit)) reconcile s)
      ((rank s + 1) * p.callSites.length) := by
  generalize hBound : (rank s + 1) * p.callSites.length = bound
  have hIndexes := CallGraph.indexes_ofProgram p
  have hNear := approaches_closureStep hIndexes hLowers s
  have hStart := (Context.ofProgram p config).waiting_order
  have hOrder : (CallGraph.ofProgram p).order.length =
      p.callSites.length := by
    rw [hIndexes.order, List.length_map]
    exact (CallGraph.perm_sortedCallSites p).length_eq
  have hFar : rank s * (CallGraph.ofProgram p).order.length + (({} : Worklist CallSiteId).pushAll
        (CallGraph.ofProgram p).order).queue.length ≤
      bound := by
    have hQueue := hStart.length_le
    rw [← hBound, Nat.succ_mul, ← hOrder]
    exact Nat.add_le_add_left hQueue _
  -- The runs differ in their limits, and meet none of them.
  have hRun := fun limit (hLimit : bound ≤ Worklist.allowed limit) =>
    @Worklist.drainWithin_of_approaches _ _ _ _ _ (bound + 1) _ 0 (0, s) _ _ _ _
      hNear limit _ ⟨hs, hStart, .refl⟩
      (hFar.trans (Nat.le_succ bound)) (hFar.trans hLimit)
  refine ⟨runClosure (.ofProgram p (config.capped (bound + 1))) reconcile s, ?_, ?_⟩
  · intro limit hLimit
    exact congrArg (· >>= _) (hRun limit hLimit).1
  · refine (hRun (bound + 1) (Nat.le_succ bound)).2.bind ?_
    rintro ⟨outcome, state, rest⟩ ⟨n, hn, hOk⟩
    cases hOk
    refine .ok ⟨_, rfl, hn.trans ?_⟩
    rw [Nat.zero_add]
    exact hFar

theorem runClosure_moves
    (hIndexes : ctx.callGraph.Indexes ctx.program.sortedCallSites)
    (hLowers : ctx.Lowers F reconcile Q rank move)
    (hs : Q s)
    {answer : Except AnalysisError ClosureStats}
    (hRun : runClosure ctx reconcile s = .ok (answer, t)) :
    Relation.ReflTransGen (ctx.Moves move) s t := by
  have hKeeps := (approaches_closureStep hIndexes hLowers s).keeps
  unfold runClosure at hRun
  dsimp only at hRun
  rcases of_bind hRun with ⟨run, hDrain, hRun⟩
  rcases Worklist.drainWithin_spec hKeeps ⟨hs, ctx.waiting_order, .refl⟩ hDrain with
    ⟨n, hOk, _, _, hMoves⟩ | ⟨n, hError, _, _, _, hMoves⟩
  · rw [hOk] at hRun
    cases hRun
    exact hMoves
  · rw [hError] at hRun
    cases hRun
    exact hMoves

-- Changes Of Nodes

namespace Node

/- The numbers of a node's sites. -/
def siteIds
    (n : Node) : Finset AllocSiteId :=
  (n.allocSites.toList.map AllocSite.id).toFinset

/- A node loses the value that alone denotes it. -/
def DropsScalar
    (n n' : Node) : Prop :=
  n.uniqueScalar.everHad = true ∧
  n.uniqueScalar.value?.isSome = true ∧
  n' = { n with uniqueScalar := { everHad := true } }

/-
  A node gains sites out of some, each with a number that the node did not
  have.
-/
structure Gains
    (From : AllocSite → Prop)
    (n n' : Node) : Prop where
  rest : n' = { n with allocSites := n'.allocSites }
  kept : ∀ x ∈ n.allocSites, x ∈ n'.allocSites
  gained : ∀ x ∈ n'.allocSites,
    x ∈ n.allocSites ∨ x.id ∉ n.siteIds ∧ From x
  grows : ∃ x ∈ n'.allocSites, x.id ∉ n.siteIds

/- How many values a node can lose. -/
def scalarsLeft
    (n : Node) : Nat :=
  n.uniqueScalar.value?.toList.length

/- How many numbers of some a node can gain. -/
def sitesLeft
    (ids : Finset AllocSiteId)
    (n : Node) : Nat :=
  (ids \ n.siteIds).card

variable {From : AllocSite → Prop} {n m l : Node}

theorem mem_siteIds_iff
    {id : AllocSiteId} :
    id ∈ n.siteIds ↔ ∃ x ∈ n.allocSites, x.id = id := by
  unfold siteIds
  simp only [List.mem_toFinset, List.mem_map, OrdSet.mem_toList_iff]

theorem DropsScalar.trans
    (hnm : n.DropsScalar m)
    (hml : m.DropsScalar l) :
    n.DropsScalar l := by
  rcases hnm with ⟨_, _, rfl⟩
  exact absurd hml.2.1 Bool.false_ne_true

theorem Gains.imp
    {From' : AllocSite → Prop}
    (hnm : n.Gains From m)
    (hFrom : ∀ x, From x → From' x) :
    n.Gains From' m where
  rest := hnm.rest
  kept := hnm.kept
  gained := fun x hx =>
    (hnm.gained x hx).imp_right (.imp_right (hFrom x))
  grows := hnm.grows

theorem Gains.siteIds_subset
    (hnm : n.Gains From m) :
    n.siteIds ⊆ m.siteIds := by
  intro id hId
  rcases mem_siteIds_iff.mp hId with ⟨x, hx, rfl⟩
  exact mem_siteIds_iff.mpr ⟨x, hnm.kept x hx, rfl⟩

theorem Gains.trans
    (hnm : n.Gains From m)
    (hml : m.Gains From l) :
    n.Gains From l where
  rest := by
    refine hml.rest.trans ?_
    rw [hnm.rest]
  kept := fun x hx => hml.kept x (hnm.kept x hx)
  gained := by
    intro x hx
    rcases hml.gained x hx with hOld | ⟨hNew, hFrom⟩
    · exact hnm.gained x hOld
    · exact Or.inr ⟨fun hId => hNew (hnm.siteIds_subset hId), hFrom⟩
  grows := by
    rcases hnm.grows with ⟨x, hx, hNew⟩
    exact ⟨x, hml.kept x hx, hNew⟩

/- One more site. -/
theorem gains_insert
    {x : AllocSite}
    (hx : From x)
    (hNew : x.id ∉ n.siteIds)
    (hm : m = n ∨ n.Gains From m) :
    n.Gains From { m with
      allocSites := m.allocSites.insert x } := by
  have hOne : ∀ y ∈ m.allocSites, y ∈ m.allocSites.insert x :=
    fun y hy => (OrdSet.mem_insert_iff _ _ _).mpr (Or.inr hy)
  have hIn : x ∈ m.allocSites.insert x := (OrdSet.mem_insert_iff _ _ _).mpr (Or.inl rfl)
  have hOld : m = { n with allocSites := m.allocSites } ∧ (∀ y ∈ n.allocSites, y ∈ m.allocSites) ∧
      ∀ y ∈ m.allocSites, y ∈ n.allocSites ∨ y.id ∉ n.siteIds ∧ From y := by
    rcases hm with rfl | hm
    · exact ⟨rfl, fun _ => id, fun _ => Or.inl⟩
    · exact ⟨hm.rest, hm.kept, hm.gained⟩
  rcases hOld with ⟨hRest, hKept, hGained⟩
  refine ⟨?_, fun y hy => hOne y (hKept y hy), ?_, ⟨x, hIn, hNew⟩⟩
  · dsimp only
    rw [hRest]
  · intro y hy
    rcases (OrdSet.mem_insert_iff _ _ _).mp hy with rfl | hy
    · exact Or.inr ⟨hNew, hx⟩
    · exact hGained y hy

end Node

/-
  A kind of change of a node, told by the sites that may be added.
-/
abbrev NodeChange :=
  (AllocSite → Prop) → Node → Node → Prop

/- Such changes leave less to do, and no new number. -/
structure NodeChange.Lessens
    (R : NodeChange)
    (ids : Finset AllocSiteId)
    (left : Node → Nat) : Prop where
  within : ∀ From n n', R From n n' → n.siteIds ⊆ ids →
    (∀ x, From x → x.id ∈ ids) → n'.siteIds ⊆ ids
  less : ∀ From n n', R From n n' →
    (∀ x, From x → x.id ∈ ids) → left n' < left n

theorem lessens_dropsScalar
    (ids : Finset AllocSiteId) :
    NodeChange.Lessens (fun _ => Node.DropsScalar) ids Node.scalarsLeft where
  within := by
    rintro From n _ ⟨_, _, rfl⟩ hIds _
    exact hIds
  less := by
    rintro From n _ ⟨_, hSome, rfl⟩ _
    rcases Option.isSome_iff_exists.mp hSome with ⟨v, hValue⟩
    unfold Node.scalarsLeft
    rw [hValue]
    exact Nat.zero_lt_one

theorem lessens_gains
    (ids : Finset AllocSiteId) :
    NodeChange.Lessens Node.Gains ids (Node.sitesLeft ids) where
  within := by
    intro From n n' hGains hIds hFrom id hId
    rcases Node.mem_siteIds_iff.mp hId with ⟨x, hx, rfl⟩
    rcases hGains.gained x hx with hOld | ⟨_, hNew⟩
    · exact hIds (Node.mem_siteIds_iff.mpr ⟨x, hOld, rfl⟩)
    · exact hFrom x hNew
  less := by
    intro From n n' hGains hFrom
    rcases hGains.grows with ⟨x, hx, hNew⟩
    have hId : x.id ∈ ids := by
      rcases hGains.gained x hx with hOld | ⟨_, hNew⟩
      · exact absurd (Node.mem_siteIds_iff.mpr ⟨x, hOld, rfl⟩) hNew
      · exact hFrom x hNew
    have hIn := Node.mem_siteIds_iff.mpr ⟨x, hx, rfl⟩
    refine Finset.card_lt_card (Finset.ssubset_iff_subset_ne.mpr
      ⟨Finset.sdiff_subset_sdiff subset_rfl hGains.siteIds_subset, fun hEq => ?_⟩)
    have hBoth := Finset.mem_sdiff.mpr ⟨hId, hNew⟩
    rw [← hEq] at hBoth
    exact (Finset.mem_sdiff.mp hBoth).2 hIn

-- Edits That Revise

namespace Simulation

/- A site of a callee node that is mapped to a node. -/
def Sends
    (sim : Simulation)
    (policy : CloningPolicy)
    (calleeGraph : Graph)
    (id : NodeId)
    (x : AllocSite) : Prop :=
  ∃ source n img, calleeGraph.slot source = .live n ∧
    sim.image? source = some img ∧ img.node = id ∧
    x ∈ n.allocSites ∧
    ¬ (policy.stripAllocas = true ∧ x.isStack = true)

/- A site of the node that a callee node is mapped to. -/
def Returns
    (sim : Simulation)
    (policy : CloningPolicy)
    (callerGraph : Graph)
    (id : NodeId)
    (x : AllocSite) : Prop :=
  ∃ img n, sim.image? id = some img ∧
    callerGraph.slot img.node = .live n ∧
    x ∈ n.allocSites ∧
    ¬ (policy.noEscape = true ∧ x.isStack = true)

end Simulation

/- A revised graph, and whether a node differs. -/
structure Graph.Counted
    (R : NodeId → Node → Node → Prop)
    (g : Graph)
    (count : Nat)
    (h : Graph) : Prop extends Graph.Revised R g h where
  differs : 0 < count → g.Differs R h
  wellFormed : g.WellFormed → h.WellFormed

/- An edit that changes nodes in one way only. -/
def Edit.Revises
    (edit : Edit)
    (policy : CloningPolicy)
    (R : NodeChange) : Prop :=
  ∀ g h sim mapped, (∀ m ∈ mapped, m.Lies g h sim) →
    ∃ a g' b h', edit g h mapped = .ok (a, g', b, h') ∧
      g.Counted (fun id => R (sim.Sends policy h id)) a g' ∧
      h.Counted (fun id => R (sim.Returns policy g id)) b h'

variable {g h : Graph} {policy : CloningPolicy}

theorem exists_clearScalars
    (ids : OrdSet NodeId)
    (hIds : ∀ id ∈ ids, ∃ n, g.slot id = .live n ∧
      n.uniqueScalar.everHad = true ∧
      n.uniqueScalar.value?.isSome = true) :
    ∃ h, clearScalars g ids = .ok h ∧
      g.Counted (fun _ => Node.DropsScalar) ids.size h := by
  have hItems : ∀ id ∈ ids.toList, ∃ n, g.slot id = .live n ∧
      ∀ m, m = n ∨ n.DropsScalar m → n.DropsScalar
        { m with uniqueScalar := m.uniqueScalar.clear } := by
    intro id hMem
    rcases hIds id ((OrdSet.mem_toList_iff _ _).mp hMem) with ⟨n, hn, hHad, hSome⟩
    refine ⟨n, hn, ?_⟩
    rintro _ (rfl | ⟨_, _, rfl⟩)
    · refine ⟨hHad, hSome, ?_⟩
      unfold UniqueScalar.clear
      rw [hHad, Bool.true_or]
    · exact ⟨hHad, hSome, rfl⟩
  rcases Graph.exists_modifyAll hItems (.refl g) with ⟨h, hRun, hRevised, hDiffers⟩
  refine ⟨h, hRun, hRevised, fun hCount => hDiffers ?_, ?_⟩
  · rw [OrdSet.size_eq_length] at hCount
    exact List.ne_nil_of_length_pos hCount
  · intro hg
    refine foldlM_induction (P := Graph.WellFormed) ?_ hg hRun
    intro g₁ id _ g₂ hg₁ hStep
    exact (Graph.Sound.clearUniqueScalar (E := True) hg₁ hStep).wellFormed

theorem exists_addSites
    (From : NodeId → AllocSite → Prop)
    (sites : List (NodeId × AllocSite))
    (hSites : ∀ e ∈ sites, ∃ n, g.slot e.1 = .live n ∧ e.2.id ∉ n.siteIds ∧
        From e.1 e.2) :
    ∃ h, addSites g sites = .ok h ∧
      g.Counted (fun id => Node.Gains (From id)) sites.length h := by
  have hAdded := Graph.exists_modifyAll (R := fun id => Node.Gains (From id))
    (f := fun (e : NodeId × AllocSite) m =>
      { m with allocSites := m.allocSites.insert e.2 })
    (fun e hMem => by
      rcases hSites e hMem with ⟨n, hn, hNew, hFrom⟩
      exact ⟨n, hn, fun m => Node.gains_insert hFrom hNew⟩)
    (.refl g)
  rcases hAdded with ⟨h, hRun, hRevised, hDiffers⟩
  refine ⟨h, hRun, hRevised, fun hCount =>
    hDiffers (List.ne_nil_of_length_pos hCount), ?_⟩
  intro hg
  refine foldlM_induction (P := Graph.WellFormed) ?_ hg hRun
  intro g₁ e _ g₂ hg₁ hStep
  exact (Graph.Sound.addAllocSite (E := True) hg₁ hStep).wellFormed

theorem revises_clearDiffering
    (policy : CloningPolicy) :
    clearDiffering.Revises policy fun _ => Node.DropsScalar := by
  intro g h sim mapped hMapped
  have hHad : ∀ m ∈ mapped.filter Mapped.scalarsDiffer,
      m.Lies g h sim ∧ m.node.uniqueScalar.everHad = true ∧
        m.image.uniqueScalar.everHad = true := by
    intro m hMem
    rcases List.mem_filter.mp hMem with ⟨hIn, hDiffers⟩
    unfold Mapped.scalarsDiffer at hDiffers
    rw [Bool.and_eq_true, Bool.and_eq_true] at hDiffers
    exact ⟨hMapped m hIn, hDiffers.1⟩
  rcases exists_clearScalars (g := g) (OrdSet.ofList
      (((mapped.filter Mapped.scalarsDiffer).filter fun m =>
        m.image.uniqueScalar.value?.isSome).map Mapped.imageId)) (by
      intro id hMem
      rw [OrdSet.mem_ofList_iff] at hMem
      rcases List.mem_map.mp hMem with ⟨m, hm, rfl⟩
      rcases List.mem_filter.mp hm with ⟨hm, hSome⟩
      rcases hHad m hm with ⟨hLies, _, hImage⟩
      exact ⟨m.image, hLies.imageLive, hImage, hSome⟩) with
    ⟨g', hUp, hg⟩
  rcases exists_clearScalars (g := h) (OrdSet.ofList
      (((mapped.filter Mapped.scalarsDiffer).filter fun m =>
        m.node.uniqueScalar.value?.isSome).map Mapped.id)) (by
      intro id hMem
      rw [OrdSet.mem_ofList_iff] at hMem
      rcases List.mem_map.mp hMem with ⟨m, hm, rfl⟩
      rcases List.mem_filter.mp hm with ⟨hm, hSome⟩
      rcases hHad m hm with ⟨hLies, hNode, _⟩
      exact ⟨m.node, hLies.live, hNode, hSome⟩) with
    ⟨h', hDown, hh⟩
  refine ⟨_, g', _, h', ?_, hg, hh⟩
  unfold clearDiffering
  dsimp only
  rw [hUp, ok_bind, hDown]
  rfl

/- What a site that is missing is like. -/
theorem of_mem_missingSites
    {keepStack : Bool}
    {n image : Node}
    {x : AllocSite}
    (hMem : x ∈ missingSites keepStack n.allocSites image.allocSites) :
    x ∈ n.allocSites ∧ ¬ (keepStack = true ∧ x.isStack = true) ∧
      x.id ∉ image.siteIds := by
  rcases List.mem_filter.mp hMem with ⟨hIn, hTest⟩
  rw [Bool.and_eq_true, Bool.not_eq_true', Bool.not_eq_true', Bool.and_eq_false_iff] at hTest
  refine ⟨(OrdSet.mem_toList_iff _ _).mp hIn, ?_, ?_⟩
  · rintro ⟨hKeep, hStack⟩
    rw [hKeep, hStack] at hTest
    rcases hTest.1 with hFalse | hFalse <;> cases hFalse
  · intro hId
    rcases Node.mem_siteIds_iff.mp hId with ⟨y, hy, hEq⟩
    have hNone := List.any_eq_false.mp hTest.2 y ((OrdSet.mem_toList_iff _ _).mpr hy)
    rw [hEq, beq_self_eq_true] at hNone
    exact hNone rfl

theorem revises_exchangeSites
    (policy : CloningPolicy) :
    (exchangeSites policy).Revises policy Node.Gains := by
  intro g h sim mapped hMapped
  rcases exists_addSites (g := g) (sim.Sends policy h) ((mapped.map fun m =>
        (missingSites policy.stripAllocas m.node.allocSites m.image.allocSites).map
            fun s => (m.imageId, s)).flatten) (by
      intro e hMem
      rcases mem_flatten_sites hMem with ⟨m, hm, x, hx, rfl⟩
      rcases of_mem_missingSites hx with ⟨hIn, hKeep, hNew⟩
      rcases (hMapped m hm).image with ⟨img, hImage, hNode⟩
      exact ⟨m.image, (hMapped m hm).imageLive, hNew, m.id,
        m.node, img, (hMapped m hm).live, hImage, hNode, hIn,
        hKeep⟩) with
    ⟨g', hUp, hg⟩
  rcases exists_addSites (g := h) (sim.Returns policy g) ((mapped.map fun m =>
        (missingSites policy.noEscape m.image.allocSites m.node.allocSites).map
            fun s => (m.id, s)).flatten) (by
      intro e hMem
      rcases mem_flatten_sites hMem with ⟨m, hm, x, hx, rfl⟩
      rcases of_mem_missingSites hx with ⟨hIn, hKeep, hNew⟩
      rcases (hMapped m hm).image with ⟨img, hImage, hNode⟩
      have hLive := (hMapped m hm).imageLive
      rw [← hNode] at hLive
      exact ⟨m.node, (hMapped m hm).live, hNew, img, m.image, hImage, hLive, hIn, hKeep⟩) with
    ⟨h', hDown, hh⟩
  refine ⟨_, g', _, h', ?_, hg, hh⟩
  unfold exchangeSites
  dsimp only
  rw [hUp, ok_bind, hDown]
  rfl

-- Exchanges At A Call

/-
  The graphs of a call's two sides are revised, each node by what the
  simulation at the call maps it to or to it.
-/
def Exchange
    (policy : CloningPolicy)
    (R : NodeChange)
    (cs : CallSite)
    (callee : FunctionDef)
    (s t : Store) : Prop :=
  ∃ g h sim g' h',
    s.pair? cs.caller callee.id = some (g, h) ∧
    Simulation.ofCall cs callee h g = .ok sim ∧
    sim.isFunction = true ∧
    g.Revised (fun id => R (sim.Sends policy h id)) g' ∧
    h.Revised (fun id => R (sim.Returns policy g id)) h' ∧
    t = (s.setGraph cs.caller g').setGraph callee.id h'

/- No simulation at a call leaves the word range. -/
def Context.Maps
    (ctx : Context)
    (s : Store) : Prop :=
  ∀ cs callee, ctx.Calls cs callee → ∀ g h,
    s.pair? cs.caller callee.id = some (g, h) →
    ∃ sim, Simulation.ofCall cs callee h g = .ok sim

/- Well-formed graphs with sites of some numbers. -/
def Store.Within
    (ids : Finset AllocSiteId)
    (s : Store) : Prop :=
  ∀ g ∈ s.graphs, g.WellFormed ∧
    ∀ id n, g.slot id = .live n → n.siteIds ⊆ ids

variable {R : NodeChange} {ids : Finset AllocSiteId} {left : Node → Nat} {cs : CallSite}
variable {callee : FunctionDef}

/- Simulations stay what they are in stores of one shape. -/
theorem Context.Maps.boundary?_ne
    (hMaps : ctx.Maps s)
    (hst : s.SameShapes t)
    (hCalls : ctx.Calls cs callee)
    (hApart : t.sameGraph cs.caller callee.id = false) :
    boundary? t cs callee ≠ .error .addOverflow := by
  intro hOver
  cases hPair' : t.pair? cs.caller callee.id with
  | none =>
    unfold boundary? at hOver
    split at hOver
    · next hCaller hCallee =>
      rw [Store.pair?_eq_some_iff.mpr ⟨hApart, hCaller, hCallee⟩] at hPair'
      cases hPair'
    · cases hOver
  | some pair' =>
    rcases pair' with ⟨g', h'⟩
    have hSome := hst.isSome_pair? cs.caller callee.id
    rw [hPair'] at hSome
    rcases Option.isSome_iff_exists.mp hSome.symm with ⟨⟨g, h⟩, hPair⟩
    rcases Store.pair?_eq_some_iff.mp hPair' with ⟨_, hCaller', hCallee'⟩
    rcases Store.pair?_eq_some_iff.mp hPair with ⟨_, hCaller, hCallee⟩
    rcases hst.shapes _ g hCaller with ⟨_, hg, hgShape⟩
    rcases hst.shapes _ h hCallee with ⟨_, hh, hhShape⟩
    rw [hCaller'] at hg
    rw [hCallee'] at hh
    cases hg
    cases hh
    rcases hMaps cs callee hCalls g h hPair with ⟨sim, hSim⟩
    rw [boundary?_of_pair hPair', Simulation.ofCall_eq hhShape hgShape, hSim] at hOver
    cases hOver

/- A revised graph has well-formed nodes and no new number. -/
theorem Graph.Counted.within
    {From : NodeId → AllocSite → Prop}
    {count : Nat}
    (hgh : g.Counted (fun id => R (From id)) count h)
    (hLess : R.Lessens ids left)
    (hFrom : ∀ id x, From id x → x.id ∈ ids)
    (hg : g.WellFormed ∧ ∀ id n, g.slot id = .live n → n.siteIds ⊆ ids) :
    h.WellFormed ∧ ∀ id n, h.slot id = .live n → n.siteIds ⊆ ids := by
  refine ⟨hgh.wellFormed hg.1, ?_⟩
  intro id n' hn'
  rcases hgh.slots id with hSame | ⟨n, m, hn, hm, hR⟩
  · exact hg.2 id n' (hSame.symm.trans hn')
  · rw [hn'] at hm
    cases hm
    exact hLess.within _ n n' hR (hg.2 id n hn) (hFrom id)

/-
  An edit in one way keeps the shapes, and leaves less to do in the graphs
  that it reports changes of.
-/
theorem lowers_reconcile
    {edit : Edit}
    (hEdit : edit.Revises policy R)
    (hLess : R.Lessens ids left)
    (hKeeps : KeepsShapes edit.reconcile)
    (ctx : Context)
    (s : Store) :
    ctx.Lowers (¬ ctx.Maps s) edit.reconcile (fun t => t.Within ids ∧ s.SameShapes t)
      (Store.rank left) (Exchange policy R) := by
  rintro t cs callee ⟨hWithin, hShapes⟩ hCalls hApart
  have hOver : boundary? t cs callee = .error .addOverflow → ¬ ctx.Maps s := fun hOver hMaps =>
    hMaps.boundary?_ne hShapes hCalls hApart hOver
  suffices hMain : YieldsUnless (¬ ctx.Maps s) (edit.reconcile t cs callee) fun r =>
        r.store.Within ids ∧
        (r.store = t ∨ Exchange policy R cs callee t r.store) ∧
        r.store.rank left ≤ t.rank left ∧
        (0 < r.caller ∨ 0 < r.callee → r.store.rank left < t.rank left) by
    rcases hMain with hFault | ⟨r, hRun, hStore, hRest⟩
    · exact Or.inl hFault
    · exact Or.inr ⟨r, hRun, ⟨hStore, hShapes.trans (hKeeps t cs callee r hApart hRun)⟩, hRest⟩
  unfold Edit.reconcile
  refine ((Store.yields_boundary? (fun g hMem =>
    (hWithin g hMem).1) cs callee).unless hOver).bind ?_
  intro b? hBoundary
  cases b? with
  | none =>
    refine .ok ⟨hWithin, Or.inl rfl, le_rfl, ?_⟩
    rintro (hNone | hNone) <;> cases hNone
  | some b =>
    rcases b with ⟨g, h, sim⟩
    rcases hBoundary _ rfl with ⟨hCaller, hCallee, hSim, hFunction, hImages⟩
    dsimp only at hCaller hCallee hSim hFunction hImages ⊢
    rcases exists_mappedNodes h hImages with ⟨mapped, hMapped, hLies⟩
    rcases hEdit g h sim mapped hLies with ⟨a, g', b, h', hRun, hUp, hDown⟩
    rw [hMapped, ok_bind, hRun, ok_bind]
    have hPair := Store.pair?_eq_some_iff.mpr ⟨hApart, hCaller, hCallee⟩
    have hIn : ∀ f k, t.graph? f = some k → k.WellFormed ∧
        ∀ id n, k.slot id = .live n → n.siteIds ⊆ ids := by
      intro f k hGraph
      exact hWithin k (Store.mem_graphs hGraph)
    have hSends : ∀ id x, sim.Sends policy h id x → x.id ∈ ids := by
      rintro id x ⟨source, n, img, hn, _, _, hx, _⟩
      exact (hIn _ h hCallee).2 source n hn (Node.mem_siteIds_iff.mpr ⟨x, hx, rfl⟩)
    have hReturns : ∀ id x, sim.Returns policy g id x → x.id ∈ ids := by
      rintro id x ⟨img, n, _, hn, hx, _⟩
      exact (hIn _ g hCaller).2 img.node n hn (Node.mem_siteIds_iff.mpr ⟨x, hx, rfl⟩)
    have hUpRank := hUp.rank_le fun id n n' _ hR =>
      hLess.less _ n n' hR (hSends id)
    have hDownRank := hDown.rank_le fun id n n' _ hR =>
      hLess.less _ n n' hR (hReturns id)
    -- The callee's graph is still there to be replaced.
    have hCallee' := (Store.pair?_eq_some_iff.mp (Store.pair?_swap (Store.pair?_setGraph
        (Store.pair?_swap hPair) g'))).2.2
    have hFirst := Store.rank_setGraph left hCaller g'
    have hSecond := Store.rank_setGraph left hCallee' h'
    refine .ok ⟨?_, Or.inr ⟨g, h, sim, g', h', hPair, hSim,
      hFunction, hUp.toRevised, hDown.toRevised, rfl⟩, ?_,
      ?_⟩
    · exact Store.forall_setGraph (Store.forall_setGraph
        hWithin (hUp.within hLess hSends (hIn _ g hCaller)) _)
        (hDown.within hLess hReturns (hIn _ h hCallee)) _
    · dsimp only
      omega
    · dsimp only
      rintro (hChanged | hChanged)
      · have hDrop := hUpRank.2 (hUp.differs hChanged)
        omega
      · have hDrop := hDownRank.2 (hDown.differs hChanged)
        omega

-- One Way

/- The numbers of all sites in a store. -/
def Store.siteIds
    (s : Store) : Finset AllocSiteId :=
  (s.graphs.toList.flatMap fun g => g.liveNodes.flatMap
    fun e => e.2.allocSites.toList.map
      AllocSite.id).toFinset

variable {S : Node → Node → Prop}

theorem Store.within_siteIds
    (hs : ∀ g ∈ s.graphs, g.WellFormed) :
    s.Within s.siteIds := by
  intro g hMem
  refine ⟨hs g hMem, ?_⟩
  intro id n hn site hSite
  unfold Store.siteIds
  rw [List.mem_toFinset, List.mem_flatMap]
  refine ⟨g, Array.mem_toList_iff.mpr hMem, ?_⟩
  rw [List.mem_flatMap]
  exact ⟨(id, n), Graph.mem_liveNodes.mpr hn, List.mem_toFinset.mp hSite⟩

theorem Exchange.revised
    (hst : Exchange policy R cs callee s t)
    (hRS : ∀ From n n', R From n n' → S n n')
    (hTrans : ∀ n m l, S n m → S m l → S n l) :
    s.Revised S t := by
  rcases hst with ⟨g, h, sim, g', h', hPair, _, _, hUp, hDown, rfl⟩
  have hCaller := (Store.pair?_eq_some_iff.mp hPair).2.1
  have hCallee := (Store.pair?_eq_some_iff.mp
    (Store.pair?_swap (Store.pair?_setGraph (Store.pair?_swap hPair) g'))).2.2
  have hFirst := Store.Revised.setGraph hCaller (hUp.imp fun _ n n' _ => hRS _ n n')
  have hSecond := Store.Revised.setGraph hCallee (hDown.imp fun _ n n' _ => hRS _ n n')
  exact hFirst.trans hSecond hTrans

theorem revised_of_moves
    (hst : Relation.ReflTransGen (ctx.Moves (Exchange policy R)) s t)
    (hRS : ∀ From n n', R From n n' → S n n')
    (hTrans : ∀ n m l, S n m → S m l → S n l) :
    s.Revised S t := by
  induction hst with
  | refl => exact .refl s
  | tail _ hMove ih =>
    rcases hMove with ⟨cs, callee, _, hExchange⟩
    exact ih.trans (hExchange.revised hRS hTrans) hTrans

/-
  Both closures end, and what they change goes one way. The
  number of visits has a bound that is read from the store:
  each value that can be dropped, or each site number that a node lacks,
  brings all calls back at most once. Under every limit that allows so many
  visits the answer is the same; with no limit as many are allowed as can be
  counted. Only a simulation that leaves the word range makes a closure
  fail.

  The first closure drops unique scalars. The second one adds sites whose
  number the node lacked, step by step from a node that is mapped to the
  node or that the node is mapped to. Nothing else in any graph is changed.
-/
theorem closures_end_and_move_one_way
    (p : Program)
    (config : Config)
    (s : Store)
    (hs : ∀ g ∈ s.graphs, g.WellFormed) :
    EndsWithin (¬ (Context.ofProgram p config).Maps s)
      (fun limit => uniqueScalarClosure
        (.ofProgram p (config.capped limit)) s)
      ((s.rank Node.scalarsLeft + 1) * p.callSites.length) ∧
    EndsWithin (¬ (Context.ofProgram p config).Maps s)
      (fun limit => allocSiteClosure
        (.ofProgram p (config.capped limit)) s)
      ((s.rank (Node.sitesLeft s.siteIds) + 1) *
        p.callSites.length) ∧
    (∀ answer t,
      uniqueScalarClosure (.ofProgram p config) s =
        .ok (answer, t) →
      s.Revised Node.DropsScalar t) ∧
    (∀ answer t,
      allocSiteClosure (.ofProgram p config) s =
        .ok (answer, t) →
      s.Revised (Node.Gains fun _ => True) t ∧
      Relation.ReflTransGen ((Context.ofProgram p config).Moves
        (Exchange config.cloning Node.Gains)) s t) := by
  have hIndexes := CallGraph.indexes_ofProgram p
  have hStart := Store.within_siteIds hs
  have hScalars := lowers_reconcile
    (revises_clearDiffering config.cloning)
    (lessens_dropsScalar s.siteIds)
    (reconcileScalars_eq ▸ keepsShapes_reconcileScalars)
    (.ofProgram p config) s
  have hSites := lowers_reconcile
    (revises_exchangeSites config.cloning)
    (lessens_gains s.siteIds)
    (reconcileSites_eq config.cloning ▸
      keepsShapes_reconcileSites config.cloning)
    (.ofProgram p config) s
  rw [← reconcileScalars_eq] at hScalars
  rw [← reconcileSites_eq] at hSites
  have hScalarsEnd := runClosure_ends hScalars
    ⟨hStart, .refl s⟩
  have hSitesEnd := runClosure_ends hSites ⟨hStart, .refl s⟩
  refine ⟨hScalarsEnd, hSitesEnd, ?_, ?_⟩
  · intro answer t hRun
    exact revised_of_moves (runClosure_moves hIndexes hScalars
      ⟨hStart, .refl s⟩ hRun) (fun _ _ _ => id)
      fun _ _ _ => Node.DropsScalar.trans
  · intro answer t hRun
    have hMoves := runClosure_moves hIndexes hSites
      ⟨hStart, .refl s⟩ hRun
    exact ⟨revised_of_moves hMoves
      (fun _ _ _ hGains => hGains.imp fun _ _ => trivial)
      fun _ _ _ => Node.Gains.trans, hMoves⟩

/-
  After the bottom-up pass over a relay of an object, both closures have
  something to change.
-/
theorem closures_end_and_move_one_way_of_relay :
    ∃ s t u scalars sites,
      (∀ g ∈ s.graphs, g.WellFormed) ∧
      uniqueScalarClosure
        (.ofProgram relay (Config.capped {} 0)) s =
          .ok (.ok scalars, t) ∧
      0 < scalars.changes ∧
      s.Revised Node.DropsScalar t ∧
      allocSiteClosure
        (.ofProgram relay (Config.capped {} 0)) s =
          .ok (.ok sites, u) ∧
      0 < sites.changes ∧
      s.Revised (Node.Gains fun _ => True) u := by
  have hRun : (do
      let up ← bottomUpPass
        (.ofProgram relay (Config.capped {} 0)) {}
      let first ← uniqueScalarClosure
        (.ofProgram relay (Config.capped {} 0)) up.2
      let second ← allocSiteClosure
        (.ofProgram relay (Config.capped {} 0)) up.2
      return (first.1.toOption.map ClosureStats.changes,
        second.1.toOption.map ClosureStats.changes)) =
        Except.ok (some 3, some 2) := by
    cbv
  rw [Checked.bind_eq_ok_iff] at hRun
  rcases hRun with ⟨⟨_, s⟩, hUp, hRun⟩
  rw [Checked.bind_eq_ok_iff] at hRun
  rcases hRun with ⟨⟨answer, t⟩, hScalars, hRun⟩
  rw [Checked.bind_eq_ok_iff] at hRun
  rcases hRun with ⟨⟨answer', u⟩, hSites, hRun⟩
  rw [Checked.pure_eq_ok_iff, Prod.mk.injEq] at hRun
  rcases hRun with ⟨hCount, hCount'⟩
  have hNone : Strays (fun _ _ => False) relay {} :=
    ⟨fun _ _ => False.elim, fun _ _ => False.elim,
      fun _ _ => False.elim, fun _ _ _ _ _ _ _ _ => id⟩
  have hOrder : s.InOrder fun _ _ => False :=
    (Store.InOrder.empty.yields_bottomUpPass hNone
      (by decide)).of_eq_ok hUp
  have hs : ∀ g ∈ s.graphs, g.WellFormed :=
    fun g hMem => (hOrder g hMem).wellFormed
  have hOneWay := closures_end_and_move_one_way relay
    (Config.capped {} 0) s hs
  cases answer with
  | error e => cases hCount
  | ok scalars =>
  cases answer' with
  | error e => cases hCount'
  | ok sites =>
      refine ⟨s, t, u, scalars, sites, hs, hScalars, ?_,
        hOneWay.2.2.1 _ t hScalars, hSites, ?_,
        (hOneWay.2.2.2 _ u hSites).1⟩
      · rw [Option.some.inj hCount]
        decide
      · rw [Option.some.inj hCount']
        decide

end HeapShape
