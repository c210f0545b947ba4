import HeapShape.Graph.Collect
import HeapShape.Proofs.Graph.WellFormed
import HeapShape.Proofs.Ordered

/-
  Collecting garbage keeps a graph well-formed.

  Freeing slots is harmless if no chain is left and nothing that stays leads
  into a freed slot. Compression brings this about for the forwarding slots,
  reachability for the dead ones, and cutting links for the foreign ones.

  Main declarations:
    * `Graph.WellFormed.retain`
    * `Graph.closed_of_reachable`
    * `Graph.WellFormed.removeDead`
    * `Graph.WellFormed.pruneForeign`
-/

-- Freeing Slots

namespace HeapShape

open Checked

namespace Graph

variable {g : Graph} {keep : NodeId → Slot → Bool}

/- Free some slots, one after the other. -/
def freeAll
    (g : Graph)
    (drop : List NodeId) : Graph :=
  drop.foldl
    (fun g i =>
      { g.setSlot i .free with free := i :: g.free }) g

/- What freeing does to every part of a graph. -/
theorem freeAll_spec
    (drop : List NodeId)
    (hDrop : ∀ i ∈ drop, i < g.slots.size) :
    (g.freeAll drop).config = g.config ∧ (g.freeAll drop).roots = g.roots ∧
      (g.freeAll drop).slots.size = g.slots.size ∧
      (g.freeAll drop).free = drop.reverse ++ g.free ∧
      ∀ j, (g.freeAll drop).slot j =
        if j ∈ drop then .free else g.slot j := by
  induction drop generalizing g with
  | nil => exact ⟨rfl, rfl, rfl, rfl, fun j => rfl⟩
  | cons i rest ih =>
    have hi := hDrop i List.mem_cons_self
    have hSize : ({ g.setSlot i .free with
        free := i :: g.free } : Graph).slots.size =
          g.slots.size := slots_size_setSlot
    rcases ih (g := { g.setSlot i .free with
        free := i :: g.free }) (by
          intro j hj
          rw [hSize]
          exact hDrop j (List.mem_cons_of_mem _ hj)) with
      ⟨hConfig, hRoots, hSlots, hFree, hSlot⟩
    refine ⟨hConfig, hRoots, hSlots.trans hSize, ?_, ?_⟩
    · refine hFree.trans ?_
      simp
    · intro j
      refine (hSlot j).trans ?_
      have hSet : ({ g.setSlot i .free with
          free := i :: g.free } : Graph).slot j =
            if j = i then .free else g.slot j :=
        slot_setSlot hi .free j
      rw [hSet]
      by_cases hj : j = i
      · simp [hj]
      · simp [hj]

/- The slots that fail a test. -/
def dropped
    (g : Graph)
    (keep : NodeId → Slot → Bool) : List NodeId :=
  (List.range g.slots.size).filter fun i =>
    (g.slot i).isOccupied && !keep i (g.slot i)

theorem mem_dropped_iff
    {i : NodeId} :
    i ∈ g.dropped keep ↔ g.hasNode i = true ∧ keep i (g.slot i) = false := by
  unfold dropped
  rw [List.mem_filter, List.mem_range, Bool.and_eq_true, Bool.not_eq_true']
  constructor
  · exact fun h => h.2
  · exact fun h => ⟨lt_size_of_slot_ne_free (hasNode_iff.mp h.1), h⟩

/- What a test does to every part of a graph. -/
theorem retain_spec
    (g : Graph)
    (keep : NodeId → Slot → Bool) :
    (g.retain keep).2.config = g.config ∧ (g.retain keep).2.roots = g.roots ∧
      (g.retain keep).2.slots.size = g.slots.size ∧
      (g.retain keep).2.free = (g.dropped keep).reverse ++ g.free ∧
      ∀ j, (g.retain keep).2.slot j =
        if j ∈ g.dropped keep then .free else g.slot j :=
  freeAll_spec (g.dropped keep) (fun _ hi => lt_size_of_slot_ne_free
      (hasNode_iff.mp (mem_dropped_iff.mp hi).1))

/- The slots after a test: failed ones are free. -/
theorem slot_retain
    (g : Graph)
    (keep : NodeId → Slot → Bool)
    (j : NodeId) :
    (g.retain keep).2.slot j =
      if g.hasNode j = true ∧ keep j (g.slot j) = false then
        .free
      else g.slot j := by
  rw [(retain_spec g keep).2.2.2.2 j]
  simp only [mem_dropped_iff]

/- What is left after all forwarding slots were freed. -/
theorem slot_retain_of_kept
    (hForward : ∀ id t, g.slot id = .forward t → keep id (.forward t) = false)
    {j : NodeId}
    (hj : (g.retain keep).2.slot j ≠ .free) :
    (g.retain keep).2.slot j = g.slot j ∧ ∃ n, g.slot j = .live n ∧
      keep j (.live n) = true := by
  rw [slot_retain] at hj ⊢
  split at hj
  · exact absurd rfl hj
  · next hKeep =>
    rw [if_neg hKeep]
    refine ⟨rfl, ?_⟩
    rcases slot_cases_of_hasNode (hasNode_iff.mpr hj) with ⟨n, hn⟩ | ⟨t, ht⟩
    · refine ⟨n, hn, ?_⟩
      rw [hasNode_iff, hn] at hKeep
      simpa using hKeep
    · refine absurd ⟨hasNode_of_forward ht, ?_⟩ hKeep
      rw [ht]
      exact hForward j t ht

/- A cell in a slot that is kept is still in the graph. -/
theorem Has.retain
    {c : Cell}
    (hc : g.Has c)
    (hKeep : keep c.node (g.slot c.node) = true) :
    (g.retain keep).2.Has c := by
  refine ⟨?_, hc.word⟩
  rw [hasNode_iff, slot_retain, if_neg]
  · exact hasNode_iff.mp hc.occupied
  · rw [hKeep]
    simp

/- Freed slots join the free ones, each once. -/
theorem FreeListed.retain
    (hg : g.FreeListed)
    (keep : NodeId → Slot → Bool) :
    (g.retain keep).2.FreeListed := by
  rcases retain_spec g keep with ⟨_, _, hSize, hFree, _⟩
  constructor
  · rw [hFree, List.nodup_append]
    refine ⟨?_, hg.nodup, ?_⟩
    · rw [List.nodup_reverse]
      exact List.nodup_range.filter _
    · rintro i hi j hj rfl
      have hOld := ((hg.mem_iff i).mp hj).2
      exact hasNode_iff.mp (mem_dropped_iff.mp (List.mem_reverse.mp hi)).1 hOld
  · intro j
    rw [hFree, List.mem_append, List.mem_reverse, mem_dropped_iff, hg.mem_iff, hSize, slot_retain]
    constructor
    · rintro (hDrop | ⟨hLt, hj⟩)
      · rw [if_pos hDrop]
        exact ⟨lt_size_of_slot_ne_free (hasNode_iff.mp hDrop.1), rfl⟩
      · refine ⟨hLt, ?_⟩
        rw [hj, ite_self]
    · rintro ⟨hLt, hj⟩
      split at hj
      · next hDrop => exact Or.inl hDrop
      · exact Or.inr ⟨hLt, hj⟩

/-
  Slots can be freed as long as all forwarding ones are, and no link or root
  that stays leads into a freed one.
-/
theorem WellFormed.retain
    (hg : g.WellFormed)
    (hForward : ∀ id t, g.slot id = .forward t → keep id (.forward t) = false)
    (hLinks : ∀ id n f t, g.slot id = .live n →
      keep id (.live n) = true → n.links.get? f = some t →
        keep t.node (g.slot t.node) = true)
    (hRoots : ∀ r c, g.roots.get? r = some c → keep c.node (g.slot c.node) = true) :
    (g.retain keep).2.WellFormed := by
  rcases retain_spec g keep with ⟨hConfig, hSameRoots, _⟩
  rcases hg.freeListed.retain keep with ⟨hNodup, hFree⟩
  have hKept := fun {j} => slot_retain_of_kept (j := j) hForward
  -- A slot that is kept is live, and so its chain has ended.
  have hEnds : ∀ j, (g.retain keep).2.hasNode j = true → (g.retain keep).2.Ends j := by
    intro j hj
    rcases hKept (hasNode_iff.mp hj) with ⟨hSame, n, hn, _⟩
    have hLive := hSame.trans hn
    exact ⟨j, 0, n, .live hLive, hLive, by decide, fun _ => Nat.zero_le _⟩
  refine ⟨?_, acyclic_of_ends hEnds, shift_of_ends hEnds, ?_, ?_, ?_, hNodup, hFree⟩
  · intro j n hj
    rcases hKept (slot_ne_free_of_live hj) with ⟨hSame, _⟩
    rw [hConfig]
    exact hg.nodes j n (hSame.symm.trans hj)
  · intro j t hj
    rcases hKept (slot_ne_free_of_forward hj) with ⟨hSame, n, hn, _⟩
    rw [hSame, hn] at hj
    cases hj
  · intro j n f t hj hGet
    rcases hKept (slot_ne_free_of_live hj) with ⟨hSame, n', hn, hKeep⟩
    rw [hSame, hn] at hj
    cases hj
    exact (hg.link_has j n f t hn hGet).retain (hLinks j n f t hn hKeep hGet)
  · rw [hSameRoots]
    intro r c hRoot
    exact (hg.root_has r c hRoot).retain (hRoots r c hRoot)

-- Changing Links

/-
  Graph `h` is `g` with other cells at its links and roots, some links gone,
  and other facts noted at live nodes. The nodes read offsets as before.
-/
structure Relinked
    (g h : Graph) : Prop where
  config : h.config = g.config
  free : h.free = g.free
  size : h.slots.size = g.slots.size
  other : ∀ id, (∀ n, g.slot id ≠ .live n) →
    h.slot id = g.slot id
  live : ∀ id n, g.slot id = .live n → ∃ n',
    h.slot id = .live n' ∧
      n'.isCollapsed = n.isCollapsed ∧
      n'.isArray = n.isArray ∧ n'.size = n.size ∧
      n'.types = n.types ∧
      ∀ f t', n'.links.get? f = some t' →
        g.Has t' ∧ ∃ t, n.links.get? f = some t
  roots : ∀ r c, h.roots.get? r = some c → g.Has c

variable {h : Graph}

/- Which slots are live, free or forwarding is the same. -/
theorem Relinked.slot_iff
    (hRel : Relinked g h)
    (id : NodeId) :
    (∀ t, h.slot id = .forward t ↔ g.slot id = .forward t) ∧
      (h.slot id = .free ↔ g.slot id = .free) ∧
      ∀ n', h.slot id = .live n' → ∃ n, g.slot id = .live n := by
  cases hSlot : g.slot id with
  | live n =>
    rcases hRel.live id n hSlot with ⟨n', hn', _⟩
    rw [hn']
    simp
  | free =>
    rw [hRel.other id (by simp [hSlot]), hSlot]
    simp
  | forward t =>
    rw [hRel.other id (by simp [hSlot]), hSlot]
    simp

theorem Relinked.hasNode_iff
    (hRel : Relinked g h)
    (id : NodeId) :
    h.hasNode id = true ↔ g.hasNode id = true := by
  rw [Graph.hasNode_iff, Graph.hasNode_iff, Ne, Ne, (hRel.slot_iff id).2.1]

/- Links can be changed to other cells of the graph. -/
theorem WellFormed.relinked
    (hg : g.WellFormed)
    (hRel : Relinked g h) :
    h.WellFormed := by
  have hSame := hRel.slot_iff
  have hHas : ∀ c, g.Has c → h.Has c := fun c hc =>
    hc.mono fun id => (hRel.hasNode_iff id).mpr
  have hEnds : ∀ id, h.hasNode id = true → h.Ends id := by
    intro id hId
    rcases hg.ends ((hRel.hasNode_iff id).mp hId) with ⟨m, k, n, hEnd, hLive, hWord, hPlain⟩
    rcases hRel.live m n hLive with ⟨n', hn', hC, hA, hS, _⟩
    refine ⟨m, k, n', hEnd.congr ?_ ?_, hn', hWord, ?_⟩
    · exact fun x t hx => ((hSame x).1 t).mpr hx
    · intro x nx hx
      rcases hRel.live x nx hx with ⟨nx', hnx', _⟩
      exact ⟨nx', hnx'⟩
    · rw [Node.isPlain_iff, hC, hA, hS, ← Node.isPlain_iff]
      exact hPlain
  have hOld : ∀ id n', h.slot id = .live n' → ∃ n, g.slot id = .live n ∧
        n'.isCollapsed = n.isCollapsed ∧
        n'.isArray = n.isArray ∧ n'.size = n.size ∧
        n'.types = n.types ∧
        ∀ f t', n'.links.get? f = some t' → g.Has t' ∧ ∃ t, n.links.get? f = some t := by
    intro id n' hSlot
    rcases (hSame id).2.2 n' hSlot with ⟨n, hn⟩
    rcases hRel.live id n hn with ⟨n₁, hn₁, hKind⟩
    rw [hSlot] at hn₁
    cases hn₁
    exact ⟨n, hn, hKind⟩
  constructor
  · intro id n' hSlot
    rcases hOld id n' hSlot with ⟨n, hn, hC, hA, hS, hT, hL⟩
    have hWf := hg.nodes id n hn
    rw [hRel.config]
    apply hWf.update hC hA (Nat.le_of_eq hS.symm)
    · rw [hS]
      exact hWf.size_lt
    · exact fun _ => hS
    · intro f t' hGet
      rcases hL f t' hGet with ⟨_, t, hGet₀⟩
      exact Or.inr ((hWf.links f t hGet₀).congr hC hA (Nat.le_of_eq hS.symm))
    · intro o ts hGet
      rw [hT] at hGet
      exact Or.inl ⟨ts, hGet⟩
  · exact acyclic_of_ends hEnds
  · exact shift_of_ends hEnds
  · intro id t hSlot
    exact hHas t (hg.forward_has id t (((hSame id).1 t).mp hSlot))
  · intro id n' f t hSlot hGet
    rcases hOld id n' hSlot with ⟨n, hn, _, _, _, _, hL⟩
    exact hHas t (hL f t hGet).1
  · exact fun r c hRoot => hHas c (hRel.roots r c hRoot)
  · rw [hRel.free]
    exact hg.free_nodup
  · intro id
    rw [hRel.free, hRel.size, (hSame id).2.1]
    exact hg.mem_free id

-- Compression

variable {c d : Cell}

/-
  What compression makes of a graph before it frees slots:
  every stored cell is resolved.
-/
structure Resolves
    (g h : Graph) : Prop where
  config : h.config = g.config
  functions : h.functions = g.functions
  free : h.free = g.free
  size : h.slots.size = g.slots.size
  live : ∀ id n, g.slot id = .live n → ∃ n',
    h.slot id = .live n' ∧
      (∃ links, n' = { n with links := links }) ∧
      ∀ f, (n.links.get? f).mapM g.resolve =
        .ok (n'.links.get? f)
  other : ∀ id, (∀ n, g.slot id ≠ .live n) →
    h.slot id = g.slot id
  roots : ∀ r, g.rootCell? r = .ok (h.roots.get? r)
  callSites : ∀ id,
    (g.callSites.get? id).mapM g.resolveCallSite =
      .ok (h.callSites.get? id)

/- Compression resolves all cells, then frees forwards. -/
theorem compress_eq_ok
    (hRun : g.compress = .ok h) :
    ∃ g₁, Resolves g g₁ ∧ h = (g₁.retain fun _ s => !s.isForward).2 := by
  unfold Graph.compress at hRun
  rcases of_bind hRun with ⟨slots, hSlots, hRun⟩
  rcases of_bind hRun with ⟨roots, hRoots, hRun⟩
  rcases of_bind hRun with ⟨callSites, hCalls, hRun⟩
  cases hRun
  rcases mapM_eq_ok hSlots with ⟨hLength, hEach⟩
  have hNew : ∀ id, id < g.slots.size → ∃ s, slots.toArray.getD id .free = s ∧
        g.resolveSlot (g.slot id) = .ok s := by
    intro id hLt
    have hOld : g.slots.toList[id]? = some (g.slot id) := by
      unfold slot
      simp [hLt]
    rcases hEach id _ hOld with ⟨s, hs, hRes⟩
    refine ⟨s, ?_, hRes⟩
    simp [hs]
  refine ⟨{ g with
    slots := slots.toArray
    roots := roots
    callSites := callSites },
    ⟨rfl, rfl, rfl, ?_, ?_, ?_, ?_, ?_⟩, rfl⟩
  · simp [hLength]
  · intro id n hSlot
    rcases hNew id (lt_size_of_live hSlot) with ⟨s, hs, hRes⟩
    rw [hSlot, resolveSlot] at hRes
    rcases of_bind hRes with ⟨links, hLinks, hRes⟩
    cases hRes
    exact ⟨_, hs, ⟨links, rfl⟩, OrdMap.mapM_get?_of_mapChecked hLinks⟩
  · intro id hNot
    by_cases hLt : id < g.slots.size
    · rcases hNew id hLt with ⟨s, hs, hRes⟩
      refine hs.trans ?_
      cases hSlot : g.slot id with
      | free =>
        rw [hSlot] at hRes
        cases hRes
        rfl
      | forward t =>
        rw [hSlot] at hRes
        cases hRes
        rfl
      | live n => exact absurd hSlot (hNot n)
    · have hOut : g.slots.size ≤ id := Nat.le_of_not_lt hLt
      unfold slot
      simp [hLength, hOut]
  · exact OrdMap.mapM_get?_of_mapChecked hRoots
  · exact OrdMap.mapM_get?_of_mapChecked hCalls

/- Resolved cells lie in live nodes. -/
theorem WellFormed.resolves
    (hg : g.WellFormed)
    (hRes : Resolves g h) :
    h.WellFormed ∧ (∀ id n f t, h.slot id = .live n → n.links.get? f = some t →
          ∃ m, h.slot t.node = .live m) ∧
      ∀ r c, h.roots.get? r = some c → ∃ m, h.slot c.node = .live m := by
  have hCell : ∀ c d, g.Has c → g.resolve c = .ok d → g.Has d ∧ ∃ m, h.slot d.node = .live m := by
    intro c d hc hResolve
    rcases resolve_eq_ok hc.word hResolve with ⟨_, n, _, hn, _, hWord⟩
    rcases hRes.live _ n hn with ⟨n', hn', _⟩
    exact ⟨⟨hasNode_of_live hn, hWord⟩, n', hn'⟩
  have hRel : Relinked g h := by
    refine ⟨hRes.config, hRes.free, hRes.size, hRes.other, ?_, ?_⟩
    · intro id n hn
      rcases hRes.live id n hn with ⟨n', hn', ⟨links, rfl⟩, hLinks⟩
      refine ⟨_, hn', rfl, rfl, rfl, rfl, ?_⟩
      intro f t' hGet
      have hFound := hLinks f
      rw [hGet, option_mapM_eq_some_iff] at hFound
      rcases hFound with ⟨t, hGet₀, hResolve⟩
      exact ⟨(hCell t t' (hg.link_has id n f t hn hGet₀) hResolve).1, t, hGet₀⟩
    · intro r c hGet
      have hFound := hRes.roots r
      rw [hGet] at hFound
      rcases option_mapM_eq_some_iff.mp hFound with ⟨c₀, hGet₀, hResolve⟩
      exact (hCell c₀ c (hg.root_has r c₀ hGet₀) hResolve).1
  refine ⟨hg.relinked hRel, ?_, ?_⟩
  · intro id n' f t' hSlot hGet
    rcases (hRel.slot_iff id).2.2 n' hSlot with ⟨n, hn⟩
    rcases hRes.live id n hn with ⟨n₁, hn₁, _, hLinks⟩
    rw [hSlot] at hn₁
    cases hn₁
    have hFound := hLinks f
    rw [hGet, option_mapM_eq_some_iff] at hFound
    rcases hFound with ⟨t, hGet₀, hResolve⟩
    exact (hCell t t' (hg.link_has id n f t hn hGet₀) hResolve).2
  · intro r c hGet
    have hFound := hRes.roots r
    rw [hGet] at hFound
    rcases option_mapM_eq_some_iff.mp hFound with ⟨c₀, hGet₀, hResolve⟩
    exact (hCell c₀ c (hg.root_has r c₀ hGet₀) hResolve).2

/- A compressed graph is well-formed and has no forwards. -/
theorem WellFormed.compress
    (hg : g.WellFormed)
    (hRun : g.compress = .ok h) :
    h.WellFormed ∧ ∀ id t, h.slot id ≠ .forward t := by
  rcases compress_eq_ok hRun with ⟨g₁, hRes, rfl⟩
  rcases hg.resolves hRes with ⟨hg₁, hLinks, hRoots⟩
  refine ⟨hg₁.retain ?_ ?_ ?_, ?_⟩
  · intro id t _
    rfl
  · intro id n f t hSlot _ hGet
    rcases hLinks id n f t hSlot hGet with ⟨m, hm⟩
    rw [hm]
    rfl
  · intro r c hGet
    rcases hRoots r c hGet with ⟨m, hm⟩
    rw [hm]
    rfl
  · intro id t hSlot
    rw [slot_retain] at hSlot
    split at hSlot
    · cases hSlot
    · next hKeep =>
      apply hKeep
      rw [hSlot]
      exact ⟨hasNode_of_forward hSlot, rfl⟩

-- Reachability

/- A link of a live node, and the live node it leads to. -/
def LinkTo
    (g : Graph)
    (id : NodeId)
    (t : Cell)
    (m : NodeId) : Prop :=
  ∃ n f k, g.slot id = .live n ∧ n.links.get? f = some t ∧
    g.Leads t.node m k

/-
  The targets of the nodes seen are seen themselves or still on the stack.
-/
def Frontier
    (g : Graph)
    (seen : OrdSet NodeId)
    (stack : List NodeId) : Prop :=
  ∀ id t m, id ∈ seen → g.LinkTo id t m →
    m ∈ seen ∨ t.node ∈ stack

variable {seen : OrdSet NodeId} {x m : NodeId} {rest : List NodeId} {k : Nat}

/- A node on the stack that was seen before is passed by. -/
theorem Frontier.skip
    (hFrontier : g.Frontier seen (x :: rest))
    (hLeads : g.Leads x m k)
    (hOld : m ∈ seen) :
    g.Frontier seen rest := by
  intro id t m' hId hLink
  rcases hFrontier id t m' hId hLink with hSeen | hStack
  · exact Or.inl hSeen
  · rcases List.mem_cons.mp hStack with rfl | hRest
    · rcases hLink with ⟨_, _, _, _, _, hEnd⟩
      rcases hEnd.unique hLeads with ⟨rfl, _⟩
      exact Or.inl hOld
    · exact Or.inr hRest

variable {n : Node} {out : OrdSet NodeId}

/- A new node puts its targets on the stack. -/
theorem Frontier.visit
    (hFrontier : g.Frontier seen (x :: rest))
    (hLeads : g.Leads x m k)
    (hLive : g.slot m = .live n) :
    g.Frontier (seen.insert m) ((n.links.values.map Cell.node).reverse ++ rest) := by
  have hMem := OrdSet.mem_insert_iff seen m
  intro id t m' hId hLink
  rcases (hMem id).mp hId with rfl | hId
  · rcases hLink with ⟨n₁, f, _, hn₁, hGet, _⟩
    rw [hLive] at hn₁
    cases hn₁
    right
    rw [List.mem_append, List.mem_reverse]
    left
    apply List.mem_map_of_mem
    exact List.mem_map_of_mem ((OrdMap.get?_eq_some_iff _ f t).mp hGet)
  · rcases hFrontier id t m' hId hLink with hSeen | hStack
    · exact Or.inl ((hMem m').mpr (Or.inr hSeen))
    · rcases List.mem_cons.mp hStack with rfl | hRest
      · rcases hLink with ⟨_, _, _, _, _, hEnd⟩
        rcases hEnd.unique hLeads with ⟨rfl, _⟩
        exact Or.inl ((hMem _).mpr (Or.inl rfl))
      · exact Or.inr (List.mem_append_right _ hRest)

/- Once the stack is empty, the nodes seen are closed. -/
theorem Frontier.closed
    (hFrontier : g.Frontier seen []) :
    ∀ id t m, id ∈ seen → g.LinkTo id t m → m ∈ seen := by
  intro id t m hId hLink
  rcases hFrontier id t m hId hLink with hSeen | hStack
  · exact hSeen
  · cases hStack

/-
  A visit reaches what is on the stack, and at the end it has reached all
  that its nodes lead to.
-/
theorem reachWithin_closed
    {fuel : Nat}
    {stack : List NodeId}
    (hRun : g.reachWithin fuel stack seen = .ok out)
    (hFrontier : g.Frontier seen stack) :
    (∀ id, id ∈ seen → id ∈ out) ∧ (∀ id m k, id ∈ stack → g.Leads id m k → m ∈ out) ∧
      ∀ id t m, id ∈ out → g.LinkTo id t m → m ∈ out := by
  induction fuel generalizing stack seen with
  | zero =>
    cases stack with
    | nil =>
      cases hRun
      exact ⟨fun _ hId => hId, fun _ _ _ hId => absurd hId List.not_mem_nil, hFrontier.closed⟩
    | cons id rest => cases hRun
  | succ fuel ih =>
    cases stack with
    | nil =>
      cases hRun
      exact ⟨fun _ hId => hId, fun _ _ _ hId => absurd hId List.not_mem_nil, hFrontier.closed⟩
    | cons x rest =>
      rw [reachWithin] at hRun
      rcases of_bind hRun with ⟨c, hResolve, hRun⟩
      rcases leads_of_resolve hResolve with ⟨k, hLeads, _⟩
      change g.Leads x c.node k at hLeads
      -- Either way the node that `x` leads to is seen.
      suffices hNext : (∀ id, id ∈ seen → id ∈ out) ∧ c.node ∈ out ∧
          (∀ id m k, id ∈ rest → g.Leads id m k → m ∈ out) ∧
          ∀ id t m, id ∈ out → g.LinkTo id t m → m ∈ out by
        rcases hNext with ⟨hKeep, hHere, hRest, hClosed⟩
        refine ⟨hKeep, ?_, hClosed⟩
        intro id m k' hId hEnd
        rcases List.mem_cons.mp hId with rfl | hId
        · rcases hEnd.unique hLeads with ⟨rfl, _⟩
          exact hHere
        · exact hRest id m k' hId hEnd
      split at hRun
      · next hOld =>
        rcases ih hRun (hFrontier.skip hLeads hOld) with ⟨hKeep, hStack, hClosed⟩
        exact ⟨hKeep, hKeep _ hOld, hStack, hClosed⟩
      · rcases of_bind hRun with ⟨n, hContents, hRun⟩
        rcases hLeads.live_end with ⟨n', hLive⟩
        rw [contents_of_live hLive] at hContents
        cases hContents
        rcases ih hRun (hFrontier.visit hLeads hLive) with ⟨hKeep, hStack, hClosed⟩
        have hMem := OrdSet.mem_insert_iff seen c.node
        exact ⟨fun id hId =>
            hKeep id ((hMem id).mpr (Or.inr hId)),
          hKeep _ ((hMem _).mpr (Or.inl rfl)),
          fun id m k hId =>
            hStack id m k (List.mem_append_right _ hId),
          hClosed⟩

/- What is reachable has the starts and is closed. -/
theorem closed_of_reachable
    {starts : List NodeId}
    (hRun : g.reachable starts = .ok out) :
    (∀ id m k, id ∈ starts → g.Leads id m k → m ∈ out) ∧
      ∀ id t m, id ∈ out → g.LinkTo id t m → m ∈ out := by
  have hNone : g.Frontier OrdSet.empty starts.reverse := by
    intro id t m hId
    cases hId
  rcases reachWithin_closed hRun hNone with ⟨_, hStack, hClosed⟩
  refine ⟨fun id m k hId => ?_, hClosed⟩
  exact hStack id m k (List.mem_reverse.mpr hId)

-- Removing Nodes

variable {cells : List (Root × Cell)} {r : Root} {count : Nat}

/- Every root has its cell among the root cells. -/
theorem mem_rootCells
    (hRun : g.rootCells = .ok cells)
    (hRoot : g.roots.get? r = some c) :
    ∃ d, (r, d) ∈ cells ∧ g.resolve c = .ok d := by
  rcases mapM_eq_ok hRun with ⟨_, hEach⟩
  rcases List.mem_iff_getElem?.mp ((g.roots.get?_eq_some_iff r c).mp hRoot) with ⟨i, hi⟩
  rcases hEach i (r, c) hi with ⟨y, hy, hResolve⟩
  dsimp only at hResolve
  rcases of_bind hResolve with ⟨d, hd, hy'⟩
  cases hy'
  exact ⟨d, List.mem_iff_getElem?.mpr ⟨i, hy⟩, hd⟩

/- Without forwards the nodes of roots are root nodes. -/
theorem mem_rootNodes
    (hg : g.WellFormed)
    (hFlat : ∀ id t, g.slot id ≠ .forward t)
    (hRun : g.rootCells = .ok cells)
    (hRoot : g.roots.get? r = some c) :
    c.node ∈ cells.map (fun (_, c) => c.node) ∧ g.Leads c.node c.node 0 := by
  rcases mem_rootCells hRun hRoot with ⟨d, hMem, hResolve⟩
  rcases leads_of_resolve hResolve with ⟨k, hLeads, _⟩
  rcases slot_cases_of_hasNode (hg.root_has r c hRoot).occupied with ⟨n, hn⟩ | ⟨t, ht⟩
  · rcases hLeads.eq_of_live hn with ⟨hEq, _⟩
    rw [← hEq]
    refine ⟨List.mem_map_of_mem hMem, ?_⟩
    rw [hEq]
    exact .live hn
  · exact absurd ht (hFlat _ t)

theorem WellFormed.removeDead
    (hg : g.WellFormed)
    (hRun : g.removeDead = .ok (count, h)) :
    h.WellFormed := by
  unfold Graph.removeDead at hRun
  rcases of_bind hRun with ⟨g₁, hCompress, hRun⟩
  rcases of_bind hRun with ⟨cells, hCells, hRun⟩
  rcases of_bind hRun with ⟨out, hReach, hRun⟩
  rcases hg.compress hCompress with ⟨hg₁, hFlat⟩
  rcases closed_of_reachable hReach with ⟨hStarts, hClosed⟩
  have hRetain : h = (g₁.retain fun i _ => out.contains i).2 := by
    cases hRun
    rfl
  rw [hRetain]
  apply hg₁.retain
  · intro id t hSlot
    exact absurd hSlot (hFlat id t)
  · intro id n f t hSlot hKeep hGet
    rcases slot_cases_of_hasNode (hg₁.link_has id n f t hSlot hGet).occupied with ⟨m, hm⟩ | ⟨u, hu⟩
    · exact hClosed id t t.node hKeep ⟨n, f, 0, hSlot, hGet, .live hm⟩
    · exact absurd hu (hFlat _ u)
  · intro r c hRoot
    rcases mem_rootNodes hg₁ hFlat hCells hRoot with ⟨hMem, hLeads⟩
    exact hStarts _ _ _ (List.mem_append_left _ hMem) hLeads

-- Removing Foreign Nodes

variable {id : NodeId} {cut : OrdSet NodeId}

/- A flag that says nothing about offsets is cleared. -/
theorem WellFormed.clearForeign
    (hg : g.WellFormed)
    (hRun : g.modifyContents id (fun n =>
      { n with flags := n.flags.erase .foreign }) = .ok h) :
    Relinked g h ∧ h.roots = g.roots := by
  rcases modifyContents_eq_ok hRun with ⟨n, hSlot, rfl⟩
  have hLt := lt_size_of_live hSlot
  refine ⟨⟨rfl, rfl, slots_size_setSlot, ?_, ?_, hg.root_has⟩, rfl⟩
  · intro j hNot
    rw [slot_setSlot hLt, if_neg]
    rintro rfl
    exact hNot n hSlot
  · intro j nj hj
    have hLinks := fun f t hGet =>
      (⟨hg.link_has j nj f t hj hGet, t, hGet⟩ : g.Has t ∧ ∃ u, nj.links.get? f = some u)
    rw [slot_setSlot hLt]
    split
    · next hEq =>
      subst hEq
      rw [hSlot] at hj
      cases hj
      exact ⟨_, rfl, n.flags.has_erase_of_ne (by decide),
        n.flags.has_erase_of_ne (by decide), rfl, rfl, hLinks⟩
    · exact ⟨nj, hj, rfl, rfl, rfl, rfl, hLinks⟩

/- The links of all live nodes into some nodes are cut. -/
def cutLinks
    (g : Graph)
    (cut : OrdSet NodeId) : Graph :=
  { g with
    slots := g.slots.map fun s =>
      match s with
      | .live n =>
        .live { n with
          links := n.links.filter fun _ t =>
            !cut.contains t.node }
      | s => s }

theorem slot_cutLinks_of_live
    (cut : OrdSet NodeId)
    (hSlot : g.slot id = .live n) :
    (g.cutLinks cut).slot id = .live { n with
      links := n.links.filter fun _ t =>
        !cut.contains t.node } := by
  have hLt := lt_size_of_live hSlot
  unfold slot at hSlot ⊢
  unfold cutLinks
  simp only [Array.getD_eq_getD_getElem?, Array.getElem?_map,
    Array.getElem?_eq_getElem hLt, Option.getD_some,
    Option.map_some] at hSlot ⊢
  rw [hSlot]

theorem slot_cutLinks_of_not_live
    (cut : OrdSet NodeId)
    (hNot : ∀ n, g.slot id ≠ .live n) :
    (g.cutLinks cut).slot id = g.slot id := by
  unfold cutLinks slot at *
  by_cases hLt : id < g.slots.size
  · simp only [Array.getD_eq_getD_getElem?, Array.getElem?_map, Array.getElem?_eq_getElem hLt,
      Option.getD_some, Option.map_some] at hNot ⊢
    split
    · next n hn => exact absurd hn (hNot n)
    · rfl
  · simp [hLt]

theorem slots_size_cutLinks
    (cut : OrdSet NodeId) :
    (g.cutLinks cut).slots.size = g.slots.size := by
  simp [cutLinks]

theorem WellFormed.cutLinks
    (hg : g.WellFormed)
    (cut : OrdSet NodeId) :
    Relinked g (g.cutLinks cut) := by
  refine ⟨rfl, rfl, slots_size_cutLinks cut, ?_, ?_, hg.root_has⟩
  · exact fun _ => slot_cutLinks_of_not_live cut
  · intro id n hn
    refine ⟨_, slot_cutLinks_of_live cut hn, rfl, rfl, rfl,
      rfl, ?_⟩
    intro f t hGet
    have hOld := ((OrdMap.get?_filter _ _ _ _).mp hGet).1
    exact ⟨hg.link_has id n f t hn hOld, t, hOld⟩

/- A link that was not cut leads elsewhere. -/
theorem not_mem_of_cutLinks
    (hRel : Relinked g (g.cutLinks cut))
    {f : Field}
    {t : Cell}
    (hSlot : (g.cutLinks cut).slot id = .live n)
    (hGet : n.links.get? f = some t) :
    cut.contains t.node = false := by
  rcases (hRel.slot_iff id).2.2 n hSlot with ⟨n₀, hn₀⟩
  rw [slot_cutLinks_of_live cut hn₀] at hSlot
  cases hSlot
  have hPass := ((OrdMap.get?_filter _ _ _ _).mp hGet).2
  simpa using hPass

/- Nodes that no root names are cut off and freed. -/
theorem WellFormed.cutAway
    (hg : g.WellFormed)
    (hFlat : ∀ id t, g.slot id ≠ .forward t)
    (hRoots : ∀ r c, g.roots.get? r = some c → cut.contains c.node = false) :
    ((g.cutLinks cut).retain fun i _ => !cut.contains i).2.WellFormed := by
  have hRel := hg.cutLinks cut
  apply (hg.relinked hRel).retain
  · intro id t hSlot
    exact absurd (((hRel.slot_iff id).1 t).mp hSlot) (hFlat id t)
  · intro id n f t hSlot _ hGet
    rw [not_mem_of_cutLinks hRel hSlot hGet]
    rfl
  · intro r c hRoot
    rw [hRoots r c hRoot]
    rfl

theorem WellFormed.pruneForeign
    (hg : g.WellFormed)
    (hRun : g.pruneForeign = .ok (count, h)) :
    h.WellFormed := by
  unfold Graph.pruneForeign at hRun
  rcases of_bind hRun with ⟨g₁, hCompress, hRun⟩
  rcases of_bind hRun with ⟨cells, hCells, hRun⟩
  rcases of_bind hRun with ⟨g₂, hClear, hRun⟩
  rcases hg.compress hCompress with ⟨hg₁, hFlat⟩
  -- Clearing the flag keeps roots and makes no forward.
  have hCleared : g₂.WellFormed ∧ g₂.roots = g₁.roots ∧ ∀ id t, g₂.slot id ≠ .forward t := by
    refine foldlM_induction (P := fun g₂ => g₂.WellFormed ∧ g₂.roots = g₁.roots ∧
        ∀ id t, g₂.slot id ≠ .forward t)
      ?_ ⟨hg₁, rfl, hFlat⟩ hClear
    rintro a i _ b ⟨ha, hSame, hNone⟩ hStep
    rcases ha.clearForeign hStep with ⟨hRel, hSame'⟩
    refine ⟨ha.relinked hRel, hSame'.trans hSame, ?_⟩
    intro id t hSlot
    exact hNone id t (((hRel.slot_iff id).1 t).mp hSlot)
  rcases hCleared with ⟨hg₂, hRoots, hFlat₂⟩
  dsimp only at hRun
  split at hRun
  · cases hRun
    exact hg₂
  · cases hRun
    apply hg₂.cutAway hFlat₂
    intro r c hRoot
    have hOld : g₁.roots.get? r = some c := hRoots ▸ hRoot
    have hMem := (mem_rootNodes hg₁ hFlat hCells hOld).1
    rw [Bool.eq_false_iff]
    intro hIn
    have hList := (OrdSet.mem_ofList_iff _ _).mp hIn
    rcases List.mem_map.mp hList with ⟨⟨i, n⟩, hPair, hEq⟩
    have hTest := (List.mem_filter.mp hPair).2
    simp only [Bool.and_eq_true, Bool.not_eq_true'] at hTest hEq
    have hRooted := (OrdSet.mem_ofList_iff _ _).mpr hMem
    rw [← hEq] at hRooted
    exact absurd hRooted (by
      change ¬ OrdSet.contains _ _ = true
      simp [hTest.2])

end Graph

end HeapShape
