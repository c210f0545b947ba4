import HeapShape.Proofs.Graph.Forwarding
import HeapShape.Proofs.Node
import Mathlib.Data.Fintype.EquivFin
import Mathlib.Order.WellFounded

/-
  Well-formed graphs.

  A graph is well-formed if its nodes are, its chains end, the cells it
  stores name occupied slots, and it knows its free slots.

  The laws below say which changes of one slot keep a graph well-formed.
  They are all that later proofs need to know of the definition.

  Main declarations:
    * `Graph.WellFormed`
    * `Graph.WellFormed.setLive`
    * `Graph.WellFormed.setForward`
    * `Graph.WellFormed.createNode`
-/

-- Well-Formed Graphs

namespace HeapShape

namespace Graph

/- A cell that lies in a graph: in an occupied slot. -/
structure Has
    (g : Graph)
    (c : Cell) : Prop where
  occupied : g.hasNode c.node = true
  word : c.offset < wordBound

/-
  The representation invariant of graphs. The offsets of a chain add up to a
  word, and a slot that was merged into a plain node starts inside it.
-/
structure WellFormed
    (g : Graph) : Prop where
  nodes : ∀ id n,
    g.slot id = .live n → n.WellFormed g.config
  acyclic : ∀ id, ¬ Relation.TransGen g.Forwards id id
  shift : ∀ id m k n,
    g.Leads id m k → g.slot m = .live n →
      k < wordBound ∧ (n.isPlain = true → k ≤ n.size)
  forward_has : ∀ id t,
    g.slot id = .forward t → g.Has t
  link_has : ∀ id n f t,
    g.slot id = .live n → n.links.get? f = some t → g.Has t
  root_has : ∀ r c,
    g.roots.get? r = some c → g.Has c
  free_nodup : g.free.Nodup
  mem_free : ∀ id,
    id ∈ g.free ↔ id < g.slots.size ∧ g.slot id = .free

variable {g h : Graph} {id : NodeId}

/- The chain of a slot ends, no further on than it may. -/
def Ends
    (g : Graph)
    (id : NodeId) : Prop :=
  ∃ m k n, g.Leads id m k ∧ g.slot m = .live n ∧
    k < wordBound ∧ (n.isPlain = true → k ≤ n.size)

/- Where every chain ends, no chain is a cycle. -/
theorem acyclic_of_ends
    (hEnds : ∀ id, g.hasNode id = true → g.Ends id)
    (id : NodeId) :
    ¬ Relation.TransGen g.Forwards id id := by
  intro hLoop
  rcases Relation.TransGen.head'_iff.mp hLoop with ⟨_, ⟨_, hForward⟩, _⟩
  rcases hEnds id (hasNode_of_forward hForward) with ⟨m, k, n, hLeads, _⟩
  exact hLeads.acyclic hLoop

theorem shift_of_ends
    (hEnds : ∀ id, g.hasNode id = true → g.Ends id)
    (id m : NodeId)
    (k : Nat)
    (n : Node)
    (hLeads : g.Leads id m k)
    (hLive : g.slot m = .live n) :
    k < wordBound ∧ (n.isPlain = true → k ≤ n.size) := by
  rcases hEnds id hLeads.hasNode with ⟨m', k', n', hLeads', hLive', hShift⟩
  rcases hLeads.unique hLeads' with ⟨rfl, rfl⟩
  rw [hLive] at hLive'
  cases hLive'
  exact hShift

/-
  Where no chain is a cycle, every chain ends. The slots are finitely many,
  so a relation without cycles on them can be followed down.
-/
theorem leads_of_acyclic
    (hAcyclic : ∀ id, ¬ Relation.TransGen g.Forwards id id)
    (hOccupied : ∀ a b, g.Forwards a b → g.hasNode b = true)
    (hNode : g.hasNode id = true) :
    ∃ m k, g.Leads id m k := by
  let After : Fin g.slots.size → Fin g.slots.size → Prop :=
    fun a b => Relation.TransGen g.Forwards b a
  have : IsTrans (Fin g.slots.size) After := ⟨fun _ _ _ hab hbc => hbc.trans hab⟩
  have : Std.Irrefl After := ⟨fun a => hAcyclic a⟩
  have hWell : WellFounded After := Finite.wellFounded_of_trans_of_irrefl After
  have hLt : ∀ {j}, g.hasNode j = true → j < g.slots.size := fun hj =>
    lt_size_of_slot_ne_free (hasNode_iff.mp hj)
  suffices hAll : ∀ j : Fin g.slots.size, g.hasNode j = true → ∃ m k, g.Leads j m k by
    exact hAll ⟨id, hLt hNode⟩ hNode
  intro j
  induction j using hWell.induction with
  | h j ih =>
    intro hj
    rcases slot_cases_of_hasNode hj with ⟨n, hSlot⟩ | ⟨t, hSlot⟩
    · exact ⟨_, _, .live hSlot⟩
    · have ht := hOccupied _ _ ⟨t.offset, hSlot⟩
      have hStep : After ⟨t.node, hLt ht⟩ j := .single ⟨t.offset, hSlot⟩
      rcases ih _ hStep ht with ⟨m, k, hLeads⟩
      exact ⟨m, _, .forward hSlot hLeads⟩

theorem WellFormed.leads
    (hg : g.WellFormed)
    (hNode : g.hasNode id = true) :
    ∃ m k, g.Leads id m k :=
  leads_of_acyclic hg.acyclic (fun _ _ ⟨_, hSlot⟩ => (hg.forward_has _ _ hSlot).occupied) hNode

theorem WellFormed.ends
    (hg : g.WellFormed)
    (hNode : g.hasNode id = true) :
    g.Ends id := by
  rcases hg.leads hNode with ⟨m, k, hLeads⟩
  rcases hLeads.live_end with ⟨n, hLive⟩
  exact ⟨m, k, n, hLeads, hLive, hg.shift _ _ _ _ hLeads hLive⟩

/- The graph without slots is well-formed. -/
theorem wellFormed_empty
    (config : GraphConfig) :
    ({ config := config } : Graph).WellFormed where
  nodes := by
    intro id n hSlot
    cases hSlot
  acyclic := by
    intro id hLoop
    rcases Relation.TransGen.head'_iff.mp hLoop with ⟨_, ⟨_, hForward⟩, _⟩
    cases hForward
  shift := by
    intro id m k n _ hLive
    cases hLive
  forward_has := by
    intro id t hSlot
    cases hSlot
  link_has := by
    intro id n f t hSlot
    cases hSlot
  root_has := by
    intro r c hRoot
    cases hRoot
  free_nodup := List.nodup_nil
  mem_free := by
    intro id
    simp

-- Changes That Keep A Graph Well-Formed

variable {n : Node} {c : Cell}

/- Cells stay in a graph whose slots stay occupied. -/
theorem Has.mono
    (hc : g.Has c)
    (hKeep : ∀ id, g.hasNode id = true → h.hasNode id = true) :
    h.Has c where
  occupied := hKeep _ hc.occupied
  word := hc.word

/- What the graph records of calls and owners is free. -/
theorem WellFormed.congr
    (hg : g.WellFormed)
    (hConfig : h.config = g.config)
    (hSlots : h.slots = g.slots)
    (hFree : h.free = g.free)
    (hRoots : h.roots = g.roots) :
    h.WellFormed := by
  have hSlot : ∀ id, h.slot id = g.slot id := by
    intro id
    unfold slot
    rw [hSlots]
  have hHas : ∀ c, g.Has c → h.Has c := by
    intro c hc
    apply hc.mono
    intro id hNode
    rw [hasNode_iff, hSlot]
    exact hasNode_iff.mp hNode
  have hEnds : ∀ id, h.hasNode id = true → h.Ends id := by
    intro id hNode
    rw [hasNode_iff, hSlot] at hNode
    rcases hg.ends (hasNode_iff.mpr hNode) with ⟨m, k, n, hLeads, hLive, hShift⟩
    refine ⟨m, k, n, hLeads.congr ?_ ?_, (hSlot m).trans hLive, hShift⟩
    · exact fun x t hx => (hSlot x).trans hx
    · exact fun x n' hx => ⟨n', (hSlot x).trans hx⟩
  constructor
  · intro id n hLive
    rw [hConfig]
    exact hg.nodes id n ((hSlot id).symm.trans hLive)
  · exact acyclic_of_ends hEnds
  · exact shift_of_ends hEnds
  · intro id t hForward
    exact hHas t (hg.forward_has id t ((hSlot id).symm.trans hForward))
  · intro id n f t hLive hLink
    exact hHas t (hg.link_has id n f t ((hSlot id).symm.trans hLive) hLink)
  · rw [hRoots]
    intro r c hRoot
    exact hHas c (hg.root_has r c hRoot)
  · rw [hFree]
    exact hg.free_nodup
  · intro id
    rw [hFree, hSlots, hSlot]
    exact hg.mem_free id

/- Shortening chains keeps a graph well-formed. -/
theorem WellFormed.shortened
    (hg : g.WellFormed)
    (hs : Shortened g h) :
    h.WellFormed := by
  have hHas : ∀ c, g.Has c → h.Has c := by
    intro c hc
    exact hc.mono fun id => hs.hasNode_iff.mpr
  have hEnds : ∀ id, h.hasNode id = true → h.Ends id := by
    intro id hNode
    rcases hg.ends (hs.hasNode_iff.mp hNode) with ⟨m, k, n, hLeads, hLive, hShift⟩
    exact ⟨m, k, n, hs.leads hLeads, hs.live_iff.mpr hLive, hShift⟩
  constructor
  · intro id n hLive
    rw [hs.config]
    exact hg.nodes id n (hs.live_iff.mp hLive)
  · exact acyclic_of_ends hEnds
  · exact shift_of_ends hEnds
  · intro id t hForward
    rcases hs.slot id with hSame | ⟨_, m, k, _, hEnd, hk, hNew⟩
    · exact hHas t (hg.forward_has id t (hSame.symm.trans hForward))
    · rw [hForward] at hNew
      cases hNew
      rcases hEnd.live_end with ⟨_, hLive⟩
      exact hHas _ ⟨hasNode_of_live hLive, hk⟩
  · intro id n f t hLive hLink
    exact hHas t (hg.link_has id n f t (hs.live_iff.mp hLive) hLink)
  · rw [hs.roots]
    intro r c hRoot
    exact hHas c (hg.root_has r c hRoot)
  · rw [hs.free]
    exact hg.free_nodup
  · intro id
    rw [hs.free, hs.size, hs.free_iff]
    exact hg.mem_free id

variable {s : Slot} {n' : Node}

/- An occupied slot stays occupied when it is changed. -/
theorem hasNode_setSlot
    (hs : s ≠ .free)
    (hNode : g.hasNode id = true) :
    (g.setSlot id s).hasNode =  g.hasNode := by
  have hLt := lt_size_of_slot_ne_free (hasNode_iff.mp hNode)
  funext j
  rw [Bool.eq_iff_iff, hasNode_iff, slot_setSlot hLt]
  split
  · next hEq =>
    subst hEq
    simp [hs, hNode]
  · exact hasNode_iff.symm

/-
  A change of one occupied slot that leaves every chain with an end keeps
  the graph well-formed.
-/
theorem WellFormed.setSlot
    (hg : g.WellFormed)
    (hNode : g.hasNode id = true)
    (hs : s ≠ .free)
    (hLive : ∀ n, s = .live n → n.WellFormed g.config ∧
        ∀ f t, n.links.get? f = some t → g.Has t)
    (hForward : ∀ t, s = .forward t → g.Has t)
    (hEnds : ∀ j, g.Ends j → (g.setSlot id s).Ends j) :
    (g.setSlot id s).WellFormed := by
  have hLt := lt_size_of_slot_ne_free (hasNode_iff.mp hNode)
  have hSlot := slot_setSlot hLt s
  have hSame := hasNode_setSlot hs hNode
  have hHas : ∀ c, g.Has c → (g.setSlot id s).Has c := by
    intro c hc
    apply hc.mono
    rw [hSame]
    exact fun _ h => h
  constructor
  · intro j n hj
    rw [hSlot] at hj
    split at hj
    · exact (hLive n hj).1
    · exact hg.nodes j n hj
  · apply acyclic_of_ends
    rw [hSame]
    exact fun j hj => hEnds j (hg.ends hj)
  · apply shift_of_ends
    rw [hSame]
    exact fun j hj => hEnds j (hg.ends hj)
  · intro j t hj
    rw [hSlot] at hj
    split at hj
    · exact hHas t (hForward t hj)
    · exact hHas t (hg.forward_has j t hj)
  · intro j n f t hj hLink
    rw [hSlot] at hj
    split at hj
    · exact hHas t ((hLive n hj).2 f t hLink)
    · exact hHas t (hg.link_has j n f t hj hLink)
  · intro r c hRoot
    exact hHas c (hg.root_has r c hRoot)
  · exact hg.free_nodup
  · intro j
    rw [slots_size_setSlot, free_setSlot, hSlot, hg.mem_free j]
    split
    · next hEq =>
      subst hEq
      simp [hs, hasNode_iff.mp hNode]
    · exact Iff.rfl

/- A live node can give way to one that it lies in. -/
theorem WellFormed.setLive
    (hg : g.WellFormed)
    (hSlot : g.slot id = .live n)
    (hn : n'.WellFormed g.config)
    (hIn : n.LiesIn n' 0)
    (hLinks : ∀ f t, n'.links.get? f = some t → g.Has t) :
    (g.setSlot id (.live n')).WellFormed := by
  have hLt := lt_size_of_live hSlot
  apply hg.setSlot (hasNode_of_live hSlot) Slot.noConfusion
  · intro n₁ hEq
    cases hEq
    exact ⟨hn, hLinks⟩
  · intro t hEq
    cases hEq
  · rintro j ⟨m, k, nm, hLeads, hLive, hWord, hPlain⟩
    by_cases hm : m = id
    · subst hm
      rw [hSlot] at hLive
      cases hLive
      refine ⟨m, k, n', hLeads.setLive hSlot n', ?_, hWord, ?_⟩
      · rw [slot_setSlot hLt, if_pos rfl]
      · intro hp
        have hn := hIn.plain_of_plain hp
        exact Nat.le_trans (hPlain hn) (hIn.inside hn hp)
    · refine ⟨m, k, nm, hLeads.setLive hSlot n', ?_, hWord, hPlain⟩
      rw [slot_setSlot hLt, if_neg hm, hLive]

/- A live node can be merged into one that it lies in. -/
theorem WellFormed.setForward
    (hg : g.WellFormed)
    (hSlot : g.slot id = .live n)
    {this : NodeId}
    {o : Nat}
    (hThis : g.slot this = .live n')
    (hne : this ≠ id)
    (hIn : n.LiesIn n' o) :
    (g.setSlot id (.forward { node := this, offset := o })).WellFormed := by
  have hLt := lt_size_of_live hSlot
  have hWord := hIn.word
  apply hg.setSlot (hasNode_of_live hSlot) Slot.noConfusion
  · intro n₁ hEq
    cases hEq
  · intro t hEq
    cases hEq
    exact ⟨hasNode_of_live hThis, by dsimp only; omega⟩
  · rintro j ⟨m, k, nm, hLeads, hLive, hk, hPlain⟩
    have hEnd := hLeads.setForward (o := o) hSlot hThis hne
    by_cases hm : m = id
    · subst hm
      rw [hSlot] at hLive
      cases hLive
      rw [if_pos rfl, if_pos rfl] at hEnd
      refine ⟨this, k + o, n', hEnd, ?_, ?_, ?_⟩
      · rw [slot_setSlot hLt, if_neg hne, hThis]
      · cases hp : n.isPlain with
        | false =>
          rw [hIn.folded hp]
          exact hk
        | true =>
          have hLe := hPlain hp
          omega
      · intro hp
        have hn := hIn.plain_of_plain hp
        have hLe := hPlain hn
        have hInside := hIn.inside hn hp
        omega
    · rw [if_neg hm, if_neg hm] at hEnd
      refine ⟨m, k, nm, hEnd, ?_, hk, hPlain⟩
      rw [slot_setSlot hLt, if_neg hm, hLive]

/- A root can be bound to any cell of the graph. -/
theorem WellFormed.insertRoot
    (hg : g.WellFormed)
    (r : Root)
    (hc : g.Has c) :
    { g with roots := g.roots.insert r c }.WellFormed where
  nodes := hg.nodes
  acyclic := hg.acyclic
  shift := by
    intro id m k n hLeads hLive
    apply hg.shift id m k n _ hLive
    apply hLeads.congr
    · exact fun _ _ h => h
    · exact fun _ n' h => ⟨n', h⟩
  forward_has := fun id t ht =>
    (hg.forward_has id t ht).mono fun _ h => h
  link_has := fun id n f t hn ht =>
    (hg.link_has id n f t hn ht).mono fun _ h => h
  root_has := by
    intro r' c' hRoot
    rw [OrdMap.get?_insert] at hRoot
    split at hRoot
    · cases hRoot
      exact hc.mono fun _ h => h
    · exact (hg.root_has r' c' hRoot).mono fun _ h => h
  free_nodup := hg.free_nodup
  mem_free := hg.mem_free

-- Fresh Nodes

/- The list of free slots holds the free slots, each once. -/
structure FreeListed
    (g : Graph) : Prop where
  nodup : g.free.Nodup
  mem_iff : ∀ id,
    id ∈ g.free ↔ id < g.slots.size ∧ g.slot id = .free

theorem WellFormed.freeListed
    (hg : g.WellFormed) :
    g.FreeListed :=
  ⟨hg.free_nodup, hg.mem_free⟩

/- A fresh node is seen in its slot only, which was free. -/
theorem FreeListed.slot_createNode
    (hg : g.FreeListed)
    (flags : Flags)
    (size : Nat) :
    g.slot (g.createNode flags size).1 = .free ∧ ∀ j, (g.createNode flags size).2.slot j =
        if j = (g.createNode flags size).1 then
          .live (freshNode flags size)
        else g.slot j := by
  cases hFree : g.free with
  | nil =>
    have hSpec := slot_createNode_of_full hFree flags size
    rw [(hSpec 0).1]
    refine ⟨?_, fun j => (hSpec j).2.2.2⟩
    unfold slot
    simp
  | cons id rest =>
    have hMem : id ∈ g.free := by simp [hFree]
    rcases (hg.mem_iff id).mp hMem with ⟨hLt, hSlot⟩
    have hSpec := slot_createNode_of_free hFree hLt flags size
    rw [(hSpec 0).1]
    exact ⟨hSlot, fun j => (hSpec j).2.2.2⟩

/- The free slots are known after a fresh node was made. -/
theorem FreeListed.createNode
    (hg : g.FreeListed)
    (flags : Flags)
    (size : Nat) :
    (g.createNode flags size).2.FreeListed := by
  cases hFree : g.free with
  | nil =>
    have hSpec := slot_createNode_of_full hFree flags size
    constructor
    · rw [(hSpec 0).2.1]
      exact List.nodup_nil
    intro j
    rw [(hSpec 0).2.1, (hSpec 0).2.2.1]
    have hNone : ¬ (j < g.slots.size ∧ g.slot j = .free) := by
      rw [← hg.mem_iff, hFree]
      exact List.not_mem_nil
    rw [(hSpec j).2.2.2]
    split
    · simp
    · next hne =>
      simp only [List.not_mem_nil, false_iff]
      rintro ⟨hLt, hj⟩
      exact hNone ⟨Nat.lt_of_le_of_ne (Nat.lt_succ_iff.mp hLt) hne, hj⟩
  | cons id rest =>
    have hMem : id ∈ g.free := by simp [hFree]
    have hLt := ((hg.mem_iff id).mp hMem).1
    have hSpec := slot_createNode_of_free hFree hLt flags size
    have hNodup := hg.nodup
    rw [hFree, List.nodup_cons] at hNodup
    constructor
    · rw [(hSpec 0).2.1]
      exact hNodup.2
    intro j
    rw [(hSpec 0).2.1, (hSpec 0).2.2.1]
    have hOld := hg.mem_iff j
    rw [hFree, List.mem_cons] at hOld
    rw [(hSpec j).2.2.2]
    split
    · next hEq =>
      subst hEq
      simp [hNodup.1]
    · next hne =>
      rw [← hOld]
      simp [hne]

theorem WellFormed.slot_createNode
    (hg : g.WellFormed)
    (flags : Flags)
    (size : Nat) :
    g.slot (g.createNode flags size).1 = .free ∧ ∀ j, (g.createNode flags size).2.slot j =
        if j = (g.createNode flags size).1 then
          .live (freshNode flags size)
        else g.slot j :=
  hg.freeListed.slot_createNode flags size

variable {j : NodeId}

/- Occupied slots stay occupied beside a fresh node. -/
theorem WellFormed.hasNode_createNode
    (hg : g.WellFormed)
    (flags : Flags)
    (size : Nat)
    (hj : g.hasNode j = true) :
    (g.createNode flags size).2.hasNode j = true := by
  rw [hasNode_iff, (hg.slot_createNode flags size).2]
  split
  · exact Slot.noConfusion
  · exact hasNode_iff.mp hj

/- Chains do not see a fresh node. -/
theorem WellFormed.leads_createNode
    (hg : g.WellFormed)
    (flags : Flags)
    (size : Nat)
    {m : NodeId}
    {k : Nat}
    (hLeads : g.Leads j m k) :
    (g.createNode flags size).2.Leads j m k := by
  rcases hg.slot_createNode flags size with ⟨hFresh, hSlot⟩
  have hOther : ∀ x, g.slot x ≠ .free → (g.createNode flags size).2.slot x = g.slot x := by
    intro x hx
    rw [hSlot, if_neg]
    rintro rfl
    exact hx hFresh
  apply hLeads.congr
  · intro x t hx
    rw [hOther x (slot_ne_free_of_forward hx), hx]
  · intro x n hx
    exact ⟨n, by rw [hOther x (slot_ne_free_of_live hx), hx]⟩

/- A graph stays well-formed beside a fresh node. -/
theorem WellFormed.createNode
    (hg : g.WellFormed)
    {flags : Flags}
    {size : Nat}
    (hn : (freshNode flags size).WellFormed g.config) :
    (g.createNode flags size).2.WellFormed := by
  rcases hg.slot_createNode flags size with ⟨hFresh, hSlot⟩
  rcases hg.freeListed.createNode flags size with ⟨hNodup, hMem⟩
  have hHas : ∀ c, g.Has c → (g.createNode flags size).2.Has c := fun c hc =>
    hc.mono fun _ => hg.hasNode_createNode flags size
  have hEnds : ∀ j, (g.createNode flags size).2.hasNode j = true →
        (g.createNode flags size).2.Ends j := by
    intro j hj
    rw [hasNode_iff, hSlot] at hj
    split at hj
    · next hEq =>
      have hLive : (g.createNode flags size).2.slot j = .live (freshNode flags size) := by
        rw [hSlot, if_pos hEq]
      exact ⟨j, 0, _, .live hLive, hLive, by decide, fun _ => Nat.zero_le _⟩
    · rcases hg.ends (hasNode_iff.mpr hj) with ⟨m, k, n, hLeads, hLive, hShift⟩
      refine ⟨m, k, n, hg.leads_createNode flags size hLeads, ?_, hShift⟩
      rw [hSlot, if_neg, hLive]
      rintro rfl
      rw [hFresh] at hLive
      cases hLive
  constructor
  · intro j n hj
    rw [config_createNode]
    rw [hSlot] at hj
    split at hj
    · cases hj
      exact hn
    · exact hg.nodes j n hj
  · exact acyclic_of_ends hEnds
  · exact shift_of_ends hEnds
  · intro j t hj
    rw [hSlot] at hj
    split at hj
    · cases hj
    · exact hHas t (hg.forward_has j t hj)
  · intro j n f t hj hLink
    rw [hSlot] at hj
    split at hj
    · cases hj
      cases hLink
    · exact hHas t (hg.link_has j n f t hj hLink)
  · rw [roots_createNode]
    intro r c hRoot
    exact hHas c (hg.root_has r c hRoot)
  · exact hNodup
  · exact hMem

end Graph

end HeapShape
