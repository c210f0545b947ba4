import HeapShape.Proofs.Graph.Reachable

/-
  Merging loses nothing.

  Whatever is merged, every node has one node that stands for it, at one
  distance for all its cells. What was known of the node is known there, and
  its links lead on to the nodes that stand for their targets.

  Main declarations:
    * `Graph.ResolvesInto`
    * `merging_loses_nothing`
-/

-- Resolution Into A Node

namespace HeapShape

namespace Graph

/-
  All cells of a slot resolve into one node, a word further on, unless that
  leaves the word range.
-/
def ResolvesInto
    (g : Graph)
    (id m : NodeId)
    (k : Nat) : Prop :=
  k < wordBound ∧ ∀ o, o < wordBound →
    g.resolve { node := id, offset := o } =
      ({ node := m, offset := o } : Cell).shifted k

variable {g : Graph} {id m : NodeId} {k : Nat}

/- The end of a chain is the node it resolves into. -/
theorem WellFormed.resolvesInto
    (hg : g.WellFormed)
    (hLeads : g.Leads id m k) :
    g.ResolvesInto id m k := by
  rcases hLeads.live_end with ⟨n, hLive⟩
  refine ⟨(hg.shift id m k n hLeads hLive).1, ?_⟩
  intro o ho
  exact resolve_of_leads hLeads ho

/- Cells of one node resolve into one node. -/
theorem SameNode.resolvesInto
    {c d : Cell}
    (hNode : g.SameNode c d)
    (hg : g.WellFormed) :
    ∃ m j k, g.ResolvesInto c.node m j ∧ g.ResolvesInto d.node m k := by
  rcases hNode with ⟨m, j, k, hc, hd⟩
  exact ⟨m, j, k, hg.resolvesInto hc, hg.resolvesInto hd⟩

end Graph

-- Preservation

open HeapShape.Graph in
/-
  Every live node has a node that stands for it after a merging operation. A
  unification has its two cells in one node.
-/
theorem merging_loses_nothing
    {op : Merging}
    (hOp : op.Admissible)
    {g h : Graph}
    (hg : g.WellFormed)
    (hRun : op.run g = .ok h) :
    (∀ id n, g.slot id = .live n → ∃ m k n',
      h.ResolvesInto id m k ∧
      h.slot m = .live n' ∧
      (n.isCollapsed = true → n'.isCollapsed = true) ∧
      (n.isArray = true →
        n'.isArray = true ∨ n'.isCollapsed = true) ∧
      (∀ f, f ≠ .foreign → f ≠ .array →
        n.flags.has f = true → n'.flags.has f = true) ∧
      (∀ s, s ∈ n.allocSites → s ∈ n'.allocSites) ∧
      (∀ f t, n.links.get? f = some t → ∃ f' t',
        n'.links.get? f' = some t' ∧
        ∃ q i j, h.ResolvesInto t.node q i ∧
          h.ResolvesInto t'.node q j) ∧
      (n.uniqueScalar.everHad = true →
        n.uniqueScalar.value? = none →
          n'.uniqueScalar.value? = none)) ∧
    ∀ a b, op = .unify a b → ∃ q i j,
      h.ResolvesInto a.node q i ∧
        h.ResolvesInto b.node q j := by
  have hSound := op.sound hOp False.elim hg hRun
  have hh := hSound.wellFormed
  have hLinks := hSound.here False.elim
  constructor
  · intro id n hSlot
    rcases hSound.merged.live hSlot with
      ⟨m, k, n', hLeads, hLive, hStands⟩
    refine ⟨m, k, n', hh.resolvesInto hLeads, hLive,
      hStands.collapsed, hStands.array, hStands.flags,
      hStands.sites, ?_, ?_⟩
    · intro f t hGet
      rcases hLinks id n hSlot f t hGet with
        ⟨m', n₁, j, f', t', hLeads', hLive', _, hGet', hNode, _⟩
      rcases hLeads.unique hLeads' with ⟨rfl, _⟩
      rw [hLive] at hLive'
      cases hLive'
      exact ⟨f', t', hGet', hNode.symm.resolvesInto hh⟩
    · intro hHad hNone
      exact (hStands.lost ⟨hHad, hNone⟩).2
  · rintro a b rfl
    have hUnited :=
      (Sound.unify (E := False) hg hRun).here False.elim
    exact hUnited.2.1.resolvesInto hh

/-
  Two rings of two nodes. The first has an array, and a heap node that two
  values denote.
-/
def twoRings : List Update :=
  [.createNode (Flags.only .heap) 16,
    .createNode Flags.empty 8, .createNode Flags.empty 24,
    .createNode Flags.empty 8,
    .merge (.addLink ⟨0, 0⟩ none ⟨1, 0⟩),
    .merge (.addLink ⟨1, 0⟩ none ⟨0, 8⟩),
    .merge (.addLink ⟨2, 8⟩ none ⟨3, 0⟩),
    .merge (.addLink ⟨3, 0⟩ none ⟨2, 16⟩),
    .merge (.setArray 1 8),
    .merge (.bindRoot (.scalar 1) (some ⟨0, 0⟩)),
    .merge (.bindRoot (.scalar 2) (some ⟨0, 0⟩))]

/-
  Unifying the array with a node of the second ring merges the rings. The
  heap node comes to lie inside another, and is still on the heap and
  without a value of its own.
-/
theorem merging_loses_nothing_of_twoRings :
    ∃ g h n m k n',
      Update.runAll {} twoRings = .ok g ∧
      g.slot 0 = .live n ∧ n.flags.has .heap = true ∧
      n.uniqueScalar = { value? := none, everHad := true } ∧
      (Merging.unify ⟨1, 0⟩ ⟨3, 0⟩).run g = .ok h ∧
      h.resolve ⟨0, 0⟩ = .ok ⟨2, 8⟩ ∧
      h.ResolvesInto 0 m k ∧ h.slot m = .live n' ∧
      n'.flags.has .heap = true ∧
      n'.uniqueScalar.value? = none := by
  rcases Update.exists_run {} twoRings (.unify ⟨1, 0⟩ ⟨3, 0⟩)
      (P := fun g h =>
        (g.slot 0).node?.map (fun n =>
          (n.flags.has .heap, n.uniqueScalar)) =
            some (true, { value? := none, everHad := true }) ∧
          h.resolve ⟨0, 0⟩ = .ok ⟨2, 8⟩)
      (by decide) (by decide +kernel) with
    ⟨g, h, hBuild, hg, hUnify, hNode, hResolve⟩
  cases hSlot : g.slot 0 with
  | free => simp [hSlot, Slot.node?] at hNode
  | forward t => simp [hSlot, Slot.node?] at hNode
  | live n =>
      simp only [hSlot, Slot.node?, Option.map_some,
        Option.some.injEq, Prod.mk.injEq] at hNode
      rcases (merging_loses_nothing (by decide) hg
          hUnify).1 0 n hSlot with
        ⟨m, k, n', hInto, hLive, _, _, hFlags, _, _, hLost⟩
      refine ⟨g, h, n, m, k, n', hBuild, hSlot, hNode.1,
        hNode.2, hUnify, hResolve, hInto, hLive, ?_, ?_⟩
      · exact hFlags .heap (by decide) (by decide) hNode.1
      · apply hLost
        · rw [hNode.2]
        · rw [hNode.2]

end HeapShape
