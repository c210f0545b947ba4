import HeapShape.Proofs.Graph.Derived

/-
  Elementary steps.

  Merging, copying into a graph and binding roots change a graph in a few
  ways only: chains are shortened, a live node is changed in place, one live
  node absorbs another, and fresh nodes are made. What holds of a graph
  after any of these operations can be shown for one such step.

  Merging alone makes fresh nodes only to stand in for a node that collapses.

  The steps tell what becomes of the flag `foreign`. A change in place
  leaves it alone, and a node that absorbs another is foreign if both were.
  The fresh node that stands in for a collapsed one is not foreign.

  Main declarations:
    * `Graph.MergeStep.freeListed`
    * `Graph.Steps.addLink`
    * `Graph.Steps.modifyNode`
    * `Graph.Steps.bindRoot`
-/

-- Merge Steps

namespace HeapShape

namespace Graph

variable {g h : Graph}

variable {P : Graph → Prop}

/- What every change keeps holds after all of them. -/
theorem MergeSteps.keep
    (hSteps : MergeSteps g h)
    (hStep : ∀ a b, MergeStep a b → P a → P b)
    (hg : P g) :
    P h := by
  unfold MergeSteps at hSteps
  induction hSteps with
  | refl => exact hg
  | tail _ hLast ih => exact hStep _ _ hLast ih

-- Steps

/-
  One elementary change. Nodes with flags of a kind `C` may be made, and one
  to stand in for a node that collapses.
-/
inductive Step
    (C : Flags → Prop)
    (g : Graph) :
    Graph → Prop
| shorten
    {h : Graph}
    (hs : Shortened g h) :
    Step C g h
| change
    {id : NodeId} {n n' : Node} (hLive : g.slot id = .live n)
    (hn : n.Steady n') :
    Step C g (g.setSlot id (.live n'))
| absorb
    {this other : NodeId} {n m : Node} (hThis : g.slot this = .live n)
    (hOther : g.slot other = .live m) (hne : this ≠ other)
    (offset : Nat) :
    Step C g (g.takenOver this other n m offset)
| create
    {flags : Flags} (hFlags : C flags ∨ flags = Flags.only .offsetCollapsed)
    (size : Nat) :
    Step C g (g.createNode flags size).2
| bind
    {r : Root}
    (hNew : g.roots.get? r = none) :
    Step C g
      { g.createBlank.2 with
        roots := g.createBlank.2.roots.insert r
          (Cell.start g.createBlank.1) }
| note
    {h : Graph} (hSlots : h.slots = g.slots) (hFree : h.free = g.free)
    (hRoots : h.roots = g.roots) :
    Step C g h

/- Elementary changes one after the other. -/
def Steps
    (C : Flags → Prop)
    (g h : Graph) : Prop :=
  Relation.ReflTransGen (Step C) g h

variable {C : Flags → Prop} {i : Graph}

theorem Steps.refl
    (g : Graph) :
    Steps C g g :=
  Relation.ReflTransGen.refl

theorem Steps.trans
    (hgh : Steps C g h)
    (hhi : Steps C h i) :
    Steps C g i :=
  Relation.ReflTransGen.trans hgh hhi

theorem Steps.tail
    (hgh : Steps C g h)
    (hhi : Step C h i) :
    Steps C g i :=
  Relation.ReflTransGen.tail hgh hhi

theorem Steps.single
    (hgh : Step C g h) :
    Steps C g h :=
  Relation.ReflTransGen.single hgh

/- What every step keeps holds after all of them. -/
theorem Steps.keep
    (hSteps : Steps C g h)
    (hStep : ∀ a b, Step C a b → P a → P b)
    (hg : P g) :
    P h := by
  unfold Steps at hSteps
  induction hSteps with
  | refl => exact hg
  | tail _ hLast ih => exact hStep _ _ hLast ih

theorem FreeListed.congr
    (hg : g.FreeListed)
    (hSlots : h.slots = g.slots)
    (hFree : h.free = g.free) :
    h.FreeListed := by
  refine ⟨hFree ▸ hg.nodup, ?_⟩
  intro id
  have hSlot : h.slot id = g.slot id := by
    unfold slot
    rw [hSlots]
  rw [hFree, hSlots, hSlot]
  exact hg.mem_iff id

theorem Step.freeListed
    (hStep : Step C g h)
    (hg : g.FreeListed) :
    h.FreeListed := by
  cases hStep with
  | shorten hs => exact (Derived.shortened (T := fun _ => False) hg hs).freeListed
  | change hLive hn => exact hg.setSlot hLive Slot.noConfusion
  | absorb hThis hOther hne offset =>
    exact (Derived.takenOver (T := fun _ => False) hg hThis hOther hne offset).freeListed
  | create hFlags size => exact hg.createNode _ _
  | bind hNew => exact (hg.createNode Flags.empty 0).congr rfl rfl
  | note hSlots hFree hRoots => exact hg.congr hSlots hFree

theorem Steps.freeListed
    (hSteps : Steps C g h)
    (hg : g.FreeListed) :
    h.FreeListed :=
  hSteps.keep (fun _ _ hStep => hStep.freeListed) hg

/- Merging is made of elementary changes. -/
theorem MergeStep.steps
    (hStep : MergeStep g h)
    (hg : g.FreeListed) :
    Steps C g h := by
  cases hStep with
  | shorten hs => exact .single (.shorten hs)
  | change hLive hn => exact .single (.change hLive hn)
  | absorb hThis hOther hne offset => exact .single (.absorb hThis hOther hne offset)
  | replace hOther =>
    rcases hg.standIn hOther with ⟨hne, hFresh, hOld⟩
    have hMade : Steps C g g.makeStandIn.2 := .single (.create (.inr rfl) 1)
    exact hMade.tail (.absorb hFresh hOld hne 0)

theorem MergeStep.freeListed
    (hStep : MergeStep g h)
    (hg : g.FreeListed) :
    h.FreeListed :=
  (hStep.steps (C := fun _ => False) hg).freeListed hg

theorem MergeSteps.steps
    (hSteps : MergeSteps g h)
    (hg : g.FreeListed) :
    Steps C g h := by
  have hBoth : h.FreeListed ∧ Steps C g h := by
    refine hSteps.keep (P := fun h =>
      h.FreeListed ∧ Steps C g h) ?_ ⟨hg, .refl g⟩
    rintro a b hStep ⟨ha, hBefore⟩
    exact ⟨hStep.freeListed ha, hBefore.trans (hStep.steps ha)⟩
  exact hBoth.2

-- Operations

variable {a b c t : Cell} {type? : Option TypeTag} {id : NodeId}

/- Look-up, and the live node that it finds. -/
theorem Steps.find
    {d : Cell}
    (hRun : g.find c = .ok (d, h)) :
    Steps C g h ∧ ∃ n, h.slot d.node = .live n := by
  rcases find_eq_ok hRun with ⟨k, hLeads, _, _, hs⟩
  rcases hLeads.live_end with ⟨n, hLive⟩
  exact ⟨.single (.shorten hs), n, hs.live_iff.mpr hLive⟩

theorem Steps.unify
    (hg : g.FreeListed)
    (hRun : g.unify a b = .ok h) :
    Steps C g h :=
  (Fused.unify (T := fun _ => False) hg hRun).steps.steps hg

theorem Steps.addLink
    (hg : g.FreeListed)
    (hRun : g.addLink c type? t = .ok h) :
    Steps C g h :=
  (Fused.addLink (T := fun _ => True) hg trivial hRun).steps.steps hg

theorem Steps.modifyNode
    {f : Node → Node}
    (hf : ∀ n : Node, n.Steady (f n))
    (hRun : g.modifyNode id f = .ok h) :
    Steps C g h := by
  rcases modifyNode_eq_setSlot hRun with ⟨g₁, r, k, n, hs, _, hSlot, rfl⟩
  exact (Steps.single (.shorten hs)).tail (.change hSlot (hf n))

/- The cell of a root that is found or made blank. -/
theorem Steps.bindRoot
    {r : Root}
    (hg : g.FreeListed)
    (hRun : g.bindRoot r none = .ok (c, h)) :
    Steps C g h := by
  rcases of_bindRoot hRun with ⟨g₁, hTarget, hNote⟩
  have hFound : Steps C g g₁ ∧ ∃ n, g₁.slot c.node = .live n := by
    unfold rootTarget at hTarget
    cases hRoot : g.roots.get? r with
    | some existing =>
      rw [hRoot] at hTarget
      exact Steps.find hTarget
    | none =>
      rw [hRoot] at hTarget
      cases hTarget
      have hSlot := (hg.slot_createNode Flags.empty 0).2 (g.createNode Flags.empty 0).1
      rw [if_pos rfl] at hSlot
      exact ⟨.single (.bind hRoot), _, hSlot⟩
  rcases hFound with ⟨hFound, n, hLive⟩
  rcases hNote with rfl | ⟨v, hNote⟩
  · exact hFound
  · unfold noteUniqueScalar at hNote
    rw [modifyContents_of_live hLive] at hNote
    cases hNote
    exact hFound.tail (.change hLive (.of_flags rfl))

end Graph

end HeapShape
