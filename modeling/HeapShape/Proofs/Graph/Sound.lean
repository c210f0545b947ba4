import HeapShape.Proofs.Graph.Merged

/-
  Sound steps of merging.

  Merging works on half-moved nodes, whose links are replayed later. So the
  fate of links is told from the far end: `Sound E g h Q` says that every
  later graph that has the links of `h` has `Q`. A step that takes links
  away for a while leaves them owed: its `Q` gives the links of `g` once
  those are shown to be there.

  Main declarations:
    * `Graph.Sound`
    * `Graph.Sound.setLive`
    * `Graph.Merged.setForward`
    * `Graph.Sound.setForward`
-/

-- Sound Steps

namespace HeapShape

namespace Graph

/-
  A step of merging from `g` to `h`. Whatever graph the merging ends in, if
  it has the links of `h`, then `Q` holds of it.
-/
structure Sound
    (E : Prop)
    (g h : Graph)
    (Q : Graph → Prop) : Prop where
  wellFormed : h.WellFormed
  merged : Merged g h
  arrays : E → ArraysFrom g h
  result : ∀ last, last.WellFormed → Merged h last →
    (E → SameStrides g last) →
    LinksHold E h last → Q last

variable {E : Prop} {g h i : Graph} {P Q : Graph → Prop}

/- Steps one after the other. -/
theorem Sound.trans
    (hgh : Sound E g h P)
    (hhi : Sound E h i fun last => LinksHold E h last ∧ Q last) :
    Sound E g i fun last => P last ∧ Q last where
  wellFormed := hhi.wellFormed
  merged := hgh.merged.trans hhi.wellFormed hhi.merged
  arrays := fun hEx =>
    (hgh.arrays hEx).trans (hhi.arrays hEx) hhi.merged
  result := by
    intro last hLast hm hStrides hLinks
    have hm' := hhi.merged.trans hLast hm
    have hStrides' : E → SameStrides h last := fun hEx =>
      (hStrides hEx).of_merged (hgh.arrays hEx) hgh.merged hm'
    rcases hhi.result last hLast hm hStrides' hLinks with ⟨hLinks', hQ⟩
    exact ⟨hgh.result last hLast hm' hStrides hLinks', hQ⟩

/- The identity is a sound step. -/
theorem Sound.refl
    (hg : g.WellFormed) :
    Sound E g g fun last => LinksHold E g last where
  wellFormed := hg
  merged := .refl hg
  arrays := fun _ id n hSlot hArray =>
    ⟨id, 0, n, hSlot, hArray, .live hSlot⟩
  result := fun _ _ _ _ hLinks => hLinks

/- What a step yields can be read in the later graph. -/
theorem Sound.imp
    (hgh : Sound E g h P)
    (hPQ : ∀ last, last.WellFormed → Merged h last → (E → SameStrides g last) →
        P last → Q last) :
    Sound E g h Q where
  wellFormed := hgh.wellFormed
  merged := hgh.merged
  arrays := hgh.arrays
  result := fun last hLast hm hStrides hLinks =>
    hPQ last hLast hm hStrides (hgh.result last hLast hm hStrides hLinks)

/- A step after which nothing new is known. -/
theorem Sound.before
    (hgh : Sound E g h P)
    (hhi : Sound E h i fun last => LinksHold E h last) :
    Sound E g i P := by
  have hAnd : Sound E h i fun last =>
      LinksHold E h last ∧ True :=
    hhi.imp fun _ _ _ _ hLinks => ⟨hLinks, trivial⟩
  exact (hgh.trans hAnd).imp fun _ _ _ _ hAll => hAll.1

/- A step that goes before one that yields something. -/
theorem Sound.then
    (hgh : Sound E g h fun last => LinksHold E g last)
    (hhi : Sound E h i fun last => LinksHold E h last ∧ Q last) :
    Sound E g i fun last => LinksHold E g last ∧ Q last :=
  hgh.trans hhi

/- What holds once a step is the last one. -/
theorem Sound.here
    (hgh : Sound E g h Q)
    (hStrides : E → SameStrides g h) :
    Q h :=
  hgh.result h hgh.wellFormed (.refl hgh.wellFormed) hStrides hgh.wellFormed.linksHold

/- A step that changes no live node. -/
theorem Sound.of_live_iff
    (hg : g.WellFormed)
    (hh : h.WellFormed)
    (hConfig : h.config = g.config)
    (hLive : ∀ id n, h.slot id = .live n ↔ g.slot id = .live n)
    (hLeads : ∀ id m k, g.Leads id m k → h.Leads id m k) :
    Sound E g h fun last => LinksHold E g last where
  wellFormed := hh
  merged :=
    { config := hConfig
      leads := by
        intro id m k hEnd
        rcases hEnd.live_end with ⟨n, hn⟩
        exact ⟨m, 0, .live ((hLive m n).mpr hn), hLeads id m k hEnd⟩
      stands := by
        intro id n m k n' hSlot hEnd hn'
        have hSlot' := (hLive id n).mpr hSlot
        rcases hEnd.eq_of_live hSlot' with ⟨rfl, rfl⟩
        rw [hSlot'] at hn'
        cases hn'
        exact .refl (hg.nodes m n hSlot).size_lt }
  arrays := by
    intro _ id n hSlot hArray
    exact ⟨id, 0, n, (hLive id n).mp hSlot, hArray, .live hSlot⟩
  result := by
    intro last _ _ _ hLinks id n hSlot
    exact hLinks id n ((hLive id n).mpr hSlot)

/- Changes beside the slots. -/
theorem Sound.of_same_slots
    (hg : g.WellFormed)
    (hh : h.WellFormed)
    (hConfig : h.config = g.config)
    (hSlots : h.slots = g.slots) :
    Sound E g h fun last => LinksHold E g last := by
  have hSlot : ∀ id, h.slot id = g.slot id := by
    intro id
    unfold slot
    rw [hSlots]
  apply Sound.of_live_iff hg hh hConfig
  · intro id n
    rw [hSlot]
  · intro id m k hLeads
    apply hLeads.congr
    · exact fun x t hx => (hSlot x).trans hx
    · exact fun x n hx => ⟨n, (hSlot x).trans hx⟩

theorem Sound.shortened
    (hg : g.WellFormed)
    (hs : Shortened g h) :
    Sound E g h fun last => LinksHold E g last :=
  .of_live_iff hg (hg.shortened hs) hs.config (fun _ _ => hs.live_iff) fun _ _ _ => hs.leads

/- Look-up: the cell found is the place of the cell given. -/
theorem Sound.find
    (hg : g.WellFormed)
    {c d : Cell}
    (hFind : g.find c = .ok (d, h)) :
    Sound E g h (fun last =>
        LinksHold E g last ∧ last.SamePlace c d) ∧
      d.offset < wordBound ∧
      ∃ n, g.slot d.node = .live n ∧ h.slot d.node = .live n := by
  rcases find_eq_ok hFind with ⟨k, hLeads, hOffset, hWord, hs⟩
  rcases hLeads.live_end with ⟨n, hLive⟩
  refine ⟨?_, hWord, n, hLive, hs.live_iff.mpr hLive⟩
  apply (Sound.shortened hg hs).imp
  intro last _ hm _ hLinks
  exact ⟨hLinks, hm.samePlace (hs.leads hLeads) hOffset⟩

/- A fresh node, which is no array if strides matter. -/
theorem Sound.createNode
    (hg : g.WellFormed)
    (flags : Flags)
    (size : Nat)
    (hn : (freshNode flags size).WellFormed g.config)
    (hArray : E → flags.has .array = false) :
    Sound E g (g.createNode flags size).2 fun last => LinksHold E g last := by
  have hh := hg.createNode hn
  rcases hg.slot_createNode flags size with ⟨hFresh, hSlot⟩
  have hOther : ∀ x, g.slot x ≠ .free → (g.createNode flags size).2.slot x = g.slot x := by
    intro x hx
    rw [hSlot, if_neg]
    rintro rfl
    exact hx hFresh
  have hOld : ∀ id n, g.slot id = .live n → (g.createNode flags size).2.slot id = .live n := by
    intro id n hLive
    rw [hOther id (slot_ne_free_of_live hLive), hLive]
  constructor
  · exact hh
  · constructor
    · exact config_createNode flags size
    · intro id m k hEnd
      rcases hEnd.live_end with ⟨n, hLive⟩
      exact ⟨m, 0, .live (hOld m n hLive), hg.leads_createNode flags size hEnd⟩
    · intro id n m k n' hLive hEnd hLive'
      rcases hEnd.eq_of_live (hOld id n hLive) with ⟨rfl, rfl⟩
      rw [hOld m n hLive] at hLive'
      cases hLive'
      exact .refl (hg.nodes m n hLive).size_lt
  · intro hEx id n hLive hIsArray
    rw [hSlot] at hLive
    split at hLive
    · cases hLive
      rw [Node.isArray, hArray hEx] at hIsArray
      cases hIsArray
    · exact ⟨id, 0, n, hLive, hIsArray, .live (hOld id n hLive)⟩
  · intro last _ _ _ hLinks id n hLive
    exact hLinks id n (hOld id n hLive)

-- Changing One Node

variable {id : NodeId} {n n' : Node}

/-
  A live node gives way to one that stands for it. The links it had are
  owed; the links it has now are kept.
-/
theorem Sound.setLive
    (hg : g.WellFormed)
    (hSlot : g.slot id = .live n)
    (hn : n'.WellFormed g.config)
    (hStands : n.StandsFor n' 0)
    (hArray : E → n'.isArray = true → n.isArray = true)
    (hLinks : ∀ f t, n'.links.get? f = some t → g.Has t) :
    Sound E g (g.setSlot id (.live n')) fun last =>
      (NodeLinked E last n (Cell.start id) → LinksHold E g last) ∧
      NodeLinked E last n' (Cell.start id) := by
  have hLt := lt_size_of_live hSlot
  have hNew := slot_setSlot hLt (.live n')
  have hHere : (g.setSlot id (.live n')).slot id = .live n' := by
    rw [hNew, if_pos rfl]
  constructor
  · exact hg.setLive hSlot hn hStands.toLiesIn hLinks
  · constructor
    · rfl
    · intro j m k hLeads
      have hSame := hLeads.setLive hSlot n'
      rcases hSame.live_end with ⟨_, hLive⟩
      exact ⟨m, 0, .live hLive, hSame⟩
    · intro j nj m k nm hj hLeads hm
      have hSelf := (Leads.live hj).setLive hSlot n'
      rcases hLeads.unique hSelf with ⟨rfl, rfl⟩
      rw [hNew] at hm
      split at hm
      · next hEq =>
        subst hEq
        rw [hSlot] at hj
        cases hj
        cases hm
        exact hStands
      · rw [hj] at hm
        cases hm
        exact .refl (hg.nodes m nj hj).size_lt
  · intro hEx j nj hj hArr
    have hSelf := Leads.live hj
    rw [hNew] at hj
    split at hj
    · next hEq =>
      subst hEq
      cases hj
      exact ⟨j, 0, n, hSlot, hArray hEx hArr, hSelf⟩
    · exact ⟨j, 0, nj, hj, hArr, hSelf⟩
  · intro last _ _ _ hLast
    refine ⟨?_, hLast id n' hHere⟩
    intro hOwed j nj hj
    by_cases hEq : j = id
    · subst hEq
      rw [hSlot] at hj
      cases hj
      exact hOwed
    · apply hLast j nj
      rw [hNew, if_neg hEq, hj]

/- A live node that keeps its links and may gain some. -/
theorem Sound.setLive_of_subset
    (hg : g.WellFormed)
    (hSlot : g.slot id = .live n)
    (hn : n'.WellFormed g.config)
    (hStands : n.StandsFor n' 0)
    (hArray : E → n'.isArray = true → n.isArray = true)
    (hLinks : ∀ f t, n'.links.get? f = some t → g.Has t)
    (hSubset : ∀ f t, n.links.get? f = some t → n'.links.get? f = some t) :
    Sound E g (g.setSlot id (.live n')) fun last =>
      LinksHold E g last ∧
      NodeLinked E last n' (Cell.start id) := by
  apply (Sound.setLive hg hSlot hn hStands hArray hLinks).imp
  rintro last _ _ _ ⟨hPaid, hNew⟩
  refine ⟨hPaid ?_, hNew⟩
  intro f t hGet
  exact hNew f t (hSubset f t hGet)

/- A live node whose links are left alone. -/
theorem Sound.setLive_of_same_links
    (hg : g.WellFormed)
    (hSlot : g.slot id = .live n)
    (hn : n'.WellFormed g.config)
    (hStands : n.StandsFor n' 0)
    (hArray : E → n'.isArray = true → n.isArray = true)
    (hLinks : n'.links = n.links) :
    Sound E g (g.setSlot id (.live n')) fun last => LinksHold E g last := by
  have hStep := Sound.setLive_of_subset hg hSlot hn hStands hArray
    (fun f t hGet => hg.link_has id n f t hSlot (hLinks ▸ hGet))
    (fun f t hGet => by rwa [hLinks])
  exact hStep.imp fun _ _ _ _ h => h.1

/- A live slot other than the one that is merged away. -/
theorem slot_setForward_of_live
    (hSlot : g.slot id = .live n)
    (t : Cell)
    {j : NodeId}
    {nj : Node}
    (hj : j ≠ id)
    (hLive : g.slot j = .live nj) :
    (g.setSlot id (.forward t)).slot j = .live nj := by
  rw [slot_setSlot (lt_size_of_live hSlot), if_neg hj, hLive]

variable {this : NodeId} {o : Nat}

/- The nodes after one was merged into another. -/
theorem Merged.setForward
    (hg : g.WellFormed)
    (hSlot : g.slot id = .live n)
    (hThis : g.slot this = .live n')
    (hne : this ≠ id)
    (hStands : n.StandsFor n' o) :
    Merged g (g.setSlot id (.forward { node := this, offset := o })) where
  config := rfl
  leads := by
    intro j m k hEnd
    have hAll := hEnd.setForward (o := o) hSlot hThis hne
    by_cases hm : m = id
    · subst hm
      rw [if_pos rfl, if_pos rfl] at hAll
      have hStart := (Leads.live hSlot).setForward (o := o) hSlot hThis hne
      rw [if_pos rfl, if_pos rfl, Nat.zero_add] at hStart
      exact ⟨this, o, hStart, hAll⟩
    · rw [if_neg hm, if_neg hm] at hAll
      rcases hEnd.live_end with ⟨nm, hLive⟩
      exact ⟨m, 0, .live (slot_setForward_of_live hSlot _ hm hLive), hAll⟩
  stands := by
    intro j nj m k nm hj hEnd hm
    have hSelf := (Leads.live hj).setForward (o := o) hSlot hThis hne
    rcases hEnd.unique hSelf with ⟨rfl, rfl⟩
    by_cases hEq : j = id
    · subst hEq
      rw [if_pos rfl, Nat.zero_add]
      rw [if_pos rfl, slot_setForward_of_live hSlot _ hne hThis] at hm
      rw [hSlot] at hj
      cases hj
      cases hm
      exact hStands
    · rw [if_neg hEq]
      rw [if_neg hEq, slot_setForward_of_live hSlot _ hEq hj] at hm
      cases hm
      exact .refl (hg.nodes j nj hj).size_lt

/-
  A live node is merged into one that stands for it already. The links it
  had are owed at their places there.
-/
theorem Sound.setForward
    (hg : g.WellFormed)
    (hSlot : g.slot id = .live n)
    (hThis : g.slot this = .live n')
    (hne : this ≠ id)
    (hStands : n.StandsFor n' o) :
    Sound E g (g.setSlot id (.forward { node := this, offset := o })) fun last =>
        last.SamePlace (Cell.start id) { node := this, offset := o } ∧
        (NodeLinked E last n { node := this, offset := o } → LinksHold E g last) where
  wellFormed := hg.setForward hSlot hThis hne hStands.toLiesIn
  merged := .setForward hg hSlot hThis hne hStands
  arrays := by
    intro _ j nj hj hArray
    have hSelf := Leads.live hj
    rw [slot_setSlot (lt_size_of_live hSlot)] at hj
    split at hj
    · cases hj
    · exact ⟨j, 0, nj, hj, hArray, hSelf⟩
  result := by
    intro last _ hm _ hLast
    have hPlace : last.SamePlace (Cell.start id) { node := this, offset := o } := by
      have hStart := (Leads.live hSlot).setForward (o := o) hSlot hThis hne
      rw [if_pos rfl, if_pos rfl, Nat.zero_add] at hStart
      exact hm.samePlace hStart (Nat.zero_add o).symm
    refine ⟨hPlace, ?_⟩
    intro hOwed j nj hj
    by_cases hEq : j = id
    · subst hEq
      rw [hSlot] at hj
      cases hj
      intro f t hGet
      apply (hOwed f t hGet).of_samePlace
      rcases hPlace with ⟨m, a, b, ha, hb, hSum⟩
      refine ⟨m, a, b, ha, hb, ?_⟩
      simp only [Cell.start] at hSum ⊢
      omega
    · exact hLast j nj (slot_setForward_of_live hSlot _ hEq hj)

end Graph

end HeapShape
