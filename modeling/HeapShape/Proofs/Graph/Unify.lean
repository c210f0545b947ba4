import HeapShape.Proofs.Graph.Merge

/-
  Merging is sound.

  Laying a node over another makes their offsets one address where they
  meet. From this, merging two cells makes them one address, by induction on
  the depth of merges.

  Main declarations:
    * `Graph.Overlaid`
    * `Graph.LaysOver.mergeAt`
    * `Graph.Sound.unite_found`
    * `Graph.unites_unifyWithin`
-/

-- Offsets That Meet

namespace HeapShape

open Checked

namespace Graph

variable {g last : Graph} {this other : NodeId} {n m : Node} {a b k : Nat}

/- All offsets of a collapsed node are one address. -/
theorem CollapsedAt.sameAddress
    (hAt : last.CollapsedAt this)
    (hNode : last.SameNode (Cell.start this) (Cell.start other))
    (ha : a < wordBound)
    (hb : ∀ q j, last.Leads other q j → b + j < wordBound) :
    last.SameAddress { node := this, offset := a } { node := other, offset := b } := by
  rcases hAt with ⟨q, nq, hThis, hLive, hCollapsed⟩
  rcases hNode with ⟨q', i, j, hThis', hOther⟩
  rcases hThis.unique hThis' with ⟨rfl, rfl⟩
  refine ⟨q, nq, 0, j, hThis, hOther, hLive, Or.inr ⟨ha, hb q j hOther, ?_⟩⟩
  rw [Node.effectiveOffset_of_collapsed hCollapsed, Node.effectiveOffset_of_collapsed hCollapsed]

/- Only a plain node is moved off its start. -/
theorem Merged.leads_of_not_plain
    (hm : Merged g last)
    (hOther : g.slot other = .live m)
    (hNot : m.isPlain = false)
    {q : NodeId}
    {j : Nat}
    (hLeads : last.Leads other q j) :
    j = 0 := by
  rcases hLeads.live_end with ⟨nq, hLive⟩
  exact (hm.stands _ _ _ _ _ hOther hLeads hLive).folded hNot

/-
  A node that was laid over an array meets it where the offsets agree modulo
  the stride.
-/
theorem SamePlace.sameAddress_of_array
    (hm : Merged g last)
    (hStrides : SameStrides g last)
    (hThis : g.slot this = .live n)
    (hArray : n.isArray = true)
    (hPlace : last.SamePlace (Cell.start other)
      { node := this, offset := k })
    (ha : a < wordBound)
    (hb : b + k < wordBound)
    (hEq : ∀ q i nq, last.Leads this q i →
      last.slot q = .live nq → nq.isArray = true → a % n.size = (b + k) % n.size) :
    last.SameAddress { node := this, offset := a } { node := other, offset := b } := by
  have hNot : n.isPlain = false := Node.isPlain_eq_false_iff.mpr (.inr hArray)
  rcases hPlace with ⟨q, j, i, hOther, hLeads, hSum⟩
  rcases hLeads.live_end with ⟨nq, hLive⟩
  have hStands := hm.stands _ _ _ _ _ hThis hLeads hLive
  rcases hStands.folded hNot with rfl
  simp only [Cell.start, Nat.zero_add, Nat.add_zero] at hSum
  subst hSum
  refine ⟨q, nq, 0, j, hLeads, hOther, hLive, Or.inr ⟨ha, hb, ?_⟩⟩
  cases hCollapsed : nq.isCollapsed with
  | true =>
    rw [Node.effectiveOffset_of_collapsed hCollapsed, Node.effectiveOffset_of_collapsed hCollapsed]
  | false =>
    have hArray' : nq.isArray = true := by
      rcases hStands.array hArray with h | h
      · exact h
      · rw [hCollapsed] at h
        cases h
    have hSize := hStrides _ _ _ _ _ hThis hArray hLeads hLive hArray'
    rw [Node.effectiveOffset_of_array hCollapsed hArray',
      Node.effectiveOffset_of_array hCollapsed hArray',
      hSize]
    exact hEq q 0 nq hLeads hLive hArray'

/- A node that was laid over another at an offset. -/
theorem SamePlace.shift
    (hPlace : last.SamePlace (Cell.start other)
      { node := this, offset := k })
    (hSum : a = k + b) :
    last.SamePlace { node := this, offset := a } { node := other, offset := b } := by
  rcases hPlace with ⟨q, j, i, hOther, hThis, hEq⟩
  refine ⟨q, i, j, hThis, hOther, ?_⟩
  simp only [Cell.start] at hEq ⊢
  omega

-- Laying A Node Over Another

/-
  Two nodes lie over each other with the start of `other` at an offset of
  `this`: offsets that meet are one address.
-/
def Overlaid
    (last : Graph)
    (this other : NodeId)
    (n m : Node)
    (offset : Nat) : Prop :=
  ∀ a b, a < wordBound → b < wordBound →
    n.effectiveOffset a = offset + m.effectiveOffset b →
      last.SameAddress { node := this, offset := a }
        { node := other, offset := b }

/- A sound step that lays two nodes over each other. -/
def LaysOver
    (E : Prop)
    (g h : Graph)
    (this other : NodeId)
    (n m : Node)
    (offset : Nat) : Prop :=
  Sound E g h fun last =>
    LinksHold E g last ∧
      last.SameNode (Cell.start this) (Cell.start other) ∧
      (E → last.Overlaid this other n m offset)

variable {E : Prop} {merge : Merge} {h : Graph} {offset : Nat}

/-
  Where the nodes do not fit, `this` is collapsed. A plain `other` is met
  only inside its size.
-/
theorem LaysOver.by_collapse
    (hMerge : Unites merge)
    (hg : g.WellFormed)
    (hThis : g.slot this = .live n)
    (hOther : g.slot other = .live m)
    (hRoom : m.isPlain = true → ∀ a b, n.effectiveOffset a = offset + b → b ≤ m.size)
    (hRun : Graph.collapseThenMerge merge g this other = .ok h) :
    LaysOver E g h this other n m offset := by
  have hStep := Sound.collapseThenMerge (E := E) hMerge hg hThis hRun
  apply hStep.imp
  rintro last hLast hm _ ⟨hLinks, hAt, hNode⟩
  have hm' := hStep.merged.trans hLast hm
  refine ⟨hLinks, hNode, fun _ a b ha hb hEq => ?_⟩
  apply hAt.sameAddress hNode ha
  intro q j hLeads
  cases hPlain : m.isPlain with
  | false =>
    rcases hm'.leads_of_not_plain hOther hPlain hLeads with rfl
    exact hb
  | true =>
    rcases hLeads.live_end with ⟨nq, hLive⟩
    have hWord := (hm'.stands _ _ _ _ _ hOther hLeads hLive).word
    rw [Node.effectiveOffset_of_plain hPlain] at hEq
    have hLe := hRoom hPlain a b hEq
    omega

/- A collapsed node absorbs any other at its start. -/
theorem LaysOver.in_collapsed
    (hMerge : Unites merge)
    (hg : g.WellFormed)
    (hThis : g.slot this = .live n)
    (hOther : g.slot other = .live m)
    (hne : this ≠ other)
    (hCollapsed : n.isCollapsed = true)
    (hRun : Graph.absorb merge g this other 0 = .ok h) :
    LaysOver E g h this other n m offset := by
  have hStep := Sound.absorb (E := E) hMerge hg hThis hOther hne (.of_collapsed hCollapsed
      ((hg.nodes _ _ hThis).collapsed_not_array hCollapsed)
      (hg.nodes _ _ hOther).size_lt) hRun
  apply hStep.imp
  rintro last hLast hm _ ⟨hLinks, hPlace⟩
  have hAt := (hStep.merged.trans hLast hm).collapsedAt_of_live hThis hCollapsed
  refine ⟨hLinks, hPlace.symm.sameNode, fun _ a b ha hb _ => ?_⟩
  apply hAt.sameAddress hPlace.symm.sameNode ha
  intro q j hLeads
  rcases hAt with ⟨q', nq, hStart, _⟩
  rcases hPlace with ⟨q'', j', i, hOther', hThis', hSum⟩
  rcases hOther'.unique hLeads with ⟨rfl, rfl⟩
  rcases hThis'.unique hStart with ⟨rfl, rfl⟩
  simp only [Cell.start, Nat.add_zero, Nat.zero_add] at hSum
  omega

/- A node that is not collapsed can grow. -/
theorem Sound.setSize
    (hg : g.WellFormed)
    (hSlot : g.slot this = .live n)
    (hNot : n.isCollapsed = false)
    {size : Nat}
    (hSize : n.size ≤ size)
    (hLt : size < wordBound) :
    Sound E g (g.setSlot this (.live { n with size := size })) (fun last =>
          LinksHold E g last) ∧
      (∀ id, id ≠ this → (g.setSlot this (.live { n with size := size })).slot id = g.slot id) ∧
      (g.setSlot this (.live { n with size := size })).slot
        this = .live { n with size := size } := by
  have hn := hg.nodes _ _ hSlot
  have hIn := lt_size_of_live hSlot
  refine ⟨?_, ?_, ?_⟩
  · apply Sound.setLive_of_same_links hg hSlot
    · apply hn.update
      · rfl
      · rfl
      · exact hSize
      · exact hLt
      · intro hCollapsed
        rw [hNot] at hCollapsed
        cases hCollapsed
      · exact fun f t hGet => Or.inl hGet
      · exact fun o ts hGet => Or.inl ⟨ts, hGet⟩
    · exact .of_same_facts hn.size_lt rfl hSize rfl rfl
    · exact fun _ hArray => hArray
    · rfl
  · intro id hne
    rw [slot_setSlot hIn, if_neg hne]
  · rw [slot_setSlot hIn, if_pos rfl]

/- A plain node is laid over a plain node. -/
theorem LaysOver.in_plain
    (hMerge : Unites merge)
    (hg : g.WellFormed)
    (hThis : g.slot this = .live n)
    (hOther : g.slot other = .live m)
    (hne : this ≠ other)
    (hn : n.isPlain = true)
    (hm : m.isPlain = true)
    (hReach : m.size + offset < wordBound)
    (hRun : absorb merge
      (g.setSlot this (.live { n with
        size := max n.size (m.size + offset) }))
      this other offset = .ok h) :
    LaysOver E g h this other n m offset := by
  have hLt := (hg.nodes _ _ hThis).size_lt
  rcases Sound.setSize (E := E) hg hThis (Node.isPlain_iff.mp hn).1
      (Nat.le_max_left n.size (m.size + offset))
      (Nat.max_lt.mpr ⟨hLt, hReach⟩) with
    ⟨hGrown, hSame, hHere⟩
  have hStep := Sound.absorb (E := E) hMerge hGrown.wellFormed
    hHere ((hSame other (Ne.symm hne)).trans hOther) hne
    (.of_plain hm hReach fun _ => Nat.le_max_right _ _) hRun
  apply (hGrown.then hStep).imp
  rintro last _ _ _ ⟨hLinks, hPlace⟩
  refine ⟨hLinks, hPlace.symm.sameNode, fun _ a b _ _ hEq => ?_⟩
  rw [Node.effectiveOffset_of_plain hn, Node.effectiveOffset_of_plain hm] at hEq
  exact (hPlace.shift hEq).sameAddress

/- A plain node is laid over an element of an array. -/
theorem LaysOver.in_array
    (hMerge : Unites merge)
    (hg : g.WellFormed)
    (hThis : g.slot this = .live n)
    (hOther : g.slot other = .live m)
    (hne : this ≠ other)
    (hNot : n.isCollapsed = false)
    (hn : n.isArray = true)
    (hm : m.isPlain = true)
    (hReach : m.size + offset % n.size < wordBound)
    (hRun : absorb merge g this other (offset % n.size) = .ok h) :
    LaysOver E g h this other n m offset := by
  have hWf := hg.nodes _ _ hThis
  have hStep := Sound.absorb (E := E) hMerge hg hThis hOther hne (.of_plain hm hReach fun h => by
      rw [Node.isPlain_iff, hn] at h
      cases h.2) hRun
  apply hStep.imp
  rintro last hLast hm' hStrides ⟨hLinks, hPlace⟩
  refine ⟨hLinks, hPlace.symm.sameNode, fun hE a b ha hb hEq => ?_⟩
  rw [Node.effectiveOffset_of_plain hm, Node.effectiveOffset_of_array hNot hn] at hEq
  have hMod := Nat.mod_lt a (hWf.array_size hn)
  have hOffset : offset % n.size = offset := Nat.mod_eq_of_lt (by omega)
  have hLt := hWf.size_lt
  rw [hOffset] at hPlace
  apply hPlace.sameAddress_of_array (hStep.merged.trans hLast hm') (hStrides hE) hThis hn ha
  · omega
  · intro _ _ _ _ _ _
    rw [Nat.add_comm b offset, ← hEq, Nat.mod_mod]

/- A plain node is laid under the start of an array. -/
theorem LaysOver.under_array
    (hMerge : Unites merge)
    (hg : g.WellFormed)
    (hThis : g.slot this = .live n)
    (hOther : g.slot other = .live m)
    (hne : this ≠ other)
    (hn : n.isPlain = true)
    (hNot : m.isCollapsed = false)
    (hm : m.isArray = true)
    (hRun : absorb merge g other this 0 = .ok h) :
    LaysOver E g h this other n m 0 := by
  have hLt := (hg.nodes _ _ hThis).size_lt
  have hStep := Sound.absorb (E := E) hMerge hg hOther hThis (Ne.symm hne)
    (.of_plain hn hLt fun h => by
      rw [Node.isPlain_iff, hm] at h
      cases h.2) hRun
  apply hStep.imp
  rintro last hLast hm' hStrides ⟨hLinks, hPlace⟩
  refine ⟨hLinks, hPlace.sameNode, fun hE a b ha hb hEq => ?_⟩
  rw [Node.effectiveOffset_of_plain hn, Node.effectiveOffset_of_array hNot hm, Nat.zero_add] at hEq
  apply SameAddress.symm
  apply hPlace.sameAddress_of_array (hStep.merged.trans hLast hm') (hStrides hE) hOther hm hb
  · exact ha
  · intro _ _ _ _ _ _
    rw [Nat.add_zero, hEq]
    exact (Nat.mod_mod _ _).symm

/- An array is laid over another, element over element. -/
theorem LaysOver.arrays
    (hMerge : Unites merge)
    (hg : g.WellFormed)
    (hThis : g.slot this = .live n)
    (hOther : g.slot other = .live m)
    (hne : this ≠ other)
    (hnC : n.isCollapsed = false)
    (hn : n.isArray = true)
    (hmC : m.isCollapsed = false)
    (hm : m.isArray = true)
    (hOffset : offset % n.size = 0)
    (hRun : absorb merge
      (g.setSlot this (.live { n with
        size := max n.size m.size })) this other 0 = .ok h) :
    LaysOver E g h this other n m offset := by
  have hnW := hg.nodes _ _ hThis
  have hmW := hg.nodes _ _ hOther
  rcases Sound.setSize (E := E) hg hThis hnC (Nat.le_max_left n.size m.size)
      (Nat.max_lt.mpr ⟨hnW.size_lt, hmW.size_lt⟩) with
    ⟨hGrown, hSame, hHere⟩
  have hStep := Sound.absorb (E := E) hMerge hGrown.wellFormed
    hHere ((hSame other (Ne.symm hne)).trans hOther) hne
    { collapsed := fun h => by rw [hmC] at h; cases h
      array := fun _ => Or.inl hn
      stride := fun _ _ => Nat.le_max_right _ _
      folded := fun _ => rfl
      word := hmW.size_lt
      inside := fun h => by
        rw [Node.isPlain_iff, hm] at h
        cases h.2 } hRun
  have hAll := hGrown.then hStep
  apply hAll.imp
  rintro last hLast hm' hStrides ⟨hLinks, hPlace⟩
  refine ⟨hLinks, hPlace.symm.sameNode, fun hE a b ha hb hEq => ?_⟩
  have hMerged := hAll.merged.trans hLast hm'
  rw [Node.effectiveOffset_of_array hnC hn, Node.effectiveOffset_of_array hmC hm] at hEq
  apply hPlace.sameAddress_of_array hMerged (hStrides hE) hThis hn ha
  · exact hb
  · -- Both arrays end in one, so all strides are the same.
    intro q i nq hLeads hLive hArray
    rcases hPlace with ⟨q', j, i', hOther', hThis', _⟩
    rcases hLeads.unique hThis' with ⟨rfl, rfl⟩
    have hs := hStrides hE _ _ _ _ _ hThis hn hLeads hLive hArray
    have ht := hStrides hE _ _ _ _ _ hOther hm hOther' hLive hArray
    have hSize : m.size = n.size := by omega
    have hMod := Nat.mod_lt a (hnW.array_size hn)
    have hZero : offset = 0 := by
      rw [Nat.mod_eq_of_lt (by omega)] at hOffset
      exact hOffset
    rw [hEq, hZero, hSize]
    simp

-- Merging Two Nodes

theorem mergeable_of_live
    {id : NodeId}
    (hSlot : g.slot id = .live n) :
    g.mergeable id this other = .ok n := by
  unfold mergeable
  rw [hSlot]

/-
  All ways of laying a node over another. A node that does not fit is
  collapsed; that a plain node is then met only inside its size is what made
  it not fit.
-/
theorem LaysOver.mergeAt
    (hMerge : Unites merge)
    (hg : g.WellFormed)
    (hThis : g.slot this = .live n)
    (hOther : g.slot other = .live m)
    (hne : this ≠ other)
    (hRun : mergeAt merge g this other offset = .ok h) :
    LaysOver E g h this other n m offset := by
  have hnW := hg.nodes _ _ hThis
  have hmW := hg.nodes _ _ hOther
  unfold Graph.mergeAt at hRun
  rw [mergeable_of_live hThis, mergeable_of_live hOther] at hRun
  change (if this = other then _ else _) = _ at hRun
  rw [if_neg hne] at hRun
  have hNoPlain : m.isPlain = false → m.isPlain = true → ∀ a b,
        n.effectiveOffset a = offset + b → b ≤ m.size := by
    intro hNot hPlain
    rw [hNot] at hPlain
    cases hPlain
  cases hnC : n.isCollapsed with
  | true =>
    simp only [hnC, Bool.not_true, Bool.and_false, Bool.false_eq_true, if_false, if_true] at hRun
    exact .in_collapsed hMerge hg hThis hOther hne hnC hRun
  | false =>
    cases hmC : m.isCollapsed with
    | true =>
      simp only [hnC, hmC, Bool.not_false, Bool.and_true, if_true] at hRun
      exact .by_collapse hMerge hg hThis hOther
        (hNoPlain (Node.isPlain_eq_false_iff.mpr (.inl hmC))) hRun
    | false =>
      simp only [hnC, hmC, Bool.false_and, Bool.false_eq_true, if_false] at hRun
      cases hnA : n.isArray <;> cases hmA : m.isArray <;>
        simp only [hnA, hmA] at hRun
      · -- A plain node over a plain node.
        rcases of_bind hRun with ⟨reach, hReach, hRun⟩
        rcases addWord_eq_ok_iff.mp hReach with ⟨rfl, hLt⟩
        rw [setContents_of_live hThis, ok_bind] at hRun
        exact .in_plain hMerge hg hThis hOther hne (Node.isPlain_iff.mpr ⟨hnC, hnA⟩)
          (Node.isPlain_iff.mpr ⟨hmC, hmA⟩) hLt hRun
      · -- An array over a plain node.
        have hNot := Node.isPlain_eq_false_iff.mpr (.inr hmA)
        split at hRun
        · next hZero =>
          subst hZero
          exact .under_array hMerge hg hThis hOther hne
            (Node.isPlain_iff.mpr ⟨hnC, hnA⟩) hmC hmA hRun
        · exact .by_collapse hMerge hg hThis hOther (hNoPlain hNot) hRun
      · -- A plain node over an array.
        have hPos := hnW.array_size hnA
        have hPlain := Node.isPlain_iff.mpr ⟨hmC, hmA⟩
        rw [if_neg (Nat.pos_iff_ne_zero.mp hPos)] at hRun
        split at hRun
        · next hZero =>
          rw [← hZero] at hRun
          apply LaysOver.in_array hMerge hg hThis hOther hne hnC hnA hPlain _ hRun
          rw [hZero]
          exact hmW.size_lt
        · rcases of_bind hRun with ⟨reach, hReach, hRun⟩
          rcases addWord_eq_ok_iff.mp hReach with ⟨rfl, hLt⟩
          split at hRun
          · next hPast =>
            apply LaysOver.by_collapse hMerge hg hThis hOther _ hRun
            intro _ a b hEq
            rw [Node.effectiveOffset_of_array hnC hnA] at hEq
            have hMod := Nat.mod_lt a hPos
            rw [Nat.mod_eq_of_lt (by omega)] at hPast
            omega
          · exact .in_array hMerge hg hThis hOther hne hnC hnA hPlain hLt hRun
      · -- An array over an array.
        have hNot := Node.isPlain_eq_false_iff.mpr (.inr hmA)
        split at hRun
        · exact .by_collapse hMerge hg hThis hOther (hNoPlain hNot) hRun
        · split at hRun
          · exact .by_collapse hMerge hg hThis hOther (hNoPlain hNot) hRun
          · next hOffset =>
            rw [setContents_of_live hThis, ok_bind] at hRun
            exact .arrays hMerge hg hThis hOther hne hnC hnA hmC hmA (Decidable.not_not.mp hOffset)
              hRun

-- Merging Two Cells

variable {a b : Cell}

/- Two nodes are laid over each other where cells meet. -/
theorem LaysOver.unite
    (hLays : LaysOver E g h a.node b.node n m
      (n.effectiveOffset a.offset - m.effectiveOffset b.offset))
    (ha : a.offset < wordBound)
    (hb : b.offset < wordBound)
    (hLe : m.effectiveOffset b.offset ≤ n.effectiveOffset a.offset) :
    Sound E g h fun last =>
      LinksHold E g last ∧ last.SameNode a b ∧ (E → last.SameAddress a b) := by
  apply hLays.imp
  rintro last _ _ _ ⟨hLinks, hNode, hOver⟩
  refine ⟨hLinks, hNode, fun hE => ?_⟩
  exact hOver hE _ _ ha hb (by omega)

/- Cells are united if the cells found for them are. -/
theorem Sound.unite_found
    {g₁ g₂ : Graph}
    {a' b' : Cell}
    (hFoundA : Sound E g g₁ fun last => LinksHold E g last ∧ last.SamePlace a a')
    (hFoundB : Sound E g₁ g₂ fun last => LinksHold E g₁ last ∧ last.SamePlace b b')
    (hUnited : Sound E g₂ h fun last =>
      LinksHold E g₂ last ∧ last.SameNode a' b' ∧ (E → last.SameAddress a' b')) :
    Sound E g h fun last =>
      LinksHold E g last ∧ last.SameNode a b ∧ (E → last.SameAddress a b) := by
  have hRest : Sound E g₁ h fun last =>
      LinksHold E g₁ last ∧ last.SamePlace b b' ∧ last.SameNode a' b' ∧
        (E → last.SameAddress a' b') := by
    apply (hFoundB.trans hUnited).imp
    rintro last _ _ _ ⟨⟨hLinks, hPlace⟩, hUnited⟩
    exact ⟨hLinks, hPlace, hUnited⟩
  apply (hFoundA.trans hRest).imp
  rintro last _ _ _ ⟨⟨hLinks, hPlaceA⟩, hPlaceB, hNode, hAddress⟩
  refine ⟨hLinks, ?_, fun hE => ?_⟩
  · exact (hPlaceA.sameNode.trans hNode).trans hPlaceB.symm.sameNode
  · exact (hPlaceA.sameAddress.trans (hAddress hE)).trans hPlaceB.symm.sameAddress

/- Cells of one node lie in one node ever after. -/
theorem Merged.sameNode_of_live
    (hm : Merged g last)
    (hSlot : g.slot a.node = .live n)
    (hSame : a.node = b.node) :
    last.SameNode a b := by
  rcases hm.live hSlot with ⟨q, k, _, hLeads, _⟩
  exact ⟨q, k, k, hLeads, hSame ▸ hLeads⟩

/- Cells of one node that mean one address are united. -/
theorem Sound.unite_same
    (hg : g.WellFormed)
    (hSlot : g.slot a.node = .live n)
    (hSame : a.node = b.node)
    (ha : a.offset < wordBound)
    (hb : b.offset < wordBound)
    (hEq : n.effectiveOffset a.offset = n.effectiveOffset b.offset) :
    Sound E g g fun last =>
      LinksHold E g last ∧ last.SameNode a b ∧ (E → last.SameAddress a b) := by
  apply (Sound.refl hg).imp
  intro last _ hm hStrides hLinks
  refine ⟨hLinks, hm.sameNode_of_live hSlot hSame, fun hE => ?_⟩
  have hAddress := hm.sameAddress (hStrides hE) hSlot ha hb hEq
  rw [hSame] at hAddress
  nth_rewrite 1 [← hSame] at hAddress
  exact hAddress

/- Other cells of one node are united by its collapse. -/
theorem Sound.unite_collapsed
    (hMerge : Unites merge)
    {rep : NodeId}
    (hg : g.WellFormed)
    (hSlot : g.slot a.node = .live n)
    (hSame : a.node = b.node)
    (ha : a.offset < wordBound)
    (hb : b.offset < wordBound)
    (hRun : Graph.collapseBy merge g a.node = .ok (rep, h)) :
    Sound E g h fun last =>
      LinksHold E g last ∧ last.SameNode a b ∧ (E → last.SameAddress a b) := by
  rcases Sound.collapseBy_of_live (E := E) hMerge hg hSlot hRun with ⟨hStep, hAt, _⟩
  apply hStep.imp
  intro last hLast hm _ hLinks
  have hNode : last.SameNode a b := (hStep.merged.trans hLast hm).sameNode_of_live hSlot hSame
  refine ⟨hLinks, hNode, fun _ => ?_⟩
  have hAt' := hm.collapsedAt hAt
  refine hAt'.sameAddress hNode ha ?_
  intro q j hLeads
  rcases hAt' with ⟨q', nq, hZero, _⟩
  rw [← hSame] at hLeads
  rcases hLeads.unique hZero with ⟨rfl, rfl⟩
  exact hb

/- One level of merging unites, if the levels below do. -/
theorem unites_unifyBy
    (hMerge : Unites merge) :
    Unites (unifyBy merge) := by
  intro E g a b h hg hRun
  unfold unifyBy at hRun
  rcases of_bind hRun with ⟨⟨a', g₁⟩, hFindA, hRun⟩
  rcases of_bind hRun with ⟨⟨b', g₂⟩, hFindB, hRun⟩
  rcases of_bind hRun with ⟨na, hContentsA, hRun⟩
  rcases of_bind hRun with ⟨nb, hContentsB, hRun⟩
  rcases Sound.find (E := E) hg hFindA with ⟨hFoundA, haW, na', _, hSlotA⟩
  rcases Sound.find (E := E) hFoundA.wellFormed hFindB with ⟨hFoundB, hbW, nb', _, hSlotB⟩
  rcases find_eq_ok hFindB with ⟨_, _, _, _, hs⟩
  have hSlotA₂ := hs.live_iff.mpr hSlotA
  rcases eq_of_contents hSlotA₂ hContentsA with rfl
  rcases eq_of_contents hSlotB hContentsB with rfl
  have hg₂ := hFoundB.wellFormed
  apply Sound.unite_found hFoundA hFoundB
  dsimp only at hRun
  split at hRun
  · next hSame =>
    rw [← hSame, hSlotA₂] at hSlotB
    cases hSlotB
    split at hRun
    · next hEq =>
      cases hRun
      exact .unite_same hg₂ hSlotA₂ hSame haW hbW hEq
    · rcases of_bind hRun with ⟨⟨rep, g₃⟩, hCollapse, hRun⟩
      cases hRun
      exact .unite_collapsed hMerge hg₂ hSlotA₂ hSame haW hbW hCollapse
  · next hne =>
    split at hRun
    · next hLt =>
      have hLays := LaysOver.mergeAt (E := E) hMerge hg₂ hSlotB hSlotA₂ (Ne.symm hne) hRun
      apply (hLays.unite hbW haW (Nat.le_of_lt hLt)).imp
      rintro last _ _ _ ⟨hLinks, hNode, hAddress⟩
      exact ⟨hLinks, hNode.symm, fun hE => (hAddress hE).symm⟩
    · next hNot =>
      have hLays := LaysOver.mergeAt (E := E) hMerge hg₂ hSlotA₂ hSlotB hne hRun
      exact hLays.unite haW hbW (Nat.le_of_not_lt hNot)

/- Merging unites, however deep it goes. -/
theorem unites_unifyWithin
    (fuel : Nat) :
    Unites (unifyWithin fuel) := by
  induction fuel with
  | zero =>
    intro E g a b h _ hRun
    cases hRun
  | succ fuel ih => exact unites_unifyBy ih

end Graph

end HeapShape
