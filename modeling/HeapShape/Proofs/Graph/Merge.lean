import HeapShape.Graph.Bind
import HeapShape.Proofs.Graph.Sound

/-
  The parts of merging are sound.

  Each operation is shown to be a sound step, given that the merge it uses
  for the targets of links is. `Unites` says so of a merge: its two cells
  become one address.

  Main declarations:
    * `Graph.Unites`
    * `Graph.Sound.absorb`
    * `Graph.Sound.collapseBy`
    * `Graph.Sound.collapseThenMerge`
-/

-- Types

namespace HeapShape

open Checked

namespace Graph

variable {E : Prop} {g h : Graph} {c t : Cell} {n : Node} {this : NodeId}

/- The contents found after a look-up. -/
theorem eq_of_contents
    {id : NodeId}
    {m : Node}
    (hSlot : g.slot id = .live n)
    (hContents : g.contents id = .ok m) :
    m = n := by
  rw [contents_of_live hSlot] at hContents
  cases hContents
  rfl

theorem Sound.addTypes
    (hg : g.WellFormed)
    {types : TypeSet}
    (hRun : g.addTypes c types = .ok h) :
    Sound E g h fun last => LinksHold E g last := by
  unfold Graph.addTypes at hRun
  split at hRun
  · cases hRun
    exact .refl hg
  · rcases of_bind hRun with ⟨⟨d, g₁⟩, hFind, hRun⟩
    rcases of_bind hRun with ⟨m, hContents, hRun⟩
    rcases Sound.find (E := E) hg hFind with ⟨hStep, _, n, _, hSlot⟩
    rcases eq_of_contents hSlot hContents with rfl
    have hn := hStep.wellFormed.nodes _ _ hSlot
    rw [setContents_of_live hSlot] at hRun
    cases hRun
    apply (hStep.imp fun _ _ _ _ hAll => hAll.1).before
    apply Sound.setLive_of_same_links hStep.wellFormed hSlot
    · exact hn.withTypes _ _
    · exact Node.standsFor_withTypes hn.size_lt _ _
    · intro _ hArray
      rw [Node.isArray, m.has_withTypes _ _ (by decide)] at hArray
      exact hArray
    · exact (m.withTypes_frame _ _).2.1

theorem Sound.replayTypes
    (hg : g.WellFormed)
    {offset : Nat}
    {types : OrdMap Nat TypeSet}
    (hRun : g.replayTypes this offset types = .ok h) :
    Sound E g h fun last => LinksHold E g last := by
  unfold Graph.replayTypes at hRun
  refine foldlM_induction (P := fun h => Sound E g h fun last =>
      LinksHold E g last) ?_ (.refl hg) hRun
  rintro g₁ ⟨o, ts⟩ _ g₂ hStep hAdd
  rcases of_bind hAdd with ⟨spot, _, hAdd⟩
  exact hStep.before (Sound.addTypes hStep.wellFormed hAdd)

-- Links

/- A merge that makes its two cells one address. -/
def Unites
    (merge : Merge) : Prop :=
  ∀ E g a b h, g.WellFormed → merge g a b = .ok h →
    Sound E g h fun last =>
      LinksHold E g last ∧ last.SameNode a b ∧
        (E → last.SameAddress a b)

variable {merge : Merge} {type? : Option TypeTag}

/-
  A new link under a key without one: the node of the cell grows if it must,
  and keeps the links it has.
-/
theorem Sound.insertLink
    (hg : g.WellFormed)
    (hSlot : g.slot c.node = .live n)
    (hNone : n.links.get? (n.effectiveField (Field.make g.config c.offset type?)) = none)
    (hc : c.offset < wordBound)
    (ht : g.Has t)
    {size : Nat}
    (hSize : n.size ≤ size)
    (hLt : size < wordBound)
    (hPlain : n.isPlain = true → c.offset + g.config.pointerSize ≤ size)
    (hFolded : n.isPlain = false → size = n.size) :
    Sound E g (g.setSlot c.node (.live { n with
        size := size
        links := n.links.insert (n.effectiveField (Field.make g.config c.offset type?)) t }))
      fun last => LinksHold E g last ∧ last.Linked E c type? t := by
  have hn := hg.nodes _ _ hSlot
  have hGet := n.links.get?_insert (n.effectiveField (Field.make g.config c.offset type?))
  have hStep := Sound.setLive_of_subset (E := E) hg hSlot
    (hn.insertLink c.offset type? t hSize hLt hPlain hFolded)
    (.of_same_facts hn.size_lt rfl hSize rfl rfl)
    (fun _ hArray => hArray)
    (by
      intro f u hu
      dsimp only at hu
      rw [hGet] at hu
      split at hu
      · cases hu
        exact ht
      · exact hg.link_has _ _ f u hSlot hu)
    (by
      intro f u hu
      dsimp only
      rw [hGet, if_neg]
      · exact hu
      · rintro rfl
        rw [hNone] at hu
        cases hu)
  apply hStep.imp
  rintro last hLast hm hStrides ⟨hLinks, hNew⟩
  refine ⟨hLinks, ?_⟩
  apply Linked.of_key (hStep.merged.trans hLast hm) hStrides hSlot hc
  have hLinked := hNew _ t (by
    dsimp only
    rw [hGet, if_pos rfl])
  simpa only [Cell.start, Nat.add_zero] using hLinked

/-
  The size of a node to which a link is added. A plain node grows to hold
  the pointer.
-/
theorem exists_size_of_addLink
    (hn : n.size < wordBound)
    {o pointerSize : Nat}
    {f : Field}
    (hField : n.isPlain = true → f.offset = o)
    {finish : Nat → Checked Graph}
    (hRun : (if n.isPlain then do
        let reach ← addWord f.offset pointerSize
        let size ← pure (max n.size reach)
        finish size
      else do
        let size ← pure n.size
        finish size) = .ok h) :
    ∃ size, n.size ≤ size ∧ size < wordBound ∧
      (n.isPlain = true → o + pointerSize ≤ size) ∧
      (n.isPlain = false → size = n.size) ∧
      finish size = .ok h := by
  split at hRun
  · next hPlain =>
    rcases of_bind hRun with ⟨reach, hReach, hRun⟩
    rcases addWord_eq_ok_iff.mp hReach with ⟨rfl, hLt⟩
    rw [hField hPlain] at hLt hRun
    refine ⟨_, Nat.le_max_left _ _, Nat.max_lt.mpr ⟨hn, hLt⟩,
      fun _ => Nat.le_max_right _ _, ?_, hRun⟩
    intro hNot
    rw [hPlain] at hNot
    cases hNot
  · next hPlain =>
    exact ⟨_, Nat.le_refl _, hn, fun h => absurd h hPlain, fun _ => rfl, hRun⟩

/- Adding a link keeps all others and yields its own. -/
theorem Sound.addLinkBy
    (hMerge : Unites merge)
    (hg : g.WellFormed)
    (hRun : addLinkBy merge g c type? t = .ok h) :
    Sound E g h fun last => LinksHold E g last ∧ last.Linked E c type? t := by
  unfold Graph.addLinkBy at hRun
  rcases of_bind hRun with ⟨⟨d, g₁⟩, hFind, hRun⟩
  rcases of_bind hRun with ⟨m, hContents, hRun⟩
  rcases Sound.find (E := E) hg hFind with ⟨hFound, hd, n, _, hSlot⟩
  rcases eq_of_contents hSlot hContents with rfl
  have hg₁ := hFound.wellFormed
  -- It is enough to link the cell that was found.
  suffices hHere : Sound E g₁ h fun last =>
      LinksHold E g₁ last ∧ last.Linked E d type? t by
    apply (hFound.trans hHere).imp
    rintro last _ _ _ ⟨⟨hLinks, hPlace⟩, hLinked⟩
    exact ⟨hLinks, hLinked.of_samePlace hPlace⟩
  dsimp only at hRun
  split at hRun
  · next existing hGet =>
    have hUnited := hMerge E g₁ existing t h hg₁ hRun
    apply hUnited.imp
    rintro last hLast hm hStrides ⟨hLinks, hNode, hAddress⟩
    refine ⟨hLinks, ?_⟩
    apply Linked.of_key (hUnited.merged.trans hLast hm) hStrides hSlot hd
    have hOld := hLinks d.node m hSlot _ existing hGet
    simp only [Cell.start, Nat.add_zero] at hOld
    exact hOld.of_sameTarget hNode hAddress
  · next hNone =>
    rcases of_bind hRun with ⟨⟨u, g₂⟩, hFindT, hRun⟩
    rcases of_bind hRun with ⟨m₂, hContents₂, hRun⟩
    rcases Sound.find (E := E) hg₁ hFindT with ⟨hFoundT, hu, nu, _, hSlotU⟩
    rcases find_eq_ok hFindT with ⟨_, _, _, _, hs⟩
    have hSlot₂ := hs.live_iff.mpr hSlot
    rcases eq_of_contents hSlot₂ hContents₂ with rfl
    have hg₂ := hFoundT.wellFormed
    rw [← hs.config] at hNone hRun
    rcases exists_size_of_addLink (hg₂.nodes _ _ hSlot₂).size_lt (fun hPlain => by
          rw [Node.effectiveField_of_plain hPlain]) hRun with
      ⟨size, hSize, hLt, hRoom, hFolded, hRun⟩
    have hInsert := Sound.insertLink (E := E) hg₂ hSlot₂ hNone
      hd ⟨hasNode_of_live hSlotU, hu⟩ hSize hLt hRoom hFolded
    rw [setContents_of_live hSlot₂] at hRun
    cases hRun
    apply (hFoundT.trans hInsert).imp
    rintro last _ _ _ ⟨⟨hLinks, hPlace⟩, hLinked⟩
    refine ⟨hLinks, hLinked.of_sameTarget ?_ ?_⟩
    · exact hPlace.symm.sameNode
    · exact fun _ => hPlace.symm.sameAddress

/- Replaying the links of a node yields all of them. -/
theorem Sound.replayLinks
    (hMerge : Unites merge)
    (hg : g.WellFormed)
    (hRun : replayLinks merge g c.node c.offset n.links = .ok h) :
    Sound E g h fun last => LinksHold E g last ∧ NodeLinked E last n c := by
  have hAll : ∀ (links : List (Field × Cell)) (g : Graph), g.WellFormed →
      links.foldlM (fun g link => do
        let spot ← addWord link.1.offset c.offset
        Graph.addLinkBy merge g { c with offset := spot } link.1.type? link.2) g = .ok h →
      Sound E g h fun last =>
        LinksHold E g last ∧ ∀ f t, (f, t) ∈ links → last.Linked E
            { c with offset := f.offset + c.offset }
            f.type? t := by
    intro links
    induction links with
    | nil =>
      intro g hg hRun
      cases hRun
      apply (Sound.refl hg).imp
      intro last _ _ _ hLinks
      refine ⟨hLinks, fun f t hMem => ?_⟩
      cases hMem
    | cons link rest ih =>
      rcases link with ⟨f, t⟩
      intro g hg hRun
      rw [List.foldlM_cons] at hRun
      rcases of_bind hRun with ⟨g₁, hHead, hRest⟩
      rcases of_bind hHead with ⟨spot, hSpot, hAdd⟩
      rcases addWord_eq_ok_iff.mp hSpot with ⟨rfl, _⟩
      have hFirst := Sound.addLinkBy (E := E) hMerge hg hAdd
      have hOthers := ih g₁ hFirst.wellFormed hRest
      apply (hFirst.trans hOthers).imp
      rintro last _ _ _ ⟨⟨hLinks, hHere⟩, hThere⟩
      refine ⟨hLinks, fun f' t' hMem => ?_⟩
      rcases List.mem_cons.mp hMem with hEq | hMem
      · cases hEq
        exact hHere
      · exact hThere f' t' hMem
  apply (hAll n.links.entries g hg hRun).imp
  rintro last _ _ _ ⟨hLinks, hEach⟩
  refine ⟨hLinks, fun f t hGet => ?_⟩
  exact hEach f t ((n.links.get?_eq_some_iff f t).mp hGet)

-- Absorbing A Node

/- Changes of different slots can be made in any order. -/
theorem setSlot_comm
    {a b : NodeId}
    (hne : a ≠ b)
    (s t : Slot) :
    (g.setSlot a s).setSlot b t = (g.setSlot b t).setSlot a s := by
  unfold setSlot
  dsimp only
  rw [Array.setIfInBounds_comm _ _ hne]

/-
  A graph in which one node has taken over another. The slot of the other
  forwards to it, and types and links are still owed.
-/
def takenOver
    (g : Graph)
    (this other : NodeId)
    (n moved : Node)
    (k : Nat) : Graph :=
  (g.setSlot this (.live (takeOver n moved k))).setSlot other
    (.forward { node := this, offset := k })

variable {other : NodeId} {moved : Node} {k : Nat}

/- The slots after one node has absorbed another. -/
theorem slot_takenOver
    (hThis : g.slot this = .live n)
    (hOther : g.slot other = .live moved)
    (j : NodeId) :
    (g.takenOver this other n moved k).slot j =
      if j = other then .forward { node := this, offset := k }
      else if j = this then .live (takeOver n moved k)
      else g.slot j := by
  have hLt := lt_size_of_live hThis
  have hLt' := lt_size_of_live hOther
  unfold takenOver
  rw [slot_setSlot (by rw [slots_size_setSlot]; exact hLt'), slot_setSlot hLt]

/- Types and links are replayed after a node is taken over. -/
theorem absorb_eq
    (hThis : g.slot this = .live n)
    (hOther : g.slot other = .live moved)
    (hne : this ≠ other) :
    absorb merge g this other k = (do
      let g ← (g.takenOver this other n moved k).replayTypes this k moved.types
      replayLinks merge g this k moved.links) := by
  have hThis' : (g.setSlot other (.forward { node := this, offset := k })).slot this = .live n := by
    rw [slot_setSlot (lt_size_of_live hOther), if_neg hne, hThis]
  unfold Graph.absorb takenOver
  simp only [contents_of_live hOther, contents_of_live hThis',
    setContents_of_live hThis', setSlot_comm (Ne.symm hne)]
  rfl

/- Taking a node over is sound; its links are owed. -/
theorem Sound.takenOver
    (hg : g.WellFormed)
    (hThis : g.slot this = .live n)
    (hOther : g.slot other = .live moved)
    (hne : this ≠ other)
    (hIn : moved.LiesIn n k) :
    Sound E g (g.takenOver this other n moved k) fun last =>
      (NodeLinked E last moved { node := this, offset := k } → LinksHold E g last) ∧
      last.SamePlace (Cell.start other) { node := this, offset := k } := by
  have hn := hg.nodes _ _ hThis
  -- The absorbing node first learns what it will stand for.
  have hTaken := Sound.setLive_of_same_links (E := E) hg hThis (wellFormed_takeOver hn hIn)
    (standsFor_takeOver_this hn hIn)
    (fun _ hArray =>
      (takeOver_kind hIn hn.collapsed_not_array).2 ▸ hArray)
    rfl
  have hLt := lt_size_of_live hThis
  have hOther' : (g.setSlot this (.live (takeOver n moved k))).slot other = .live moved := by
    rw [slot_setSlot hLt, if_neg (Ne.symm hne), hOther]
  have hThis' : (g.setSlot this (.live (takeOver n moved k))).slot this =
        .live (takeOver n moved k) := by
    rw [slot_setSlot hLt, if_pos rfl]
  have hForward := Sound.setForward (E := E) hTaken.wellFormed hOther' hThis' hne
    (standsFor_takeOver_moved hn hIn)
  constructor
  · exact hForward.wellFormed
  · exact hTaken.merged.trans hForward.wellFormed hForward.merged
  · exact fun hEx => (hTaken.arrays hEx).trans (hForward.arrays hEx) hForward.merged
  · intro last hLast hm hStrides hLinks
    have hm' := hForward.merged.trans hLast hm
    have hStrides' : E → SameStrides _ last := fun hEx =>
      (hStrides hEx).of_merged (hTaken.arrays hEx) hTaken.merged hm'
    rcases hForward.result last hLast hm hStrides' hLinks with ⟨hPlace, hOwed⟩
    exact ⟨fun hPaid => hTaken.result last hLast hm' hStrides (hOwed hPaid), hPlace⟩

/-
  A node that lies in another is absorbed there. Its start comes to lie at
  the offset, and no link is lost.
-/
theorem Sound.absorb
    (hMerge : Unites merge)
    (hg : g.WellFormed)
    (hThis : g.slot this = .live n)
    (hOther : g.slot other = .live moved)
    (hne : this ≠ other)
    (hIn : moved.LiesIn n k)
    (hRun : absorb merge g this other k = .ok h) :
    Sound E g h fun last =>
      LinksHold E g last ∧ last.SamePlace (Cell.start other) { node := this, offset := k } := by
  rw [absorb_eq hThis hOther hne] at hRun
  rcases of_bind hRun with ⟨g₁, hTypes, hLinks⟩
  have hTaken := Sound.takenOver (E := E) hg hThis hOther hne hIn
  have hTyped := Sound.replayTypes (E := E) hTaken.wellFormed hTypes
  have hReplay := hTyped.then
    (Sound.replayLinks (c := { node := this, offset := k }) hMerge hTyped.wellFormed hLinks)
  apply (hTaken.trans hReplay).imp
  rintro last _ _ _ ⟨⟨hOwed, hPlace⟩, hPaid⟩
  exact ⟨hOwed hPaid, hPlace⟩

-- Collapsing A Node

/- A slot whose start is the start of a collapsed node. -/
def CollapsedAt
    (g : Graph)
    (id : NodeId) : Prop :=
  ∃ m n, g.Leads id m 0 ∧ g.slot m = .live n ∧
    n.isCollapsed = true

variable {id : NodeId}

/- A collapsed node is merged at its start only. -/
theorem Merged.collapsedAt_of_live
    (hm : Merged g h)
    (hSlot : g.slot id = .live n)
    (hCollapsed : n.isCollapsed = true) :
    h.CollapsedAt id := by
  rcases hm.live hSlot with ⟨m, k, n', hLeads, hLive, hStands⟩
  have hk : k = 0 := hStands.folded (Node.isPlain_eq_false_iff.mpr (.inl hCollapsed))
  subst hk
  exact ⟨m, n', hLeads, hLive, hStands.collapsed hCollapsed⟩

theorem Merged.collapsedAt
    (hm : Merged g h)
    (hAt : g.CollapsedAt id) :
    h.CollapsedAt id := by
  rcases hAt with ⟨m, n, hLeads, hLive, hCollapsed⟩
  rcases hm.collapsedAt_of_live hLive hCollapsed with ⟨q, n', hEnd, hLive', hCollapsed'⟩
  rcases hm.leads _ _ _ hLeads with ⟨q', k, hEnd', hAll⟩
  rcases hEnd.unique hEnd' with ⟨rfl, rfl⟩
  exact ⟨q, n', hAll, hLive', hCollapsed'⟩

/- A small node that is collapsed, without types and links. -/
abbrev collapsedNode
    (n : Node) : Node :=
  { n with
    flags := (n.flags.insert .offsetCollapsed).erase .array
    size := 1
    types := OrdMap.empty
    links := OrdMap.empty }

theorem isCollapsed_collapsedNode
    (n : Node) :
    (collapsedNode n).isCollapsed = true := by
  change Flags.has (Flags.erase _ _) _ = true
  rw [Flags.has_erase, Flags.has_insert]
  simp

/- A node is emptied and collapsed; its links are owed. -/
theorem Sound.resetCollapsed
    (hg : g.WellFormed)
    (hSlot : g.slot id = .live n) :
    Sound E g (g.setSlot id (.live (collapsedNode n)))
      fun last => NodeLinked E last n (Cell.start id) → LinksHold E g last := by
  have hCollapsed := isCollapsed_collapsedNode n
  have hNot : (collapsedNode n).isArray = false := by
    change Flags.has (Flags.erase _ _) _ = false
    rw [Flags.has_erase]
    simp
  have hn := hg.nodes _ _ hSlot
  have hBare : (collapsedNode n).WellFormed g.config :=
    Node.wellFormed_of_bare (by change 1 < wordBound; decide) (fun _ => hNot) (fun _ => rfl)
      (fun h => by rw [hNot] at h; cases h) rfl rfl
  have hReset := Sound.setLive (E := E) hg hSlot hBare
    { toLiesIn := .of_collapsed hCollapsed hNot hn.size_lt
      flags := by
        intro f _ hArray hf
        change Flags.has (Flags.erase _ _) _ = true
        rw [Flags.has_erase, Flags.has_insert, hf]
        simp [Ne.symm hArray]
      sites := fun _ hs => hs
      scalar := .refl _ }
    (fun _ h => by rw [hNot] at h; cases h)
    (fun f t hGet => by cases hGet)
  exact hReset.imp fun _ _ _ _ hAll => hAll.1

/- A small node is collapsed in place. -/
theorem Sound.collapse_in_place
    (hMerge : Unites merge)
    (hg : g.WellFormed)
    (hSlot : g.slot id = .live n)
    {g₁ : Graph}
    (hTypes : (g.setSlot id (.live (collapsedNode n))).replayTypes id 0 n.types = .ok g₁)
    (hLinks : Graph.replayLinks merge g₁ id 0 n.links = .ok h) :
    Sound E g h (fun last => LinksHold E g last) ∧ h.CollapsedAt id := by
  have hReset := Sound.resetCollapsed (E := E) hg hSlot
  have hTyped := Sound.replayTypes (E := E) hReset.wellFormed hTypes
  have hReplay := hTyped.then
    (Sound.replayLinks (c := Cell.start id) hMerge hTyped.wellFormed hLinks)
  constructor
  · apply (hReset.trans hReplay).imp
    rintro last _ _ _ ⟨hOwed, hPaid⟩
    exact hOwed hPaid
  · apply hReplay.merged.collapsedAt_of_live _ (isCollapsed_collapsedNode n)
    have hLt := lt_size_of_live hSlot
    rw [slot_setSlot hLt, if_pos rfl]

/- A larger node is absorbed by a fresh collapsed one. -/
theorem Sound.collapse_into_fresh
    (hMerge : Unites merge)
    (hg : g.WellFormed)
    (hSlot : g.slot id = .live n)
    (hRun : Graph.absorb merge
      (g.createNode (Flags.only .offsetCollapsed) 1).2
      (g.createNode (Flags.only .offsetCollapsed) 1).1
      id 0 = .ok h) :
    Sound E g h (fun last => LinksHold E g last) ∧ h.CollapsedAt id := by
  rcases hg.slot_createNode (Flags.only .offsetCollapsed) 1 with ⟨hFresh, hNew⟩
  have hMade := Sound.createNode (E := E) hg (Flags.only .offsetCollapsed) 1
    (Node.wellFormed_of_bare (by decide) (fun _ => by decide)
      (fun _ => rfl) (fun _ => by decide) rfl rfl)
    (fun _ => by decide)
  have hne : (g.createNode (Flags.only .offsetCollapsed) 1).1 ≠ id := by
    rintro hEq
    rw [hEq, hSlot] at hFresh
    cases hFresh
  have hThis := hNew (g.createNode (Flags.only .offsetCollapsed) 1).1
  rw [if_pos rfl] at hThis
  have hOther := hNew id
  rw [if_neg (Ne.symm hne), hSlot] at hOther
  have hAbsorbed := fun E =>
    Sound.absorb (E := E) hMerge hMade.wellFormed hThis hOther hne
      (.of_collapsed (by decide) (by decide) (hg.nodes _ _ hSlot).size_lt) hRun
  constructor
  · apply (hMade.then (hAbsorbed E)).imp
    exact fun _ _ _ _ hAll => hAll.1
  · rcases (hAbsorbed False).merged.collapsedAt_of_live hThis (by decide) with
      ⟨m, n', hLeads, hLive, hCollapsed⟩
    rcases (hAbsorbed False).here False.elim |>.2 with ⟨m', j, k, hj, hk, hEq⟩
    rcases hLeads.unique hk with ⟨rfl, rfl⟩
    simp only [Cell.start, Nat.zero_add] at hEq
    subst hEq
    exact ⟨m, n', hj, hLive, hCollapsed⟩

variable {rep : NodeId}

/- The end of a collapsed slot is found at its start. -/
theorem CollapsedAt.findNode
    (hAt : g.CollapsedAt id)
    (hFind : g.findNode id = .ok (rep, h)) :
    h.CollapsedAt id ∧ h.Leads id rep 0 := by
  rcases hAt with ⟨m, n, hLeads, hLive, hCollapsed⟩
  rcases findNode_eq_ok hFind with ⟨k, hRep, hs⟩
  rcases hLeads.unique hRep with ⟨rfl, rfl⟩
  have hEnd := hs.leads hLeads
  exact ⟨⟨m, n, hEnd, hs.live_iff.mpr hLive, hCollapsed⟩, hEnd⟩

/-
  Collapsing loses no link, and leaves the node that stood for the slot at
  the start of a collapsed one.
-/
theorem Sound.collapseBy
    (hMerge : Unites merge)
    (hg : g.WellFormed)
    (hRun : Graph.collapseBy merge g id = .ok (rep, h)) :
    Sound E g h (fun last => LinksHold E g last) ∧
      ∃ r k, g.Leads id r k ∧ h.CollapsedAt r ∧ h.Leads r rep 0 := by
  unfold Graph.collapseBy at hRun
  rcases of_bind hRun with ⟨⟨r, g₁⟩, hFind, hRun⟩
  rcases of_bind hRun with ⟨m, hContents, hRun⟩
  rcases findNode_eq_ok hFind with ⟨k, hLeads, hs⟩
  rcases hLeads.live_end with ⟨n, hLive⟩
  have hSlot := hs.live_iff.mpr hLive
  rcases eq_of_contents hSlot hContents with rfl
  have hFound := Sound.shortened (E := E) hg hs
  have hg₁ := hFound.wellFormed
  -- The slot is looked up once more after its collapse.
  have hAgain : ∀ g₂, Sound E g₁ g₂ (fun last =>
        LinksHold E g₁ last) ∧ g₂.CollapsedAt r →
      g₂.findNode r = .ok (rep, h) →
      Sound E g h (fun last => LinksHold E g last) ∧ h.CollapsedAt r ∧ h.Leads r rep 0 := by
    rintro g₂ ⟨hStep, hAt⟩ hFind₂
    rcases findNode_eq_ok hFind₂ with ⟨_, _, hs₂⟩
    refine ⟨?_, hAt.findNode hFind₂⟩
    apply (hFound.before hStep).before
    exact Sound.shortened hStep.wellFormed hs₂
  dsimp only at hRun
  split at hRun
  · next hCollapsed =>
    cases hRun
    have hHere := Leads.live hSlot
    exact ⟨hFound, rep, k, hLeads, ⟨rep, m, hHere, hSlot, hCollapsed⟩, hHere⟩
  · split at hRun
    · rw [setContents_of_live hSlot, ok_bind] at hRun
      rcases of_bind hRun with ⟨g₂, hTypes, hRun⟩
      rcases of_bind hRun with ⟨g₃, hLinks, hRun⟩
      rcases hAgain g₃ (Sound.collapse_in_place hMerge hg₁ hSlot hTypes hLinks) hRun with
        ⟨hStep, hEnd⟩
      exact ⟨hStep, r, k, hLeads, hEnd⟩
    · rcases of_bind hRun with ⟨g₂, hAbsorb, hRun⟩
      rcases hAgain g₂ (Sound.collapse_into_fresh hMerge hg₁ hSlot hAbsorb) hRun with ⟨hStep, hEnd⟩
      exact ⟨hStep, r, k, hLeads, hEnd⟩

/- The same for a slot that is live. -/
theorem Sound.collapseBy_of_live
    (hMerge : Unites merge)
    (hg : g.WellFormed)
    (hSlot : g.slot id = .live n)
    (hRun : Graph.collapseBy merge g id = .ok (rep, h)) :
    Sound E g h (fun last => LinksHold E g last) ∧ h.CollapsedAt id ∧
      h.Leads id rep 0 := by
  rcases Sound.collapseBy (E := E) hMerge hg hRun with ⟨hStep, r, k, hLeads, hEnd⟩
  rcases hLeads.eq_of_live hSlot with ⟨rfl, rfl⟩
  exact ⟨hStep, hEnd⟩

/- After a collapse, two nodes are merged at their starts. -/
theorem Sound.collapseThenMerge
    (hMerge : Unites merge)
    (hg : g.WellFormed)
    (hSlot : g.slot id = .live n)
    (hRun : Graph.collapseThenMerge merge g id other = .ok h) :
    Sound E g h fun last =>
      LinksHold E g last ∧ last.CollapsedAt id ∧
        last.SameNode (Cell.start id) (Cell.start other) := by
  unfold Graph.collapseThenMerge at hRun
  rcases of_bind hRun with ⟨⟨rep, g₁⟩, hCollapse, hRun⟩
  rcases Sound.collapseBy_of_live (E := E) hMerge hg hSlot hCollapse with ⟨hStep, hAt, hRep⟩
  have hUnited := hMerge E g₁ _ _ h hStep.wellFormed hRun
  apply (hStep.then hUnited).imp
  rintro last hLast hm _ ⟨hLinks, hNode, _⟩
  have hm₁ := hUnited.merged.trans hLast hm
  have hPlace : last.SamePlace (Cell.start id) (Cell.start rep) := hm₁.samePlace hRep rfl
  exact ⟨hLinks, hm₁.collapsedAt hAt, hPlace.sameNode.trans hNode⟩

-- Cases Of An Update

/- A node is made an array in place, if it changes at all. -/
theorem of_setArray
    {stride : Nat}
    (hRun : g.setArray id stride = .ok h) :
    ∃ g₁ r k m, Shortened g g₁ ∧ g.Leads id r k ∧ g₁.slot r = .live m ∧
      (h = g₁ ∨ (∃ rep, Graph.collapseBy (unifyWithin g.mergeBound) g₁ r = .ok (rep, h)) ∨
        m.isCollapsed = false ∧ stride ≠ 0 ∧ ∃ g₂,
          (g₁.setSlot r (.live { m with
            flags := m.flags.insert .array
            size := if m.isArray then max m.size stride else stride
            types := OrdMap.empty
            links := OrdMap.empty })).replayTypes r 0 m.types = .ok g₂ ∧
          replayLinks (unifyWithin g.mergeBound) g₂ r 0 m.links = .ok h) := by
  unfold Graph.setArray at hRun
  rcases of_bind hRun with ⟨⟨r, g₁⟩, hFind, hRun⟩
  rcases of_bind hRun with ⟨m, hContents, hRun⟩
  rcases findNode_eq_ok hFind with ⟨k, hLeads, hs⟩
  rcases hLeads.live_end with ⟨n, hLive⟩
  have hSlot := hs.live_iff.mpr hLive
  rcases eq_of_contents hSlot hContents with rfl
  refine ⟨g₁, r, k, m, hs, hLeads, hSlot, ?_⟩
  dsimp only at hRun
  split at hRun
  · cases hRun
    exact .inl rfl
  · next hStays =>
    simp only [Bool.or_eq_true, beq_iff_eq, not_or, Bool.not_eq_true] at hStays
    split at hRun
    · cases hRun
      exact .inl rfl
    · split at hRun
      · rcases of_bind hRun with ⟨⟨rep, g₂⟩, hCollapse, hDone⟩
        cases hDone
        exact .inr (.inl ⟨rep, hCollapse⟩)
      · rw [setContents_of_live hSlot, ok_bind] at hRun
        exact .inr (.inr ⟨hStays.1, hStays.2, of_bind hRun⟩)

/- The value of a root may be noted once its cell is found. -/
theorem of_bindRoot
    {r : Root}
    {init? : Option Cell}
    (hRun : g.bindRoot r init? = .ok (c, h)) :
    ∃ g₁, g.rootTarget r init? = .ok (c, g₁) ∧
      (h = g₁ ∨ ∃ v, g₁.noteUniqueScalar v c = .ok h) := by
  unfold Graph.bindRoot at hRun
  rcases of_bind hRun with ⟨⟨d, g₁⟩, hTarget, hRun⟩
  cases r with
  | scalar v | formal v =>
    rcases of_bind hRun with ⟨g₂, hNote, hDone⟩
    cases hDone
    exact ⟨g₁, hTarget, .inr ⟨v, hNote⟩⟩
  | result f | global v =>
    cases hRun
    exact ⟨h, hTarget, .inl rfl⟩

end Graph

end HeapShape
