import HeapShape.Proofs.Graph.Copied
import HeapShape.Proofs.Graph.Kept

/-
  Copying ends well.

  A source node is put on the stack when it is copied, so the nodes without
  a copy bound the work that is left. Sites of a kind that is stripped reach
  the destination by force only, and then they are noted at one copy.

  Main declarations:
    * `Copier.Working`
    * `Copier.uncopied`
    * `Copier.Working.yields_copyLinksWithin`
    * `Copier.Working.yields_copyCell`
-/

-- Copiers At Work

namespace HeapShape

open Checked

namespace Copier

open Graph

/- The copies of a copier are nodes of the destination. -/
structure Working
    (k : Copier) : Prop where
  source : k.source.WellFormed
  dest : k.dest.WellFormed
  copies : ∀ src c, k.copies.get? src = some c →
    (∃ n, k.source.slot src = .live n) ∧
      k.dest.hasNode c = true

/- A step of a copier that is at work. -/
structure Advances
    (P : AllocSite → Prop)
    (X : NodeId → Prop)
    (k k' : Copier) : Prop where
  extension : Extends k k'
  working : k'.Working
  evolves : Evolves P X k.dest k'.dest

/- Sites of a kind are stack sites, which are stripped. -/
def Strips
    (k : Copier)
    (P : AllocSite → Prop) : Prop :=
  ∀ s, P s → k.options.stripAllocas = true ∧
    s.isStack = true

/- The number of source nodes that have no copy. -/
def uncopied
    (k : Copier) : Nat :=
  weightLeft (fun _ => 1) k.copies.contains k.source.liveNodes

variable {P : AllocSite → Prop} {X : NodeId → Prop} {k k' k'' : Copier} {src copy node : NodeId}
variable {force : Bool} {n : Node}

theorem Advances.refl
    (hk : k.Working) :
    Advances P X k k where
  extension := .refl k
  working := hk
  evolves := .refl hk.dest

theorem Advances.trans
    (h : Advances P X k k')
    (h' : Advances P X k' k'') :
    Advances P X k k'' where
  extension := h.extension.trans h'.extension
  working := h'.working
  evolves := h.evolves.trans h'.evolves

theorem Advances.widen
    {X' : NodeId → Prop}
    (h : Advances P X k k')
    (hX : ∀ x, X x → X' x) :
    Advances P X' k k' where
  extension := h.extension
  working := h.working
  evolves := h.evolves.widen hX

theorem Strips.of_extends
    (hStrips : k.Strips P)
    (h : Extends k k') :
    k'.Strips P := by
  intro s hs
  rw [h.options]
  exact hStrips s hs

/- Operations on the destination are steps. -/
theorem Working.setDest
    (hk : k.Working)
    {dest : Graph}
    (hStep : Evolves P X k.dest dest) :
    Advances P X k { k with dest := dest } where
  extension := ⟨rfl, rfl, fun _ _ hc => hc, fun _ hx => hx⟩
  working :=
    { source := hk.source
      dest := hStep.wellFormed
      copies := by
        intro src c hCopy
        rcases hk.copies src c hCopy with ⟨hLive, hNode⟩
        exact ⟨hLive, hStep.merged.hasNode hk.dest hNode⟩ }
  evolves := hStep

/- The nodes without a copy fit into the slots. -/
theorem uncopied_le
    (k : Copier) :
    k.uncopied ≤ k.source.slots.size := by
  have hCount : ∀ nodes : List (NodeId × Node), weightLeft (fun _ => 1) k.copies.contains nodes ≤
        nodes.length := by
    intro nodes
    induction nodes with
    | nil => exact Nat.le_refl 0
    | cons p rest ih =>
      unfold weightLeft
      rw [List.length_cons]
      split <;> omega
  refine Nat.le_trans (hCount _) ?_
  have hLive := List.length_filterMap_le (fun i => (k.source.slot i).node?.map fun n => (i, n))
    (List.range k.source.slots.size)
  rwa [List.length_range] at hLive

/- A node that is copied is no longer without a copy. -/
theorem uncopied_insert
    (hLive : k.source.slot src = .live n)
    (hNone : k.copies.get? src = none)
    (hSource : k'.source = k.source)
    (hCopies : k'.copies = k.copies.insert src copy) :
    k'.uncopied + 1 = k.uncopied := by
  unfold uncopied
  rw [hSource, hCopies]
  refine weightLeft_mark (w := fun _ => 1) (pairwise_liveNodes k.source) (mem_liveNodes.mpr hLive)
    ?_ ?_
  · unfold OrdMap.contains
    rw [hNone]
    rfl
  · intro x
    unfold OrdMap.contains
    rw [OrdMap.get?_insert]
    split <;> rfl

-- One Node

open Graph

/- Sites are noted at one node of the destination. -/
theorem Working.yields_addSites
    (hk : k.Working)
    (hNode : k.dest.hasNode node = true)
    {sites : List (AllocSite × CallPath)}
    (hSites : ∀ p ∈ sites, P p.1 → X node) :
    Yields (k.addSites node sites) fun k' =>
      ∃ dest, k' = { k with dest := dest } ∧ Evolves P X k.dest dest := by
  have hRuns : Yields (k.addSites node sites) fun _ => True := by
    unfold addSites
    exact (hk.dest.yields_modifyNode (F := True) hNode).yields.bind fun _ _ => .ok trivial
  refine hRuns.imp_eq ?_
  intro k' hRun _
  rcases addSites_eq_ok hRun with ⟨dest, f, rfl, hModify, hEnriches, hMem⟩
  refine ⟨dest, rfl, (Evolves.modifyNode P X hk.dest hNode
    (fun _ => Sound.modifyNode hk.dest fun n _ => hEnriches _ n)
    (fun n => (hEnriches k.dest.config n).links)
    ?_).of_eq_ok hModify⟩
  intro n s hs hP
  rcases (hMem n s).mp hs with hOld | ⟨p, hp, rfl⟩
  · exact Or.inl hOld
  · exact Or.inr (hSites p hp hP)

/- A copy is given no sites of a kind that is stripped. -/
theorem Strips.force_of_mem_sitesOf
    (hStrips : k.Strips P)
    {p : AllocSite × CallPath}
    (hMem : p ∈ k.sitesOf n force)
    (hP : P p.1) :
    force = true := by
  unfold sitesOf at hMem
  rcases List.mem_map.mp hMem with ⟨s, hs, rfl⟩
  rcases hStrips s hP with ⟨hStrip, hStack⟩
  have hTaken := (List.mem_filter.mp hs).2
  rw [hStrip, hStack] at hTaken
  simpa using hTaken

/- A fresh node with the facts of a source node. -/
theorem Working.yields_freshCopy
    (P : AllocSite → Prop)
    (X : NodeId → Prop)
    (hk : k.Working)
    (hLive : k.source.slot src = .live n)
    {flags : Flags}
    (hFlags : ∀ f, f ≠ .foreign → flags.has f = n.flags.has f) :
    Yields ((k.dest.createNode flags n.size).2.modifyContents (k.dest.createNode flags n.size).1
        fun m => { m with types := n.types })
      fun dest => Evolves P X k.dest dest ∧ dest.hasNode (k.dest.createNode flags n.size).1 =
          true := by
  have hSlot := (hk.dest.slot_createNode flags n.size).2 (k.dest.createNode flags n.size).1
  rw [if_pos rfl] at hSlot
  have hRun := modifyContents_of_live hSlot fun m => { m with types := n.types }
  have hMade := (carries_freshCopy (E := False) hk.dest (hk.source.nodes _ _ hLive) hFlags hRun).1
  have hFresh := Derived.createNode (T := fun _ => False) hk.dest.freeListed flags n.size
  rw [hRun]
  refine .ok ⟨.of_derived hMade.later (hFresh.before
    (.setLive_of_same_links hFresh.freeListed hSlot _ rfl rfl)), ?_⟩
  exact hasNode_of_live (slot_setSlot_self hSlot _)

/-
  The copy of a source node. Sites of the kind are noted at it by force
  only.
-/
theorem Working.yields_copyContents
    (hk : k.Working)
    (hStrips : k.Strips P)
    (hLive : k.source.slot src = .live n)
    (hNone : k.copies.get? src = none) :
    Yields (k.copyContents src force) fun made =>
      Advances P (fun x => force = true ∧ x = made.1) k made.2 ∧
      made.2.copies = k.copies.insert src made.1 := by
  unfold copyContents
  rw [contents_of_live hLive]
  refine Yields.bind (P := fun m => m = n) (.ok rfl) ?_
  rintro m rfl
  dsimp only
  have hFlags : ∀ f, f ≠ Flag.foreign → _ :=
    fun f hf => has_copied_flags k.options m.flags hf
  generalize (if k.options.markForeign = true then
    m.flags.insert .foreign else m.flags.erase .foreign) = flags at hFlags ⊢
  have hFresh := hk.yields_freshCopy P (fun x => force = true ∧
      x = (k.dest.createNode flags m.size).1) hLive hFlags
  generalize k.dest.createNode flags m.size = fresh at hFresh ⊢
  refine hFresh.bind ?_
  rintro dest ⟨hMade, hNode⟩
  have hStep := (hk.setDest hMade).working
  refine (hStep.yields_addSites (P := P) (X := fun x => force = true ∧ x = fresh.1) hNode
    (fun p hp hP => ⟨hStrips.force_of_mem_sitesOf hp hP,
      rfl⟩)).bind ?_
  rintro _ ⟨dest', rfl, hNoted⟩
  have hLast := (hStep.setDest hNoted).working
  have hGet : ∀ x, (k.copies.insert src fresh.1).get? x =
      if x = src then some fresh.1 else k.copies.get? x :=
    fun x => OrdMap.get?_insert _ _ _ _
  refine .ok ⟨⟨⟨rfl, rfl, ?_, fun _ hx => hx⟩, ⟨hk.source, hNoted.wellFormed, ?_⟩,
    hMade.trans hNoted⟩, rfl⟩
  · intro x c hCopy
    rw [hGet, if_neg, hCopy]
    rintro rfl
    rw [hNone] at hCopy
    cases hCopy
  · intro x c hCopy
    dsimp only at hCopy
    rw [hGet] at hCopy
    split at hCopy
    · next hEq =>
      cases hCopy
      subst hEq
      exact ⟨⟨m, hLive⟩, hNoted.merged.hasNode hStep.dest hNode⟩
    · exact hLast.copies x c hCopy

-- Links

open Graph

variable {stack stack' stack'' : List NodeId}

/- The nodes of a stack were copied when they were put on. -/
def Owes
    (k : Copier)
    (stack : List NodeId) : Prop :=
  ∀ x ∈ stack, ∃ c, k.copies.get? x = some c

/- A visit of links. The stack grows by what is copied. -/
structure Visits
    (P : AllocSite → Prop)
    (k : Copier)
    (stack : List NodeId)
    (k' : Copier)
    (stack' : List NodeId) : Prop where
  advances : Advances P (fun _ => False) k k'
  owes : k'.Owes stack'
  left : stack'.length + k'.uncopied ≤
    stack.length + k.uncopied

theorem Owes.of_extends
    (hOwes : k.Owes stack)
    (h : Extends k k') :
    k'.Owes stack := by
  intro x hx
  rcases hOwes x hx with ⟨c, hc⟩
  exact ⟨c, h.copies x c hc⟩

theorem Visits.refl
    (hk : k.Working)
    (hOwes : k.Owes stack) :
    Visits P k stack k stack where
  advances := .refl hk
  owes := hOwes
  left := Nat.le_refl _

theorem Visits.trans
    (h : Visits P k stack k' stack')
    (h' : Visits P k' stack' k'' stack'') :
    Visits P k stack k'' stack'' where
  advances := h.advances.trans h'.advances
  owes := h'.owes
  left := Nat.le_trans h'.left h.left

/- A node that has no copy yet is copied and put on. -/
theorem Working.yields_pushCopy
    (hk : k.Working)
    (hStrips : k.Strips P)
    (hOwes : k.Owes stack)
    (hLive : k.source.slot src = .live n)
    (hNone : k.copies.get? src = none) :
    Yields (k.copyContents src false) fun made =>
      Visits P k stack made.2 (src :: stack) ∧ made.2.copies.get? src = some made.1 := by
  refine (hk.yields_copyContents hStrips hLive hNone).imp ?_
  rintro ⟨c, k₁⟩ ⟨hMade, hCopies⟩
  dsimp only at hMade hCopies ⊢
  have hHere : k₁.copies.get? src = some c := by
    rw [hCopies, OrdMap.get?_insert, if_pos rfl]
  have hLess := uncopied_insert hLive hNone hMade.extension.source hCopies
  refine ⟨⟨hMade.widen ?_, ?_, ?_⟩, hHere⟩
  · rintro x ⟨hForce, _⟩
    cases hForce
  · intro x hx
    rcases List.mem_cons.mp hx with rfl | hx
    · exact ⟨c, hHere⟩
    · exact hOwes.of_extends hMade.extension x hx
  · rw [List.length_cons]
    omega

/- A link between copies is a step of the destination. -/
theorem Visits.yields_addLink
    (h : Visits P k stack k' stack')
    {c t : Cell}
    (hc : k'.dest.Has c)
    (ht : k'.dest.Has t)
    (type? : Option TypeTag) :
    Yields (k'.dest.addLink c type? t) fun dest =>
      Visits P k stack { k' with dest := dest } stack' := by
  refine (Evolves.of_spends (Spends.addLink
    (h.advances.working.dest.admits (P := P) (X := fun _ => False)
      (s := _)) hc.owns ht.owns (Nat.le_refl _))).imp ?_
  intro dest hStep
  exact h.trans ⟨h.advances.working.setDest hStep, h.owes, Nat.le_refl _⟩

theorem Working.yields_copyLink
    (hk : k.Working)
    (hStrips : k.Strips P)
    (hOwes : k.Owes stack)
    (hNode : k.dest.hasNode copy = true)
    {link : Field × Cell}
    (hWord : link.1.offset < wordBound)
    (hLink : k.source.Has link.2) :
    Yields (copyLink copy (k, stack) link) fun r => Visits P k stack r.1 r.2 := by
  unfold copyLink
  dsimp only
  refine (hk.source.yields_resolve hLink).bind ?_
  rintro t ⟨ht, n, hLive⟩
  -- The link is added in the same way in both cases.
  have hAdd : ∀ c k₁ stack₁, Visits P k stack k₁ stack₁ → k₁.copies.get? t.node = some c →
      Yields (do
        let dest ← k₁.dest.addLink { node := copy, offset := link.1.offset }
          link.1.type? { node := c, offset := t.offset }
        return ({ k₁ with dest := dest }, stack₁)) fun r =>
          Visits P k stack r.1 r.2 := by
    intro c k₁ stack₁ hMade hCopy
    have hFrom := hMade.advances.evolves.merged.hasNode hk.dest hNode
    have hTo := (hMade.advances.working.copies _ _ hCopy).2
    refine (hMade.yields_addLink (c := { node := copy, offset := link.1.offset })
      (t := { node := c, offset := t.offset })
      ⟨hFrom, hWord⟩ ⟨hTo, ht.word⟩ link.1.type?).bind ?_
    intro dest hDone
    exact .ok hDone
  split
  · next c hCopy =>
    rw [pure_bind]
    exact hAdd c k stack (.refl hk hOwes) hCopy
  · next hNone =>
    refine (hk.yields_pushCopy hStrips hOwes hLive hNone).bind ?_
    rintro ⟨c, k₁⟩ ⟨hMade, hCopy⟩
    rw [pure_bind]
    exact hAdd c k₁ _ hMade hCopy

/- The links of a node are copied one by one. -/
theorem Working.yields_copyLinks
    (hk : k.Working)
    (hStrips : k.Strips P)
    (hOwes : k.Owes stack)
    (hNode : k.dest.hasNode copy = true)
    {links : List (Field × Cell)}
    (hWords : ∀ link ∈ links, link.1.offset < wordBound)
    (hLinks : ∀ link ∈ links, k.source.Has link.2) :
    Yields (links.foldlM (copyLink copy) (k, stack)) fun r => Visits P k stack r.1 r.2 := by
  refine yields_foldlM (P := fun r : Copier × List NodeId =>
      Visits P k stack r.1 r.2) (.refl hk hOwes) ?_
  rintro ⟨k₁, stack₁⟩ link hMem hDone
  have hBefore := hDone.advances
  refine (hBefore.working.yields_copyLink (hStrips.of_extends hBefore.extension) hDone.owes
    (hBefore.evolves.merged.hasNode hk.dest hNode)
    (hWords link hMem) ?_).imp ?_
  · rw [hBefore.extension.source]
    exact hLinks link hMem
  · exact fun r hStep => hDone.trans hStep

/-
  The fuel covers the stack and the nodes without a copy: a node that is
  copied moves from the latter to the former.
-/
theorem Working.yields_copyLinksWithin
    {fuel : Nat}
    (hk : k.Working)
    (hStrips : k.Strips P)
    (hOwes : k.Owes stack)
    (hFuel : stack.length + k.uncopied ≤ fuel) :
    Yields (copyLinksWithin fuel k stack) (Advances P (fun _ => False) k) := by
  induction fuel generalizing k stack with
  | zero =>
    cases stack with
    | nil => exact .ok (.refl hk)
    | cons src rest =>
      rw [List.length_cons] at hFuel
      omega
  | succ fuel ih =>
    cases stack with
    | nil => exact .ok (.refl hk)
    | cons src rest =>
      rw [List.length_cons] at hFuel
      rcases hOwes src List.mem_cons_self with ⟨c, hCopy⟩
      rcases hk.copies src c hCopy with ⟨⟨n, hLive⟩, hNode⟩
      unfold copyLinksWithin
      rw [contents_of_live hLive, hCopy]
      have hGet : ∀ link ∈ n.links.entries, n.links.get? link.1 = some link.2 :=
        fun link hMem =>
          (OrdMap.get?_eq_some_iff _ _ _).mpr hMem
      refine (hk.yields_copyLinks hStrips (fun x hx => hOwes x (List.mem_cons_of_mem _ hx)) hNode
        (fun link hMem => (hk.source.nodes _ _ hLive).link_offset_lt (hGet link hMem))
        (fun link hMem => hk.source.link_has _ n _ _ hLive (hGet link hMem))).bind ?_
      rintro ⟨k₁, stack₁⟩ hDone
      have hLeft := hDone.left
      exact (ih hDone.advances.working (hStrips.of_extends hDone.advances.extension)
        hDone.owes (by dsimp only at hLeft ⊢; omega)).imp
        fun _ hRest => hDone.advances.trans hRest

-- Cells

open Graph

variable {c : Cell}

/- A node is noted as copied by force. -/
theorem Working.noteForced
    (hk : k.Working)
    (src : NodeId) :
    Advances P X k { k with forced := k.forced.insert src } where
  extension := ⟨rfl, rfl, fun _ _ hc => hc, fun _ hx =>
    (OrdSet.mem_insert_iff _ _ _).mpr (Or.inr hx)⟩
  working := ⟨hk.source, hk.dest, hk.copies⟩
  evolves := .refl hk.dest

/- A node that has no copy is copied with what it reaches. -/
theorem Working.yields_copyAll
    (hk : k.Working)
    (hStrips : k.Strips P)
    (hLive : k.source.slot src = .live n)
    (hNone : k.copies.get? src = none) :
    Yields (do
      let made ← k.copyContents src force
      let k ← copyLinksWithin (made.2.source.slots.size + 1) made.2 [src]
      return (made.1, k)) fun r =>
        Advances P (fun x => force = true ∧ x = r.1) k r.2 ∧
          r.2.dest.hasNode r.1 = true := by
  refine (hk.yields_copyContents hStrips hLive hNone).bind ?_
  rintro ⟨copy, k₁⟩ ⟨hMade, hCopies⟩
  dsimp only at hMade hCopies ⊢
  have hHere : k₁.copies.get? src = some copy := by
    rw [hCopies, OrdMap.get?_insert, if_pos rfl]
  have hOwes : k₁.Owes [src] := by
    intro x hx
    rcases List.mem_singleton.mp hx with rfl
    exact ⟨copy, hHere⟩
  have hFuel := k₁.uncopied_le
  refine (hMade.working.yields_copyLinksWithin
    (hStrips.of_extends hMade.extension) hOwes ?_).bind ?_
  · rw [List.length_singleton]
    omega
  · intro k₂ hLinks
    have hLast := hLinks.extension.copies src copy hHere
    refine .ok ⟨hMade.trans (hLinks.widen ?_), (hLinks.working.copies src copy hLast).2⟩
    exact fun x hx => hx.elim

theorem Working.yields_copyOf
    (hk : k.Working)
    (hStrips : k.Strips P)
    (hNode : k.source.hasNode node = true) :
    Yields (k.copyOf node force) fun r =>
      Advances P (fun x => force = true ∧ x = r.1) k r.2 ∧
        r.2.dest.hasNode r.1 = true := by
  unfold copyOf
  refine (hk.source.yields_resolve (has_start hNode)).bind ?_
  rintro t ⟨_, n, hLive⟩
  dsimp only
  split
  · next existing hCopy =>
    have hHere := (hk.copies _ _ hCopy).2
    split
    · next hForce =>
      have hNoted := hk.noteForced (P := P) (X := fun x => force = true ∧ x = existing) t.node
      rw [contents_of_live hLive]
      refine (hNoted.working.yields_addSites (P := P)
        (X := fun x => force = true ∧ x = existing) hHere
        ?_).bind ?_
      · intro p _ _
        rw [Bool.and_eq_true, Bool.and_eq_true] at hForce
        exact ⟨hForce.1.1, rfl⟩
      · rintro _ ⟨dest, rfl, hSites⟩
        exact .ok ⟨hNoted.trans (hNoted.working.setDest hSites),
          hSites.merged.hasNode hk.dest hHere⟩
    · exact .ok ⟨.refl hk, hHere⟩
  · next hNone =>
    cases force with
    | false => exact hk.yields_copyAll hStrips hLive hNone
    | true =>
      have hNoted := hk.noteForced (P := P) (X := fun _ => False) t.node
      refine (hNoted.working.yields_copyAll (hStrips.of_extends hNoted.extension) hLive
        hNone).imp ?_
      rintro r ⟨hMade, hHere⟩
      exact ⟨(hNoted.widen fun x hx => hx.elim).trans hMade, hHere⟩

/-
  The image of a cell. Sites of the kind are brought to its node only, and
  by force.
-/
theorem Working.yields_copyCell
    (hk : k.Working)
    (hStrips : k.Strips P)
    (hc : k.source.Has c) :
    Yields (k.copyCell c force) fun r =>
      Advances P (fun x => force = true ∧ r.2.dest.SameNode (Cell.start x) r.1) k r.2 ∧
      r.2.dest.Has r.1 := by
  unfold copyCell
  refine (hk.source.yields_resolve hc).bind ?_
  rintro d ⟨hd, _⟩
  refine (hk.yields_copyOf hStrips hd.occupied).bind ?_
  rintro ⟨copy, k₁⟩ ⟨hMade, hHere⟩
  dsimp only at hMade hHere ⊢
  refine ((Evolves.find P (fun _ => False) hMade.working.dest
    (c := { node := copy, offset := d.offset })
    ⟨hHere, hd.word⟩).and_eq).bind ?_
  rintro ⟨image, dest⟩ ⟨⟨hFound, hImage⟩, hRun⟩
  rcases find_eq_ok hRun with ⟨j, hLeads, _, _, hShort⟩
  rcases (hShort.leads hLeads).live_end with ⟨n, hLive⟩
  have hSame : dest.SameNode (Cell.start copy) image :=
    ⟨image.node, j, 0, hShort.leads hLeads, .live hLive⟩
  refine .ok ⟨(hMade.widen ?_).trans ((hMade.working.setDest hFound).widen
      fun x hx => hx.elim), hImage⟩
  rintro x ⟨hForce, rfl⟩
  exact ⟨hForce, hSame⟩

end Copier

end HeapShape
