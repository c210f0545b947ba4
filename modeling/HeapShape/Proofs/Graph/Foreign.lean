import HeapShape.Proofs.Graph.Elementary
import HeapShape.Proofs.Graph.Mirrored

/-
  Native and foreign nodes.

  A node is native unless it carries the flag `foreign`. A node that stands
  for a native one is native, however the two came to be merged. Where a
  native node comes from can be told as well: from a native node before,
  from a root that was bound, or from a collapse. In the last case it may
  stand for foreign nodes only.

  A copier makes nodes that are all foreign, or all native.

  Main declarations:
    * `Graph.Origin`
    * `Graph.Steps.owned`
    * `Graph.Steps.allNative`
    * `Copier.Stepping.copyCell`
-/

-- What One Step Does

namespace HeapShape

namespace Graph

variable {C : Flags → Prop} {g h : Graph} {id m : NodeId} {n : Node} {k : Nat}

theorem isForeign_takeOver
    (n m : Node)
    (k : Nat) :
    (takeOver n m k).isForeign = (n.isForeign && m.isForeign) := by
  unfold Node.isForeign
  rw [has_takeOver, Flags.has_join, if_pos rfl]
  simp

theorem isCollapsed_takeOver
    (n m : Node)
    (k : Nat) :
    (takeOver n m k).isCollapsed = (n.isCollapsed || m.isCollapsed) := by
  unfold Node.isCollapsed
  rw [has_takeOver, Flags.has_join, if_neg (by decide)]
  simp

theorem Leads.congr_slots
    (hLeads : g.Leads id m k)
    (hSlots : h.slots = g.slots) :
    h.Leads id m k := by
  have hSlot : ∀ x, h.slot x = g.slot x := by
    intro x
    unfold slot
    rw [hSlots]
  refine hLeads.congr ?_ ?_
  · intro x t hx
    rw [hSlot, hx]
  · intro x n hx
    exact ⟨n, by rw [hSlot, hx]⟩

/- Chains go on where they ended. -/
theorem Step.leads
    (hStep : Step C g h)
    (hg : g.FreeListed)
    (hLeads : g.Leads id m k) :
    ∃ m' k', h.Leads m m' k' ∧ h.Leads id m' (k + k') := by
  have hSame : h.Leads id m k → ∃ m' k', h.Leads m m' k' ∧ h.Leads id m' (k + k') := by
    intro hLeads
    rcases hLeads.live_end with ⟨n, hLive⟩
    exact ⟨m, 0, .live hLive, hLeads⟩
  cases hStep with
  | shorten hs => exact hSame (hs.leads hLeads)
  | change hLive hn => exact hSame (hLeads.setLive hLive _)
  | absorb hThis hOther hne offset =>
    exact (Derived.takenOver (T := fun _ => False) hg hThis hOther hne offset).leads id m k hLeads
  | create hFlags size =>
    exact (Derived.createNode (T := fun _ => False) hg _ size).leads id m k hLeads
  | bind hNew =>
    rcases (Derived.createNode (T := fun _ => False) hg Flags.empty 0).leads id m k hLeads with
      ⟨m', k', hEnd, hAll⟩
    exact ⟨m', k', hEnd.congr_slots rfl, hAll.congr_slots rfl⟩
  | note hSlots hFree hRoots => exact hSame (hLeads.congr_slots hSlots)

/- Roots stay bound to their cells. -/
theorem Step.roots
    (hStep : Step C g h)
    {r : Root}
    {c : Cell}
    (hRoot : g.roots.get? r = some c) :
    h.roots.get? r = some c := by
  cases hStep with
  | shorten hs => rw [hs.roots, hRoot]
  | change hLive hn => exact hRoot
  | absorb hThis hOther hne offset => exact hRoot
  | create hFlags size => rw [roots_createNode, hRoot]
  | bind hNew =>
    dsimp only
    rw [OrdMap.get?_insert, if_neg]
    · unfold createBlank
      rw [roots_createNode, hRoot]
    · rintro rfl
      rw [hNew] at hRoot
      cases hRoot
  | note hSlots hFree hRoots => rw [hRoots, hRoot]

/-
  Where a live node comes from: a live node that it stands for, foreign if
  it is, or it was made now.
-/
inductive Origin
    (C : Flags → Prop)
    (g h : Graph)
    (id : NodeId)
    (n : Node) : Prop
  | old
      {x : NodeId}
      {n₀ : Node}
      {k : Nat}
      (hLive : g.slot x = .live n₀)
      (hLeads : h.Leads x id k)
      (hn : n₀.Steady n)
  | made
      (hFlags : C n.flags)
  | standIn
      (hFlags : n.flags = Flags.only .offsetCollapsed)
  | bound
      {r : Root}
      (hRoot : h.roots.get? r = some (Cell.start id))
      (hFlags : n.flags = Flags.empty)

theorem Origin.same
    (hNew : h.slot id = .live n)
    (hOld : g.slot id = .live n) :
    Origin C g h id n :=
  .old hOld (.live hNew) (.of_flags rfl)

/- The absorbing node comes from the one it is foreign as. -/
theorem Origin.takenOver
    {this other : NodeId}
    {moved : Node}
    (hThis : g.slot this = .live n)
    (hOther : g.slot other = .live moved)
    (hne : this ≠ other)
    (k : Nat) :
    Origin C g (g.takenOver this other n moved k) this (takeOver n moved k) := by
  have hSlot := slot_takenOver (k := k) hThis hOther
  have hHere := hSlot this
  have hThere := hSlot other
  rw [if_neg hne, if_pos rfl] at hHere
  rw [if_pos rfl] at hThere
  cases hForeign : n.isForeign with
  | false =>
    refine .old hThis (.live hHere) ⟨?_, ?_⟩
    · rw [isForeign_takeOver, hForeign, Bool.false_and]
    · intro hCollapsed
      rw [isCollapsed_takeOver, hCollapsed, Bool.true_or]
  | true =>
    refine .old hOther (.forward hThere (.live hHere)) ⟨?_, ?_⟩
    · rw [isForeign_takeOver, hForeign, Bool.true_and]
    · intro hCollapsed
      rw [isCollapsed_takeOver, hCollapsed, Bool.or_true]

theorem Step.origin
    (hStep : Step C g h)
    (hg : g.FreeListed)
    (hLive : h.slot id = .live n) :
    Origin C g h id n := by
  cases hStep with
  | shorten hs => exact .same hLive (hs.live_iff.mp hLive)
  | change hOld hn =>
    have hSlot := slot_setSlot (lt_size_of_live hOld)
    have hLive' := hLive
    rw [hSlot] at hLive'
    split at hLive'
    · next hEq =>
      subst hEq
      cases hLive'
      exact .old hOld (.live hLive) hn
    · exact .same hLive hLive'
  | absorb hThis hOther hne offset =>
    have hLive' := hLive
    rw [slot_takenOver hThis hOther] at hLive'
    split at hLive'
    · cases hLive'
    · split at hLive'
      · next hEq =>
        subst hEq
        cases hLive'
        exact .takenOver hThis hOther hne offset
      · exact .same hLive hLive'
  | create hFlags size =>
    have hLive' := hLive
    rw [(hg.slot_createNode _ size).2] at hLive'
    split at hLive'
    · cases hLive'
      rcases hFlags with hFlags | hFlags
      · exact .made hFlags
      · exact .standIn hFlags
    · exact .same hLive hLive'
  | @bind r hNew =>
    have hLive' : g.createBlank.2.slot id = .live n := hLive
    rw [createBlank, (hg.slot_createNode _ 0).2] at hLive'
    split at hLive'
    · next hEq =>
      subst hEq
      cases hLive'
      refine .bound (r := r) ?_ rfl
      dsimp only
      rw [OrdMap.get?_insert, if_pos rfl]
      rfl
    · exact .same hLive hLive'
  | note hSlots hFree hRoots =>
    refine .same hLive ?_
    unfold slot at hLive ⊢
    rw [← hSlots, hLive]

/- What stands for a native node is native. -/
theorem Step.native
    (hStep : Step C g h)
    (hg : g.FreeListed)
    (hHas : g.NodeHas (fun n => n.isForeign = false) id) :
    h.NodeHas (fun n => n.isForeign = false) id := by
  rcases hHas with ⟨m, k, n, hLeads, hLive, hn⟩
  rcases hStep.leads hg hLeads with ⟨m', k', hEnd, hAll⟩
  have hSame : h.slot m = .live n → h.NodeHas (fun n => n.isForeign = false) id := by
    intro hLive'
    rcases hEnd.eq_of_live hLive' with ⟨rfl, rfl⟩
    exact ⟨m', _, n, hAll, hLive', hn⟩
  cases hStep with
  | shorten hs => exact hSame (hs.live_iff.mpr hLive)
  | @change x a b hOld hSteady =>
    have hSlot := slot_setSlot (lt_size_of_live hOld) (.live b) m
    split at hSlot
    · next hEq =>
      subst hEq
      rw [hOld] at hLive
      cases hLive
      rcases hEnd.eq_of_live hSlot with ⟨rfl, rfl⟩
      exact ⟨_, _, _, hAll, hSlot, hSteady.foreign.trans hn⟩
    · exact hSame (hSlot.trans hLive)
  | @absorb this other a b hThis hOther hne offset =>
    have hSlot := slot_takenOver (k := offset) hThis hOther
    have hHere := hSlot this
    have hThere := hSlot m
    rw [if_neg hne, if_pos rfl] at hHere
    split at hThere
    · next hEq =>
      subst hEq
      rw [hOther] at hLive
      cases hLive
      rcases hEnd.unique (.forward hThere (.live hHere)) with ⟨rfl, rfl⟩
      refine ⟨_, _, _, hAll, hHere, (isForeign_takeOver _ _ _).trans ?_⟩
      rw [hn, Bool.and_false]
    · split at hThere
      · next hEq =>
        subst hEq
        rw [hThis] at hLive
        cases hLive
        rcases hEnd.eq_of_live hHere with ⟨rfl, rfl⟩
        refine ⟨_, _, _, hAll, hHere, (isForeign_takeOver _ _ _).trans ?_⟩
        rw [hn, Bool.false_and]
      · exact hSame (hThere.trans hLive)
  | create hFlags size =>
    rcases hg.slot_createNode _ size with ⟨hFree, hSlot⟩
    refine hSame ?_
    rw [hSlot, if_neg, hLive]
    rintro rfl
    rw [hLive] at hFree
    cases hFree
  | bind hNew =>
    rcases hg.slot_createNode Flags.empty 0 with ⟨hFree, hSlot⟩
    refine hSame ((hSlot m).trans ?_)
    rw [if_neg, hLive]
    rintro rfl
    rw [hLive] at hFree
    cases hFree
  | note hSlots hFree hRoots =>
    refine hSame ?_
    unfold slot at hLive ⊢
    rw [hSlots, hLive]

-- What Steps Preserve

/- The node of a root. -/
def Rooted
    (g : Graph)
    (id : NodeId) : Prop :=
  ∃ r c k, g.roots.get? r = some c ∧ g.Leads c.node id k

/-
  A native node stands for a node of `Y`, is bound to a root or is
  collapsed.
-/
def Owned
    (Y : NodeId → Prop)
    (g : Graph) : Prop :=
  ∀ id n, g.slot id = .live n → n.isForeign = false →
    (∃ y k, Y y ∧ g.Leads y id k) ∨ g.Rooted id ∨
      n.isCollapsed = true

/- No node is foreign. -/
def AllNative
    (g : Graph) : Prop :=
  ∀ id n, g.slot id = .live n → n.isForeign = false

variable {Y : NodeId → Prop}

/- A chain to a node that another stands for ends there. -/
theorem Step.leads_of_origin
    (hStep : Step C g h)
    (hg : g.FreeListed)
    {y x : NodeId}
    {i : Nat}
    (hy : g.Leads y x i)
    (hx : h.Leads x id k) :
    ∃ j, h.Leads y id j := by
  rcases hStep.leads hg hy with ⟨m, k', hEnd, hAll⟩
  rcases hEnd.unique hx with ⟨rfl, _⟩
  exact ⟨_, hAll⟩

theorem Step.owned
    (hStep : Step C g h)
    (hg : g.FreeListed)
    (hC : ∀ flags, C flags → flags.has .foreign = true)
    (hOwned : g.Owned Y) :
    h.Owned Y := by
  intro id n hLive hn
  rcases hStep.origin hg hLive with ⟨hOld, hLeads, hSteady⟩ | hFlags | hFlags | ⟨hRoot, _⟩
  · rcases hOwned _ _ hOld (hSteady.foreign ▸ hn) with
      ⟨y, i, hy, hChain⟩ | ⟨r, c, i, hRoot, hChain⟩ | hCollapsed
    · rcases hStep.leads_of_origin hg hChain hLeads with ⟨j, hEnd⟩
      exact Or.inl ⟨y, j, hy, hEnd⟩
    · rcases hStep.leads_of_origin hg hChain hLeads with ⟨j, hEnd⟩
      exact Or.inr (Or.inl ⟨r, c, j, hStep.roots hRoot, hEnd⟩)
    · exact Or.inr (Or.inr (hSteady.collapsed hCollapsed))
  · unfold Node.isForeign at hn
    rw [hC _ hFlags] at hn
    cases hn
  · refine Or.inr (Or.inr ?_)
    unfold Node.isCollapsed
    rw [hFlags]
    decide
  · exact Or.inr (Or.inl ⟨_, _, 0, hRoot, .live hLive⟩)

theorem Step.allNative
    (hStep : Step C g h)
    (hg : g.FreeListed)
    (hC : ∀ flags, C flags → flags.has .foreign = false)
    (hNative : g.AllNative) :
    h.AllNative := by
  intro id n hLive
  rcases hStep.origin hg hLive with ⟨hOld, _, hSteady⟩ | hFlags | hFlags | ⟨_, hFlags⟩
  · exact hSteady.foreign.trans (hNative _ _ hOld)
  · exact hC _ hFlags
  · unfold Node.isForeign
    rw [hFlags]
    decide
  · unfold Node.isForeign
    rw [hFlags]
    decide

/- What every step keeps in a graph with a free list. -/
theorem Steps.keepListed
    {P : Graph → Prop}
    (hSteps : Steps C g h)
    (hg : g.FreeListed)
    (hStep : ∀ a b, Step C a b → a.FreeListed → P a → P b)
    (hP : P g) :
    P h := by
  refine (hSteps.keep (P := fun a => a.FreeListed ∧ P a) ?_ ⟨hg, hP⟩).2
  rintro a b hab ⟨ha, hPa⟩
  exact ⟨hab.freeListed ha, hStep a b hab ha hPa⟩

theorem Steps.native
    (hSteps : Steps C g h)
    (hg : g.FreeListed)
    (hHas : g.NodeHas (fun n => n.isForeign = false) id) :
    h.NodeHas (fun n => n.isForeign = false) id :=
  hSteps.keepListed (P := fun a => a.NodeHas (fun n => n.isForeign = false) id)
    hg (fun _ _ hab ha => hab.native ha) hHas

theorem Steps.owned
    (hSteps : Steps C g h)
    (hg : g.FreeListed)
    (hC : ∀ flags, C flags → flags.has .foreign = true)
    (hOwned : g.Owned Y) :
    h.Owned Y :=
  hSteps.keepListed hg (fun _ _ hab ha => hab.owned ha hC) hOwned

theorem Steps.allNative
    (hSteps : Steps C g h)
    (hg : g.FreeListed)
    (hC : ∀ flags, C flags → flags.has .foreign = false)
    (hNative : g.AllNative) :
    h.AllNative :=
  hSteps.keepListed hg (fun _ _ hab ha => hab.allNative ha hC) hNative

end Graph

-- Copying

namespace Copier

open Graph

/-
  The destination of a copier changes by elementary steps, and the nodes
  made are foreign if the options say so.
-/
structure Stepping
    (k k' : Copier) : Prop where
  options : k'.options = k.options
  steps : Steps
    (fun flags => flags.has .foreign = k.options.markForeign)
    k.dest k'.dest

variable {k k' k'' : Copier} {src copy : NodeId} {force : Bool} {c image : Cell}

theorem Stepping.refl
    (k : Copier) :
    Stepping k k :=
  ⟨rfl, .refl _⟩

theorem Stepping.trans
    (h : Stepping k k')
    (h' : Stepping k' k'') :
    Stepping k k'' := by
  refine ⟨h'.options.trans h.options, h.steps.trans ?_⟩
  rw [← h.options]
  exact h'.steps

theorem Stepping.freeListed
    (h : Stepping k k')
    (hk : k.dest.FreeListed) :
    k'.dest.FreeListed :=
  h.steps.freeListed hk

theorem Stepping.addSites
    {sites : List (AllocSite × CallPath)}
    (hRun : k.addSites copy sites = .ok k') :
    Stepping k k' := by
  unfold Copier.addSites at hRun
  rcases Checked.of_bind hRun with ⟨dest, hModify, hRun⟩
  cases hRun
  refine ⟨rfl, .modifyNode ?_ hModify⟩
  intro n
  refine .of_flags (SameButSites.foldl ?_ sites n).flags
  rintro n ⟨s, path⟩
  exact ⟨rfl, rfl, rfl, rfl, rfl⟩

theorem Stepping.copyContents
    (hk : k.dest.FreeListed)
    (hRun : k.copyContents src force = .ok (copy, k')) :
    Stepping k k' := by
  rcases copyContents_eq_ok hRun with ⟨n, flags, dest, k₁, _, hIs, rfl, hTypes, hSites, rfl⟩
  have hFlags := has_copied_flags_all k.options n.flags .foreign
  rw [if_pos rfl, ← hIs] at hFlags
  have hFresh := (hk.slot_createNode flags n.size).2 (k.dest.createNode flags n.size).1
  rw [if_pos rfl] at hFresh
  have hMade : Steps (fun flags =>
        flags.has .foreign = k.options.markForeign)
      k.dest (k.dest.createNode flags n.size).2 :=
    .single (.create (Or.inl hFlags) n.size)
  have hSteady : (freshNode flags n.size).Steady { freshNode flags n.size with types := n.types } :=
    .of_flags rfl
  rw [modifyContents_of_live hFresh] at hTypes
  cases hTypes
  have hTyped : Stepping k { k with
      dest := (k.dest.createNode flags n.size).2.setSlot (k.dest.createNode flags n.size).1
        (.live { freshNode flags n.size with
          types := n.types }) } :=
    ⟨rfl, hMade.tail (.change hFresh hSteady)⟩
  have hAll := hTyped.trans (.addSites hSites)
  exact ⟨hAll.options, hAll.steps⟩

variable {stack : List NodeId}

/- Copying one link, which may copy its target. -/
theorem Stepping.copyLink
    {stack' : List NodeId}
    {link : Field × Cell}
    (hk : k.dest.FreeListed)
    (hRun : Copier.copyLink copy (k, stack) link = .ok (k', stack')) :
    Stepping k k' := by
  rcases copyLink_eq_ok hRun with ⟨u, c, k₁, dest, _, hTarget, hAdd, rfl⟩
  have hFirst : Stepping k k₁ := by
    rcases hTarget with ⟨_, rfl, _⟩ | ⟨_, hCopy, _⟩
    · exact .refl _
    · exact .copyContents hk hCopy
  have hNext : Stepping k₁ { k₁ with dest := dest } := ⟨rfl, .addLink (hFirst.freeListed hk) hAdd⟩
  exact hFirst.trans hNext

theorem Stepping.copyLinksWithin
    {fuel : Nat}
    (hk : k.dest.FreeListed)
    (hRun : Copier.copyLinksWithin fuel k stack = .ok k') :
    Stepping k k' := by
  refine copyLinksWithin_keeps ?_ (.refl k) hRun
  intro copy k₁ stack link k₂ stack' hBefore hStep
  exact hBefore.trans (.copyLink (hBefore.freeListed hk) hStep)

theorem Stepping.noting
    (k : Copier)
    (src : NodeId)
    (force : Bool) :
    Stepping k (k.noting src force) := by
  unfold Copier.noting
  split
  · exact ⟨rfl, .refl _⟩
  · exact .refl _

theorem Stepping.copyOf
    {id : NodeId}
    (hk : k.dest.FreeListed)
    (hRun : k.copyOf id force = .ok (copy, k')) :
    Stepping k k' := by
  rcases copyOf_eq_ok hRun with ⟨u, _, ⟨_, _, n, _, hSites⟩ | ⟨_, _, rfl⟩ | ⟨_, k₁, hCopy, hLinks⟩⟩
  · have hAll := Stepping.addSites hSites
    exact ⟨hAll.options, hAll.steps⟩
  · exact .refl _
  · have hStart := Stepping.noting k u.node force
    have hFirst := hStart.trans (.copyContents (hStart.freeListed hk) hCopy)
    exact hFirst.trans (.copyLinksWithin (hFirst.freeListed hk) hLinks)

theorem Stepping.copyCell
    (hk : k.dest.FreeListed)
    (hRun : k.copyCell c force = .ok (image, k')) :
    Stepping k k' := by
  rcases copyCell_eq_ok hRun with ⟨u, copy, k₁, dest, _, hCopy, hFind, rfl⟩
  have hFirst := Stepping.copyOf hk hCopy
  have hNext : Stepping k₁ { k₁ with dest := dest } := ⟨rfl, (Steps.find hFind).1⟩
  exact hFirst.trans hNext

end Copier

end HeapShape
