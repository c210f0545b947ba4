import HeapShape.Proofs.Graph.Merge

/-
  What merging leaves alone, and where links and allocation sites come from.

  Merging changes neither the roots of a graph nor the cells of calls, and the
  links it leaves behind are old links, told from where their targets have
  gone. The allocation sites of a node are those of the nodes that were
  merged into it. These facts need no more of a graph than a correct list of
  free slots, so they hold in the middle of a merge as well.

  Main declarations:
    * `Graph.Confined`
    * `Graph.Fused.unify`
    * `Graph.Fused.addLink`
    * `Graph.Fused.setArray`
-/

-- Derived Graphs

namespace HeapShape

open Checked

namespace Graph

/- Some live node has a link to a cell. -/
def Targets
    (g : Graph)
    (t : Cell) : Prop :=
  ∃ id n f, g.slot id = .live n ∧
    n.links.get? f = some t

/- A cell, or another cell of the same place. -/
def Drawn
    (g : Graph)
    (t u : Cell) : Prop :=
  t = u ∨ g.SamePlace t u

/-
  The allocation sites of a kind lie in the nodes that some slots lead to.
-/
def Confined
    (g : Graph)
    (P : AllocSite → Prop)
    (Y : NodeId → Prop) : Prop :=
  ∀ id n s, g.slot id = .live n → s ∈ n.allocSites → P s →
    ∃ y k, Y y ∧ g.Leads y id k

/-
  A graph `h` made of `g` by steps that keep roots and calls: chains go on
  where they ended, and every link leads to an old target or to a new one.
-/
structure Rewired
    (g h : Graph)
    (T : Cell → Prop) : Prop where
  freeListed : h.FreeListed
  roots : h.roots = g.roots
  callSites : h.callSites = g.callSites
  functions : h.functions = g.functions
  leads : ∀ id m k, g.Leads id m k →
    ∃ m' k', h.Leads m m' k' ∧ h.Leads id m' (k + k')
  targets : ∀ u, h.Targets u →
    ∃ t, (g.Targets t ∨ T t) ∧ h.Drawn t u

/-
  A graph that merging makes of another. Allocation sites move along with
  the nodes they were noted at.
-/
structure Derived
    (g h : Graph)
    (T : Cell → Prop) : Prop extends Rewired g h T where
  confined : ∀ P Y, g.Confined P Y → h.Confined P Y

variable {T U : Cell → Prop} {g h i : Graph} {t u v : Cell}

theorem SamePlace.trans
    (htu : g.SamePlace t u)
    (huv : g.SamePlace u v) :
    g.SamePlace t v := by
  rcases htu with ⟨m, j, k, ht, hu, hEq⟩
  rcases huv with ⟨m', j', k', hu', hv, hEq'⟩
  rcases hu.unique hu' with ⟨rfl, rfl⟩
  exact ⟨m, j, k', ht, hv, hEq.trans hEq'⟩

theorem Drawn.trans
    (htu : g.Drawn t u)
    (huv : g.Drawn u v) :
    g.Drawn t v := by
  rcases htu with rfl | htu
  · exact huv
  · rcases huv with rfl | huv
    · exact Or.inr htu
    · exact Or.inr (htu.trans huv)

/- One place stays one place where chains go on. -/
theorem Rewired.drawn
    (hgh : Rewired g h T)
    (htu : g.Drawn t u) :
    h.Drawn t u := by
  rcases htu with rfl | ⟨m, j, k, ht, hu, hEq⟩
  · exact Or.inl rfl
  · rcases hgh.leads _ _ _ ht with ⟨m₁, k₁, hEnd, ht'⟩
    rcases hgh.leads _ _ _ hu with ⟨m₂, k₂, hEnd', hu'⟩
    rcases hEnd.unique hEnd' with ⟨rfl, rfl⟩
    exact Or.inr ⟨m₁, _, _, ht', hu', by omega⟩

theorem Derived.refl
    (hg : g.FreeListed) :
    Derived g g T where
  freeListed := hg
  roots := rfl
  callSites := rfl
  functions := rfl
  leads := by
    intro id m k hLeads
    rcases hLeads.live_end with ⟨n, hLive⟩
    exact ⟨m, 0, .live hLive, hLeads⟩
  targets := fun u hu => ⟨u, Or.inl hu, Or.inl rfl⟩
  confined := fun _ _ hAll => hAll

/- Steps one after the other. -/
theorem Rewired.trans
    (hgh : Rewired g h T)
    (hhi : Rewired h i U)
    (hU : ∀ u, U u → ∃ t, (g.Targets t ∨ T t) ∧ h.Drawn t u) :
    Rewired g i T where
  freeListed := hhi.freeListed
  roots := hhi.roots.trans hgh.roots
  callSites := hhi.callSites.trans hgh.callSites
  functions := hhi.functions.trans hgh.functions
  leads := by
    intro id m k hLeads
    rcases hgh.leads id m k hLeads with ⟨m₁, k₁, hEnd, hAll⟩
    rcases hhi.leads _ _ _ hAll with ⟨m₂, k₂, hEnd₂, hAll₂⟩
    rcases hhi.leads _ _ _ hEnd with ⟨m₃, k₃, hEnd₃, hAll₃⟩
    rcases hEnd₂.unique hEnd₃ with ⟨rfl, rfl⟩
    refine ⟨m₂, k₁ + k₂, hAll₃, ?_⟩
    rw [← Nat.add_assoc]
    exact hAll₂
  targets := by
    intro v hv
    rcases hhi.targets v hv with ⟨u, hOrigin, huv⟩
    have hOld : ∃ t, (g.Targets t ∨ T t) ∧ h.Drawn t u := by
      rcases hOrigin with hu | hu
      · exact hgh.targets u hu
      · exact hU u hu
    rcases hOld with ⟨t, ht, htu⟩
    exact ⟨t, ht, (hhi.drawn htu).trans huv⟩

theorem Derived.trans
    (hgh : Derived g h T)
    (hhi : Derived h i U)
    (hU : ∀ u, U u → ∃ t, (g.Targets t ∨ T t) ∧ h.Drawn t u) :
    Derived g i T where
  toRewired := hgh.toRewired.trans hhi.toRewired hU
  confined := fun P Y hAll =>
    hhi.confined P Y (hgh.confined P Y hAll)

/- A step that has no new targets. -/
theorem Derived.before
    (hgh : Derived g h T)
    (hhi : Derived h i fun _ => False) :
    Derived g i T :=
  hgh.trans hhi fun _ hu => hu.elim

-- Changing One Slot

variable {id : NodeId} {n n' : Node}

theorem FreeListed.setSlot
    (hg : g.FreeListed)
    (hSlot : g.slot id = .live n)
    {s : Slot}
    (hs : s ≠ .free) :
    (g.setSlot id s).FreeListed where
  nodup := hg.nodup
  mem_iff := by
    intro j
    rw [free_setSlot, slots_size_setSlot, hg.mem_iff, slot_setSlot (lt_size_of_live hSlot)]
    split
    · next hEq =>
      subst hEq
      simp [hSlot, hs]
    · rfl

theorem Derived.shortened
    (hg : g.FreeListed)
    (hs : Shortened g h) :
    Derived g h T where
  freeListed :=
    { nodup := hs.free ▸ hg.nodup
      mem_iff := by
        intro id
        rw [hs.free, hs.size, hs.free_iff]
        exact hg.mem_iff id }
  roots := hs.roots
  callSites := hs.callSites
  functions := hs.functions
  leads := by
    intro id m k hLeads
    rcases hLeads.live_end with ⟨n, hLive⟩
    exact ⟨m, 0, .live (hs.live_iff.mpr hLive), hs.leads hLeads⟩
  targets := by
    rintro u ⟨id, n, f, hSlot, hGet⟩
    exact ⟨u, Or.inl ⟨id, n, f, hs.live_iff.mp hSlot, hGet⟩, Or.inl rfl⟩
  confined := by
    intro P Y hAll id n s hSlot hs' hP
    rcases hAll id n s (hs.live_iff.mp hSlot) hs' hP with ⟨y, k, hy, hLeads⟩
    exact ⟨y, k, hy, hs.leads hLeads⟩

/- A live node gives way to one with links from old ones. -/
theorem Rewired.setLive
    (hg : g.FreeListed)
    (hSlot : g.slot id = .live n)
    (hLinks : ∀ f u, n'.links.get? f = some u → ∃ t, (g.Targets t ∨ T t) ∧ g.Drawn t u) :
    Rewired g (g.setSlot id (.live n')) T := by
  have hLt := lt_size_of_live hSlot
  have hKept : Rewired g (g.setSlot id (.live n')) fun u => ∃ f, n'.links.get? f = some u :=
    { freeListed := hg.setSlot hSlot Slot.noConfusion
      roots := rfl
      callSites := rfl
      functions := rfl
      leads := by
        intro j m k hLeads
        have hSame := hLeads.setLive hSlot n'
        rcases hSame.live_end with ⟨_, hLive⟩
        exact ⟨m, 0, .live hLive, hSame⟩
      targets := by
        rintro u ⟨j, nj, f, hj, hGet⟩
        refine ⟨u, ?_, Or.inl rfl⟩
        rw [slot_setSlot hLt] at hj
        split at hj
        · cases hj
          exact Or.inr ⟨f, hGet⟩
        · exact Or.inl ⟨j, nj, f, hj, hGet⟩ }
  refine ⟨hKept.freeListed, rfl, rfl, rfl, hKept.leads, ?_⟩
  intro u hu
  rcases hKept.targets u hu with ⟨t, hOld | ⟨f, hGet⟩, htu⟩
  · exact ⟨t, Or.inl hOld, htu⟩
  · rcases hLinks f t hGet with ⟨t₀, hOrigin, hDrawn⟩
    exact ⟨t₀, hOrigin, (hKept.drawn hDrawn).trans htu⟩

theorem Rewired.setLive_of_same_links
    (hg : g.FreeListed)
    (hSlot : g.slot id = .live n)
    (n' : Node)
    (hLinks : n'.links = n.links) :
    Rewired g (g.setSlot id (.live n')) T := by
  refine .setLive hg hSlot ?_
  intro f u hGet
  rw [hLinks] at hGet
  exact ⟨u, Or.inl ⟨id, n, f, hSlot, hGet⟩, Or.inl rfl⟩

variable {P : AllocSite → Prop} {Y : NodeId → Prop} {this : NodeId}

/- Where sites are can be told from the slots. -/
theorem Confined.congr
    (hAll : g.Confined P Y)
    (hSlot : ∀ id, h.slot id = g.slot id) :
    h.Confined P Y := by
  intro id n s hLive hs hP
  rw [hSlot] at hLive
  rcases hAll id n s hLive hs hP with ⟨y, k, hy, hLeads⟩
  refine ⟨y, k, hy, hLeads.congr ?_ ?_⟩
  · intro x t hx
    rw [hSlot, hx]
  · intro x n' hx
    exact ⟨n', by rw [hSlot, hx]⟩

/- A live node gives way to one that has new sites. -/
theorem Confined.setLive
    (hAll : g.Confined P Y)
    (hSlot : g.slot id = .live n)
    (hNew : ∀ s, s ∈ n'.allocSites → P s → s ∈ n.allocSites ∨ ∃ y k, Y y ∧
        g.Leads y id k) :
    (g.setSlot id (.live n')).Confined P Y := by
  intro j nj s hj hs hP
  rw [slot_setSlot (lt_size_of_live hSlot)] at hj
  have hOld : ∃ y k, Y y ∧ g.Leads y j k := by
    split at hj
    · next hEq =>
      subst hEq
      cases hj
      rcases hNew s hs hP with hOld | hBrought
      · exact hAll j n s hSlot hOld hP
      · exact hBrought
    · exact hAll j nj s hj hs hP
  rcases hOld with ⟨y, k, hy, hLeads⟩
  exact ⟨y, k, hy, hLeads.setLive hSlot n'⟩

theorem Derived.setLive
    (hg : g.FreeListed)
    (hSlot : g.slot id = .live n)
    (hSites : n'.allocSites = n.allocSites)
    (hLinks : ∀ f u, n'.links.get? f = some u → ∃ t, (g.Targets t ∨ T t) ∧ g.Drawn t u) :
    Derived g (g.setSlot id (.live n')) T where
  toRewired := .setLive hg hSlot hLinks
  confined := fun _ _ hAll => hAll.setLive hSlot fun _ hs _ => Or.inl (hSites ▸ hs)

theorem Derived.setLive_of_same_links
    (hg : g.FreeListed)
    (hSlot : g.slot id = .live n)
    (n' : Node)
    (hLinks : n'.links = n.links)
    (hSites : n'.allocSites = n.allocSites) :
    Derived g (g.setSlot id (.live n')) T where
  toRewired := .setLive_of_same_links hg hSlot n' hLinks
  confined := fun _ _ hAll => hAll.setLive hSlot fun _ hs _ => Or.inl (hSites ▸ hs)

/- A live node is merged into another. -/
theorem Rewired.setForward
    (hg : g.FreeListed)
    (hSlot : g.slot id = .live n)
    (hThis : g.slot this = .live n')
    (hne : this ≠ id)
    (o : Nat) :
    Rewired g (g.setSlot id (.forward { node := this, offset := o })) T where
  freeListed := hg.setSlot hSlot Slot.noConfusion
  roots := rfl
  callSites := rfl
  functions := rfl
  leads := by
    intro j m k hEnd
    have hAll := hEnd.setForward (o := o) hSlot hThis hne
    by_cases hm : m = id
    · subst hm
      rw [if_pos rfl, if_pos rfl] at hAll
      have hStart := (Leads.live hSlot).setForward (o := o) hSlot hThis hne
      rw [if_pos rfl, if_pos rfl, Nat.zero_add] at hStart
      exact ⟨this, o, hStart, hAll⟩
    · rw [if_neg hm, if_neg hm] at hAll
      rcases hEnd.live_end with ⟨nm, hLive⟩
      exact ⟨m, 0, .live (slot_setForward_of_live hSlot _ hm hLive), hAll⟩
  targets := by
    rintro u ⟨j, nj, f, hj, hGet⟩
    rw [slot_setSlot (lt_size_of_live hSlot)] at hj
    split at hj
    · cases hj
    · exact ⟨u, Or.inl ⟨j, nj, f, hj, hGet⟩, Or.inl rfl⟩

/- A node takes over the sites of another with the node. -/
theorem Derived.takenOver
    (hg : g.FreeListed)
    {other : NodeId}
    {moved : Node}
    (hThis : g.slot this = .live n)
    (hOther : g.slot other = .live moved)
    (hne : this ≠ other)
    (k : Nat) :
    Derived g (g.takenOver this other n moved k) T := by
  have hLt := lt_size_of_live hThis
  have hHere := slot_setSlot hLt (.live (takeOver n moved k)) this
  have hThere := slot_setSlot hLt (.live (takeOver n moved k)) other
  rw [if_pos rfl] at hHere
  rw [if_neg hne.symm, hOther] at hThere
  have hTaken := Rewired.setLive_of_same_links (T := T) hg hThis (takeOver n moved k) rfl
  have hForward := Rewired.setForward (T := fun _ => False) hTaken.freeListed hThere hHere hne k
  refine ⟨hTaken.trans hForward fun _ hNone => hNone.elim, ?_⟩
  intro P Y hAll j nj s hj hs hP
  unfold Graph.takenOver at hj
  rw [slot_setSlot (lt_size_of_live hThere)] at hj
  split at hj
  · cases hj
  · next hNot =>
    -- A chain to either node now ends at the one that stays.
    have hOnto : ∀ y m o, g.Leads y m o → m = j ∨ (m = other ∧ this = j) → ∃ o',
          (g.takenOver this other n moved k).Leads y j o' := by
      intro y m o hLeads hEnd
      have hMoved := (hLeads.setLive hThis
        (takeOver n moved k)).setForward (o := k) hThere hHere hne
      rcases hEnd with rfl | ⟨rfl, rfl⟩
      · rw [if_neg hNot] at hMoved
        exact ⟨_, hMoved⟩
      · rw [if_pos rfl] at hMoved
        exact ⟨_, hMoved⟩
    rw [slot_setSlot hLt] at hj
    split at hj
    · next hEq =>
      subst hEq
      cases hj
      rcases (OrdSet.mem_union_iff _ _ _).mp hs with hn | hm
      · rcases hAll _ _ s hThis hn hP with ⟨y, o, hy, hLeads⟩
        rcases hOnto y _ o hLeads (Or.inl rfl) with ⟨o', hEnd⟩
        exact ⟨y, o', hy, hEnd⟩
      · rcases hAll _ _ s hOther hm hP with ⟨y, o, hy, hLeads⟩
        rcases hOnto y _ o hLeads (Or.inr ⟨rfl, rfl⟩) with ⟨o', hEnd⟩
        exact ⟨y, o', hy, hEnd⟩
    · rcases hAll _ _ s hj hs hP with ⟨y, o, hy, hLeads⟩
      rcases hOnto y _ o hLeads (Or.inl rfl) with ⟨o', hEnd⟩
      exact ⟨y, o', hy, hEnd⟩

@[simp]
theorem functions_createNode
    (flags : Flags)
    (size : Nat) :
    (g.createNode flags size).2.functions = g.functions := by
  unfold Graph.createNode
  split <;> rfl

@[simp]
theorem callSites_createNode
    (flags : Flags)
    (size : Nat) :
    (g.createNode flags size).2.callSites = g.callSites := by
  unfold Graph.createNode
  split <;> rfl

theorem Derived.createNode
    (hg : g.FreeListed)
    (flags : Flags)
    (size : Nat) :
    Derived g (g.createNode flags size).2 T := by
  rcases hg.slot_createNode flags size with ⟨hFresh, hSlot⟩
  have hOther : ∀ x, g.slot x ≠ .free → (g.createNode flags size).2.slot x = g.slot x := by
    intro x hx
    rw [hSlot, if_neg]
    rintro rfl
    exact hx hFresh
  have hSame : ∀ id m k, g.Leads id m k → (g.createNode flags size).2.Leads id m k := by
    intro id m k hLeads
    apply hLeads.congr
    · intro x t hx
      rw [hOther x (slot_ne_free_of_forward hx), hx]
    · intro x n hx
      exact ⟨n, by
        rw [hOther x (slot_ne_free_of_live hx), hx]⟩
  refine ⟨⟨hg.createNode flags size, roots_createNode _ _,
    callSites_createNode _ _, functions_createNode _ _, ?_,
    ?_⟩, ?_⟩
  · intro id m k hLeads
    rcases (hSame id m k hLeads).live_end with ⟨_, hLive⟩
    exact ⟨m, 0, .live hLive, hSame id m k hLeads⟩
  · rintro u ⟨id, n, f, hLive, hGet⟩
    rw [hSlot] at hLive
    split at hLive
    · cases hLive
      cases hGet
    · exact ⟨u, Or.inl ⟨id, n, f, hLive, hGet⟩, Or.inl rfl⟩
  · intro P Y hAll id n s hLive hs hP
    rw [hSlot] at hLive
    split at hLive
    · cases hLive
      cases hs
    · rcases hAll id n s hLive hs hP with ⟨y, k, hy, hLeads⟩
      exact ⟨y, k, hy, hSame _ _ _ hLeads⟩

end Graph

-- Merge Steps

/- A change that keeps a node native, or foreign. -/
structure Node.Steady
    (n n' : Node) : Prop where
  foreign : n'.isForeign = n.isForeign
  collapsed : n.isCollapsed = true → n'.isCollapsed = true

theorem Node.Steady.of_flags
    {n n' : Node}
    (hFlags : n'.flags = n.flags) :
    n.Steady n' where
  foreign := by
    unfold Node.isForeign
    rw [hFlags]
  collapsed := by
    unfold Node.isCollapsed
    rw [hFlags]
    exact id

namespace Graph

/- A fresh collapsed node, made to absorb a node. -/
def makeStandIn
    (g : Graph) : NodeId × Graph :=
  g.createNode (Flags.only .offsetCollapsed) 1

/- The fresh node has absorbed the node it is made for. -/
def replaced
    (g : Graph)
    (other : NodeId)
    (m : Node) : Graph :=
  g.makeStandIn.2.takenOver g.makeStandIn.1 other
    (freshNode (Flags.only .offsetCollapsed) 1) m 0

/- One change that merging makes. -/
inductive MergeStep
    (g : Graph) :
    Graph → Prop
| shorten
    {h : Graph}
    (hs : Shortened g h) :
    MergeStep g h
| change
    {id : NodeId} {n n' : Node} (hLive : g.slot id = .live n)
    (hn : n.Steady n') :
    MergeStep g (g.setSlot id (.live n'))
| absorb
    {this other : NodeId} {n m : Node} (hThis : g.slot this = .live n)
    (hOther : g.slot other = .live m) (hne : this ≠ other)
    (offset : Nat) :
    MergeStep g (g.takenOver this other n m offset)
| replace
    {other : NodeId} {m : Node}
    (hOther : g.slot other = .live m) :
    MergeStep g (g.replaced other m)

/- Such changes one after the other. -/
def MergeSteps
    (g h : Graph) : Prop :=
  Relation.ReflTransGen MergeStep g h

variable {T U : Cell → Prop} {g h i : Graph} {id : NodeId} {n n' : Node}

theorem MergeSteps.refl
    (g : Graph) :
    MergeSteps g g :=
  Relation.ReflTransGen.refl

theorem MergeSteps.trans
    (hgh : MergeSteps g h)
    (hhi : MergeSteps h i) :
    MergeSteps g i :=
  Relation.ReflTransGen.trans hgh hhi

theorem MergeSteps.single
    (hgh : MergeStep g h) :
    MergeSteps g h :=
  Relation.ReflTransGen.single hgh

/- The fresh node and the one it is to absorb. -/
theorem FreeListed.standIn
    (hg : g.FreeListed)
    {other : NodeId}
    {m : Node}
    (hOther : g.slot other = .live m) :
    g.makeStandIn.1 ≠ other ∧ g.makeStandIn.2.slot g.makeStandIn.1 =
        .live (freshNode (Flags.only .offsetCollapsed) 1) ∧
      g.makeStandIn.2.slot other = .live m := by
  rcases hg.slot_createNode (Flags.only .offsetCollapsed) 1 with ⟨hFree, hNew⟩
  have hne : g.makeStandIn.1 ≠ other := by
    rintro rfl
    rw [makeStandIn, hFree] at hOther
    cases hOther
  refine ⟨hne, ?_, ?_⟩
  · exact (hNew g.makeStandIn.1).trans (if_pos rfl)
  · exact (hNew other).trans ((if_neg hne.symm).trans hOther)

/- A derived graph that is made by merge steps. -/
structure Fused
    (g h : Graph)
    (T : Cell → Prop) : Prop extends Derived g h T where
  steps : MergeSteps g h

theorem Fused.refl
    (hg : g.FreeListed) :
    Fused g g T :=
  ⟨.refl hg, .refl g⟩

theorem Fused.trans
    (hgh : Fused g h T)
    (hhi : Fused h i U)
    (hU : ∀ u, U u → ∃ t, (g.Targets t ∨ T t) ∧ h.Drawn t u) :
    Fused g i T :=
  ⟨hgh.toDerived.trans hhi.toDerived hU, hgh.steps.trans hhi.steps⟩

theorem Fused.before
    (hgh : Fused g h T)
    (hhi : Fused h i fun _ => False) :
    Fused g i T :=
  hgh.trans hhi fun _ hu => hu.elim

theorem Fused.shortened
    (hg : g.FreeListed)
    (hs : Shortened g h) :
    Fused g h T :=
  ⟨.shortened hg hs, .single (.shorten hs)⟩

/- Look-up derives a graph in which the cell found is one. -/
theorem Fused.find
    (hg : g.FreeListed)
    {c d : Cell}
    (hFind : g.find c = .ok (d, h)) :
    Fused g h T ∧ h.SamePlace c d ∧ ∃ n, g.slot d.node = .live n ∧
      h.slot d.node = .live n := by
  rcases find_eq_ok hFind with ⟨k, hLeads, hOffset, _, hs⟩
  rcases hLeads.live_end with ⟨n, hLive⟩
  have hSlot := hs.live_iff.mpr hLive
  exact ⟨.shortened hg hs, ⟨d.node, k, 0, hs.leads hLeads, .live hSlot, hOffset.symm⟩,
    n, hLive, hSlot⟩

theorem Fused.setLive
    (hg : g.FreeListed)
    (hSlot : g.slot id = .live n)
    (hn : n.Steady n')
    (hSites : n'.allocSites = n.allocSites)
    (hLinks : ∀ f u, n'.links.get? f = some u → ∃ t, (g.Targets t ∨ T t) ∧ g.Drawn t u) :
    Fused g (g.setSlot id (.live n')) T :=
  ⟨.setLive hg hSlot hSites hLinks, .single (.change hSlot hn)⟩

theorem Fused.setLive_of_same_links
    (hg : g.FreeListed)
    (hSlot : g.slot id = .live n)
    (hn : n.Steady n')
    (hLinks : n'.links = n.links)
    (hSites : n'.allocSites = n.allocSites) :
    Fused g (g.setSlot id (.live n')) T :=
  ⟨.setLive_of_same_links hg hSlot n' hLinks hSites, .single (.change hSlot hn)⟩

/- A fresh collapsed node absorbs a node. -/
theorem Fused.replaced
    (hg : g.FreeListed)
    (hOther : g.slot id = .live n) :
    Fused g (g.replaced id n) T := by
  rcases hg.standIn hOther with ⟨hne, hFresh, hOld⟩
  have hMade : Derived g g.makeStandIn.2 T := .createNode hg _ _
  exact ⟨hMade.before (.takenOver hMade.freeListed hFresh hOld hne 0), .single (.replace hOther)⟩

-- Types And Links

/- A merge that only moves links. -/
def Derives
    (merge : Merge) : Prop :=
  ∀ g a b h T, g.FreeListed → merge g a b = .ok h →
    Fused g h T

variable {merge : Merge} {c t : Cell} {type? : Option TypeTag} {this other : NodeId} {offset : Nat}

theorem Fused.addTypes
    (hg : g.FreeListed)
    {types : TypeSet}
    (hRun : g.addTypes c types = .ok h) :
    Fused g h T := by
  unfold Graph.addTypes at hRun
  split at hRun
  · cases hRun
    exact .refl hg
  · rcases of_bind hRun with ⟨⟨d, g₁⟩, hFind, hRun⟩
    rcases of_bind hRun with ⟨m, hContents, hRun⟩
    rcases Fused.find (T := T) hg hFind with ⟨hFound, _, n, _, hSlot⟩
    rcases eq_of_contents hSlot hContents with rfl
    rw [setContents_of_live hSlot] at hRun
    cases hRun
    apply hFound.before
    have hFrame := m.withTypes_frame d.offset types
    refine .setLive_of_same_links hFound.freeListed hSlot ⟨?_, ?_⟩ hFrame.2.1 hFrame.2.2.1
    · exact m.has_withTypes _ _ (by decide)
    · intro hCollapsed
      exact (m.has_withTypes _ _ (by decide)).trans hCollapsed

theorem Fused.replayTypes
    (hg : g.FreeListed)
    {types : OrdMap Nat TypeSet}
    (hRun : g.replayTypes this offset types = .ok h) :
    Fused g h T := by
  unfold Graph.replayTypes at hRun
  refine foldlM_induction (P := fun h => Fused g h T) ?_ (.refl hg) hRun
  rintro g₁ ⟨o, ts⟩ _ g₂ hStep hAdd
  rcases of_bind hAdd with ⟨spot, _, hAdd⟩
  exact hStep.before (.addTypes hStep.freeListed hAdd)

/- A link is added: its target is new. -/
theorem Fused.addLinkBy
    (hMerge : Derives merge)
    (hg : g.FreeListed)
    (ht : T t)
    (hRun : addLinkBy merge g c type? t = .ok h) :
    Fused g h T := by
  unfold Graph.addLinkBy at hRun
  rcases of_bind hRun with ⟨⟨d, g₁⟩, hFind, hRun⟩
  rcases of_bind hRun with ⟨m, hContents, hRun⟩
  rcases Fused.find (T := T) hg hFind with ⟨hFound, _, n, _, hSlot⟩
  rcases eq_of_contents hSlot hContents with rfl
  dsimp only at hRun
  split at hRun
  · exact hFound.before (hMerge _ _ _ _ _ hFound.freeListed hRun)
  · rcases of_bind hRun with ⟨⟨u, g₂⟩, hFindT, hRun⟩
    rcases of_bind hRun with ⟨m₂, hContents₂, hRun⟩
    rcases Fused.find (T := fun _ => False) hFound.freeListed hFindT with ⟨hFoundT, hPlace, _⟩
    rcases find_eq_ok hFindT with ⟨_, _, _, _, hs⟩
    have hSlot₂ := hs.live_iff.mpr hSlot
    rcases eq_of_contents hSlot₂ hContents₂ with rfl
    have hBoth := hFound.before hFoundT
    have hInsert : ∀ size, Fused g (g₂.setSlot d.node (.live { m₂ with
          size := size
          links := m₂.links.insert (m₂.effectiveField (Field.make g₁.config d.offset type?)) u }))
        T := by
      intro size
      refine hBoth.trans (Fused.setLive (T := fun v => v = u) hBoth.freeListed hSlot₂
        (.of_flags rfl) rfl ?_) ?_
      · intro f v hGet
        dsimp only at hGet
        rw [OrdMap.get?_insert] at hGet
        split at hGet
        · cases hGet
          exact ⟨u, Or.inr rfl, Or.inl rfl⟩
        · exact ⟨v, Or.inl ⟨_, _, f, hSlot₂, hGet⟩, Or.inl rfl⟩
      · intro v hv
        rw [hv]
        exact ⟨t, Or.inr ht, Or.inr hPlace⟩
    split at hRun
    · rcases of_bind hRun with ⟨reach, _, hRun⟩
      rw [pure_bind, setContents_of_live hSlot₂] at hRun
      cases hRun
      exact hInsert _
    · rw [pure_bind, setContents_of_live hSlot₂] at hRun
      cases hRun
      exact hInsert _

theorem Fused.replayLinks
    (hMerge : Derives merge)
    (hg : g.FreeListed)
    {links : OrdMap Field Cell}
    (hLinks : ∀ f t, links.get? f = some t → g.Targets t ∨ T t)
    (hRun : replayLinks merge g this offset links = .ok h) :
    Fused g h T := by
  unfold Graph.replayLinks at hRun
  refine foldlM_induction (P := fun h => Fused g h T) ?_ (.refl hg) hRun
  rintro g₁ ⟨f, t⟩ hMem g₂ hStep hAdd
  rcases of_bind hAdd with ⟨spot, _, hAdd⟩
  refine hStep.trans (Fused.addLinkBy (T := fun u => u = t) hMerge hStep.freeListed rfl hAdd) ?_
  rintro u rfl
  exact ⟨u, hLinks f u ((links.get?_eq_some_iff f u).mpr hMem), Or.inl rfl⟩

-- Merging

variable {g₁ g₂ : Graph} {m : Node}

/-
  Types and links are put in place after some steps: those of a node that
  was there before.
-/
theorem Fused.replay
    (hBefore : Fused g g₁ T)
    (hMerge : Derives merge)
    (hSlot : g.slot id = .live m)
    (hTypes : g₁.replayTypes this offset m.types = .ok g₂)
    (hLinks : Graph.replayLinks merge g₂ this offset m.links = .ok h) :
    Fused g h T := by
  have hTyped := hBefore.before (.replayTypes hBefore.freeListed hTypes)
  refine hTyped.trans (Fused.replayLinks (T := fun u => ∃ f, m.links.get? f = some u)
    hMerge hTyped.freeListed
    (fun f t hGet => Or.inr ⟨f, hGet⟩) hLinks) ?_
  rintro u ⟨f, hGet⟩
  exact ⟨u, Or.inl ⟨id, m, f, hSlot, hGet⟩, Or.inl rfl⟩

theorem Fused.absorb
    (hMerge : Derives merge)
    (hg : g.FreeListed)
    (hThis : g.slot this = .live n)
    (hOther : g.slot other = .live m)
    (hne : this ≠ other)
    (hRun : absorb merge g this other offset = .ok h) :
    Fused g h T := by
  rw [absorb_eq hThis hOther hne] at hRun
  rcases of_bind hRun with ⟨g₂, hTypes, hLinks⟩
  have hTaken : Fused g _ T :=
    ⟨.takenOver hg hThis hOther hne offset, .single (.absorb hThis hOther hne offset)⟩
  exact hTaken.replay hMerge hOther hTypes hLinks

variable {rep : NodeId}

theorem Fused.findNode
    (hg : g.FreeListed)
    (hRun : g.findNode id = .ok (rep, h)) :
    Fused g h T ∧ ∃ n, h.slot rep = .live n := by
  rcases findNode_eq_ok hRun with ⟨k, hLeads, hs⟩
  rcases hLeads.live_end with ⟨n, hLive⟩
  exact ⟨.shortened hg hs, n, hs.live_iff.mpr hLive⟩

/- A node is emptied, and types and links are put back. -/
theorem Fused.rebuild
    (hMerge : Derives merge)
    (hg : g.FreeListed)
    (hSlot : g.slot id = .live n)
    {bare : Node}
    (hTypes : (g.setSlot id (.live bare)).replayTypes id 0 n.types = .ok g₁)
    (hLinks : Graph.replayLinks merge g₁ id 0 n.links = .ok h)
    (hn : n.Steady bare)
    (hBare : bare.links = OrdMap.empty)
    (hSites : bare.allocSites = n.allocSites) :
    Fused g h T := by
  have hEmpty : Fused g (g.setSlot id (.live bare)) T := by
    refine .setLive hg hSlot hn hSites ?_
    intro f u hGet
    rw [hBare] at hGet
    cases hGet
  exact hEmpty.replay hMerge hSlot hTypes hLinks

theorem Fused.collapseBy
    (hMerge : Derives merge)
    (hg : g.FreeListed)
    (hRun : collapseBy merge g id = .ok (rep, h)) :
    Fused g h T ∧ ∃ n, h.slot rep = .live n := by
  unfold Graph.collapseBy at hRun
  rcases of_bind hRun with ⟨⟨r, g₁⟩, hFind, hRun⟩
  rcases of_bind hRun with ⟨m, hContents, hRun⟩
  rcases Fused.findNode (T := T) hg hFind with ⟨hFound, n, hSlot⟩
  rcases eq_of_contents hSlot hContents with rfl
  have hg₁ := hFound.freeListed
  dsimp only at hRun
  split at hRun
  · cases hRun
    exact ⟨hFound, m, hSlot⟩
  · split at hRun
    · rw [setContents_of_live hSlot, ok_bind] at hRun
      rcases of_bind hRun with ⟨g₂, hTypes, hRun⟩
      rcases of_bind hRun with ⟨g₃, hLinks, hLast⟩
      have hBare : m.Steady { m with
          flags := (m.flags.insert .offsetCollapsed).erase .array
          size := 1
          types := OrdMap.empty
          links := OrdMap.empty } := by
        constructor
        · simp [Node.isForeign, Flags.has_erase, Flags.has_insert]
        · simp [Node.isCollapsed, Flags.has_erase, Flags.has_insert]
      have hLinked := hFound.before (.rebuild hMerge hg₁ hSlot hTypes hLinks hBare rfl rfl)
      rcases Fused.findNode (T := fun _ => False) hLinked.freeListed hLast with ⟨hEnd, hLive⟩
      exact ⟨hLinked.before hEnd, hLive⟩
    · rcases of_bind hRun with ⟨g₂, hAbsorb, hLast⟩
      rcases hg₁.standIn hSlot with ⟨hne, hFresh, hOld⟩
      change Graph.absorb merge g₁.makeStandIn.2 g₁.makeStandIn.1 r 0 = _ at hAbsorb
      rw [absorb_eq hFresh hOld hne] at hAbsorb
      rcases of_bind hAbsorb with ⟨g₃, hTypes, hLinks⟩
      have hAll := hFound.before ((Fused.replaced hg₁ hSlot).replay hMerge hSlot hTypes hLinks)
      rcases Fused.findNode (T := fun _ => False) hAll.freeListed hLast with ⟨hEnd, hLive⟩
      exact ⟨hAll.before hEnd, hLive⟩

theorem Fused.collapseThenMerge
    (hMerge : Derives merge)
    (hg : g.FreeListed)
    (hRun : collapseThenMerge merge g this other = .ok h) :
    Fused g h T := by
  unfold Graph.collapseThenMerge at hRun
  rcases of_bind hRun with ⟨⟨rep, g₁⟩, hCollapse, hRun⟩
  have hFirst := (Fused.collapseBy (T := T) hMerge hg hCollapse).1
  exact hFirst.before (hMerge _ _ _ _ _ hFirst.freeListed hRun)

/- A node that grows before it absorbs another. -/
theorem Fused.resize_absorb
    (hMerge : Derives merge)
    (hg : g.FreeListed)
    (hThis : g.slot this = .live n)
    (hOther : g.slot other = .live m)
    (hne : this ≠ other)
    {size : Nat}
    (hRun : (do
      Graph.absorb merge (← g.setContents this { n with size := size })
        this other offset) = .ok h) :
    Fused g h T := by
  rw [setContents_of_live hThis, ok_bind] at hRun
  have hLt := lt_size_of_live hThis
  have hSteady : n.Steady { n with size := size } := .of_flags rfl
  have hGrown := Fused.setLive_of_same_links (T := T) hg hThis hSteady rfl rfl
  have hHere := slot_setSlot hLt (.live { n with size := size }) this
  have hThere := slot_setSlot hLt (.live { n with size := size }) other
  rw [if_pos rfl] at hHere
  rw [if_neg hne.symm, hOther] at hThere
  exact hGrown.before (.absorb hMerge hGrown.freeListed hHere hThere hne hRun)

theorem live_of_mergeable
    {a b : NodeId}
    (hRun : g.mergeable id a b = .ok n) :
    g.slot id = .live n := by
  unfold mergeable at hRun
  split at hRun
  · next hSlot =>
    cases hRun
    exact hSlot
  · cases hRun
  · cases hRun

theorem Fused.mergeAt
    (hMerge : Derives merge)
    (hg : g.FreeListed)
    (hRun : mergeAt merge g this other offset = .ok h) :
    Fused g h T := by
  unfold Graph.mergeAt at hRun
  rcases of_bind hRun with ⟨n, hN, hRun⟩
  rcases of_bind hRun with ⟨m, hM, hRun⟩
  have hThis := live_of_mergeable hN
  have hOther := live_of_mergeable hM
  split at hRun
  · split at hRun
    · cases hRun
      exact .refl hg
    · rcases of_bind hRun with ⟨⟨rep, g₁⟩, hCollapse, hEnd⟩
      cases hEnd
      exact (Fused.collapseBy hMerge hg hCollapse).1
  · next hne =>
    split at hRun
    · exact .collapseThenMerge hMerge hg hRun
    · split at hRun
      · exact .absorb hMerge hg hThis hOther hne hRun
      · split at hRun
        · split at hRun
          · exact .absorb hMerge hg hOther hThis (fun hEq => hne hEq.symm) hRun
          · exact .collapseThenMerge hMerge hg hRun
        · dsimp only at hRun
          split at hRun
          · exact .collapseThenMerge hMerge hg hRun
          · split at hRun
            · exact .collapseThenMerge hMerge hg hRun
            · exact .resize_absorb hMerge hg hThis hOther hne hRun
        · generalize (if n.size = 0 then offset
            else offset % n.size) = inner at hRun
          dsimp only at hRun
          split at hRun
          · exact .absorb hMerge hg hThis hOther hne hRun
          · rcases of_bind hRun with ⟨reach, _, hRun⟩
            split at hRun
            · exact .collapseThenMerge hMerge hg hRun
            · exact .absorb hMerge hg hThis hOther hne hRun
        · rcases of_bind hRun with ⟨reach, _, hRun⟩
          exact .resize_absorb hMerge hg hThis hOther hne hRun

theorem derives_unifyBy
    (hMerge : Derives merge) :
    Derives (unifyBy merge) := by
  intro g a b h T hg hRun
  unfold unifyBy at hRun
  rcases of_bind hRun with ⟨⟨a', g₁⟩, hFindA, hRun⟩
  rcases of_bind hRun with ⟨⟨b', g₂⟩, hFindB, hRun⟩
  rcases of_bind hRun with ⟨na, _, hRun⟩
  rcases of_bind hRun with ⟨nb, _, hRun⟩
  have hFirst := (Fused.find (T := T) hg hFindA).1
  have hBoth := hFirst.before (Fused.find hFirst.freeListed hFindB).1
  have hg₂ := hBoth.freeListed
  dsimp only at hRun
  split at hRun
  · split at hRun
    · cases hRun
      exact hBoth
    · rcases of_bind hRun with ⟨⟨rep, g₃⟩, hCollapse, hEnd⟩
      cases hEnd
      exact hBoth.before (Fused.collapseBy hMerge hg₂ hCollapse).1
  · split at hRun
    · exact hBoth.before (.mergeAt hMerge hg₂ hRun)
    · exact hBoth.before (.mergeAt hMerge hg₂ hRun)

theorem derives_unifyWithin
    (fuel : Nat) :
    Derives (unifyWithin fuel) := by
  induction fuel with
  | zero =>
    intro g a b h T _ hRun
    cases hRun
  | succ fuel ih => exact derives_unifyBy ih

-- Operations

variable {a b : Cell}

theorem Fused.unify
    (hg : g.FreeListed)
    (hRun : g.unify a b = .ok h) :
    Fused g h T :=
  derives_unifyWithin _ g a b h T hg hRun

theorem Fused.addLink
    (hg : g.FreeListed)
    (ht : T t)
    (hRun : g.addLink c type? t = .ok h) :
    Fused g h T :=
  .addLinkBy (derives_unifyWithin _) hg ht hRun

theorem Fused.setArray
    (hg : g.FreeListed)
    {stride : Nat}
    (hRun : g.setArray id stride = .ok h) :
    Fused g h T := by
  have hMerge := derives_unifyWithin g.mergeBound
  rcases of_setArray hRun with ⟨g₁, r, k, m, hs, _, hSlot, hCases⟩
  have hFound := Fused.shortened (T := T) hg hs
  have hg₁ := hFound.freeListed
  rcases hCases with rfl | ⟨rep, hCollapse⟩ | ⟨_, _, g₂, hTypes, hLinks⟩
  · exact hFound
  · exact hFound.before (Fused.collapseBy hMerge hg₁ hCollapse).1
  · refine hFound.before (.rebuild hMerge hg₁ hSlot hTypes hLinks ⟨?_, ?_⟩ rfl rfl)
    · simp [Node.isForeign, Flags.has_insert]
    · simp [Node.isCollapsed, Flags.has_insert]

variable {f : Node → Node}

/- A change of a node is a look-up and a change of a slot. -/
theorem modifyNode_eq_setSlot
    (hRun : g.modifyNode id f = .ok h) :
    ∃ g₁ r k n, Shortened g g₁ ∧ g.Leads id r k ∧ g₁.slot r = .live n ∧
      h = g₁.setSlot r (.live (f n)) := by
  unfold Graph.modifyNode at hRun
  rcases of_bind hRun with ⟨⟨r, g₁⟩, hFind, hRun⟩
  rcases findNode_eq_ok hFind with ⟨k, hLeads, hs⟩
  rcases hLeads.live_end with ⟨n, hLive⟩
  have hSlot := hs.live_iff.mpr hLive
  dsimp only at hRun
  rw [modifyContents_of_live hSlot] at hRun
  cases hRun
  exact ⟨g₁, r, k, n, hs, hLeads, hSlot, rfl⟩

theorem Rewired.modifyNode
    (hg : g.FreeListed)
    (hf : ∀ n, (f n).links = n.links)
    (hRun : g.modifyNode id f = .ok h) :
    Rewired g h T := by
  rcases modifyNode_eq_setSlot hRun with ⟨g₁, r, k, n, hs, _, hSlot, rfl⟩
  have hFound := Fused.shortened (T := T) hg hs
  exact hFound.toRewired.trans (.setLive_of_same_links (T := fun _ => False)
      hFound.freeListed hSlot _ (hf n))
    fun _ hNone => hNone.elim

/- Sites of the kind may be noted at nodes of the set. -/
theorem Confined.modifyNode
    {P : AllocSite → Prop}
    {Y : NodeId → Prop}
    (hAll : g.Confined P Y)
    (hg : g.FreeListed)
    (hNew : ∀ n s, s ∈ (f n).allocSites → P s → s ∈ n.allocSites ∨ Y id)
    (hRun : g.modifyNode id f = .ok h) :
    h.Confined P Y := by
  rcases modifyNode_eq_setSlot hRun with ⟨g₁, r, k, n, hs, hLeads, hSlot, rfl⟩
  have hFound := (Fused.shortened (T := fun _ => False) hg hs).confined P Y hAll
  refine hFound.setLive hSlot fun s hs' hP => ?_
  rcases hNew n s hs' hP with hOld | hHere
  · exact Or.inl hOld
  · exact Or.inr ⟨id, k, hHere, hs.leads hLeads⟩

end Graph

end HeapShape
