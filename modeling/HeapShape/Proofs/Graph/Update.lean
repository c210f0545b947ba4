import HeapShape.Proofs.Graph.Unify

/-
  The operations that change a graph are sound.

  The operations of the merging kind keep all links; with `E`, to their
  fields and addresses. Making an array is the one that folds fields anew,
  so it is sound at the level of nodes only.

  Main declarations:
    * `Graph.Sound.unify`
    * `Graph.Sound.makeLink`
    * `Graph.Sound.bindRoot`
    * `Graph.Sound.modifyNode`
-/

-- Merging Operations

namespace HeapShape

open Checked

namespace Graph

variable {E : Prop} {g h : Graph} {a b c t : Cell} {type? : Option TypeTag} {id : NodeId}

/- Unification makes its cells one address. -/
theorem Sound.unify
    (hg : g.WellFormed)
    (hRun : g.unify a b = .ok h) :
    Sound E g h fun last => LinksHold E g last ∧ last.SameNode a b ∧
      (E → last.SameAddress a b) :=
  unites_unifyWithin _ E g a b h hg hRun

/- A new link leads from its field to its target. -/
theorem Sound.addLink
    (hg : g.WellFormed)
    (hRun : g.addLink c type? t = .ok h) :
    Sound E g h fun last => LinksHold E g last ∧ last.Linked E c type? t :=
  Sound.addLinkBy (unites_unifyWithin _) hg hRun

/- A collapse loses no link. -/
theorem Sound.collapse
    (hg : g.WellFormed)
    {rep : NodeId}
    (hRun : g.collapse id = .ok (rep, h)) :
    Sound E g h fun last => LinksHold E g last :=
  (Sound.collapseBy (unites_unifyWithin _) hg hRun).1

variable {n : Node}

/- A node is turned into an array of another stride. -/
theorem Sound.resetArray
    (hg : g.WellFormed)
    (hSlot : g.slot id = .live n)
    (hNot : n.isCollapsed = false)
    (size : Nat)
    (hPos : 0 < size)
    (hLt : size < wordBound)
    (hGrow : n.isArray = true → n.size ≤ size) :
    Sound False g (g.setSlot id (.live { n with
        flags := n.flags.insert .array
        size := size
        types := OrdMap.empty
        links := OrdMap.empty }))
      fun last =>
        NodeLinked False last n (Cell.start id) → LinksHold False g last := by
  generalize hNew : ({ n with
    flags := n.flags.insert .array
    size := size
    types := OrdMap.empty
    links := OrdMap.empty } : Node) = n'
  have hFlags : ∀ f, n'.flags.has f = (n.flags.has f || decide (Flag.array = f)) := by
    intro f
    subst hNew
    exact Flags.has_insert _ _ _
  have hCollapsed : n'.isCollapsed = false := by
    rw [Node.isCollapsed, hFlags]
    change (n.isCollapsed || _) = false
    rw [hNot]
    decide
  have hArray : n'.isArray = true := by
    rw [Node.isArray, hFlags]
    simp
  have hSize : n'.size = size := by rw [← hNew]
  have hNoLinks : n'.links = OrdMap.empty := by rw [← hNew]
  have hNoTypes : n'.types = OrdMap.empty := by rw [← hNew]
  have hStep := Sound.setLive (E := False) hg hSlot (Node.wellFormed_of_bare (hSize ▸ hLt)
      (fun h => by rw [hCollapsed] at h; cases h)
      (fun h => by rw [hCollapsed] at h; cases h)
      (fun _ => hSize ▸ hPos) hNoLinks hNoTypes)
    { collapsed := fun h => by rw [hNot] at h; cases h
      array := fun _ => Or.inl hArray
      stride := fun h _ => hSize ▸ hGrow h
      folded := fun _ => rfl
      word := (hg.nodes _ _ hSlot).size_lt
      inside := fun _ h => by
        rw [Node.isPlain_iff, hArray] at h
        cases h.2
      flags := fun f _ _ h => by rw [hFlags, h]; rfl
      sites := fun s hs => by subst hNew; exact hs
      scalar := by subst hNew; exact .refl _ }
    False.elim
    (fun f u hGet => by rw [hNoLinks] at hGet; cases hGet)
  exact hStep.imp fun _ _ _ _ hAll => hAll.1

theorem Sound.setArray
    (hg : g.WellFormed)
    {stride : Nat}
    (hStride : stride < wordBound)
    (hRun : g.setArray id stride = .ok h) :
    Sound False g h fun last => LinksHold False g last := by
  have hMerge := unites_unifyWithin g.mergeBound
  rcases of_setArray hRun with ⟨g₁, r, k, m, hs, _, hSlot, hCases⟩
  have hFound := Sound.shortened (E := False) hg hs
  have hg₁ := hFound.wellFormed
  rcases hCases with rfl | ⟨rep, hCollapse⟩ | ⟨hWhole, _, g₂, hTypes, hLinks⟩
  · exact hFound
  · exact hFound.before (Sound.collapseBy hMerge hg₁ hCollapse).1
  · apply hFound.before
    have hReset := Sound.resetArray hg₁ hSlot hWhole
      (if m.isArray then max m.size stride else stride)
      (by split <;> omega)
      (by
        have hLt := (hg₁.nodes _ _ hSlot).size_lt
        split <;> omega)
      (by
        intro h
        rw [if_pos h]
        exact Nat.le_max_left _ _)
    have hTyped := Sound.replayTypes (E := False) hReset.wellFormed hTypes
    have hReplay := hTyped.then
      (Sound.replayLinks (c := Cell.start r) hMerge hTyped.wellFormed hLinks)
    apply (hReset.trans hReplay).imp
    rintro last _ _ _ ⟨hOwed, hPaid⟩
    exact hOwed hPaid

/- A fresh node without flags. -/
theorem Sound.createBlank
    (hg : g.WellFormed) :
    Sound E g g.createBlank.2 fun last => LinksHold E g last :=
  Sound.createNode hg Flags.empty 0 (Node.wellFormed_of_bare (by decide) (fun _ => by decide)
      (fun h => absurd h (by decide))
      (fun h => absurd h (by decide)) rfl rfl)
    fun _ => by decide

theorem Sound.makeLink
    (hg : g.WellFormed)
    (hRun : g.makeLink c type? = .ok (t, h)) :
    Sound E g h fun last => LinksHold E g last := by
  unfold Graph.makeLink at hRun
  rcases of_bind hRun with ⟨found, _, hRun⟩
  cases found with
  | some target =>
    cases hRun
    exact .refl hg
  | none =>
    dsimp only at hRun
    rcases of_bind hRun with ⟨g₂, hAdd, hFind⟩
    have hFresh := Sound.createBlank (E := E) hg
    have hAdded := (Sound.addLink (E := E) hFresh.wellFormed hAdd).imp fun _ _ _ _ hAll => hAll.1
    have hFound := (Sound.find (E := E) hAdded.wellFormed hFind).1.imp fun _ _ _ _ hAll => hAll.1
    exact (hFresh.before hAdded).before hFound

-- Changing One Node

/-
  A change of what is known of a node, apart from its types and links and
  how it reads offsets.
-/
structure Enriches
    (config : GraphConfig)
    (n n' : Node) : Prop where
  wellFormed : n.WellFormed config → n'.WellFormed config
  stands : n.WellFormed config → n.StandsFor n' 0
  array : n'.isArray = true → n.isArray = true
  links : n'.links = n.links

variable {node : NodeId} {config : GraphConfig} {n' : Node} {f : Node → Node}

/- Facts are added; offsets are read as before. -/
theorem Enriches.of_facts
    (hFlags : ∀ f, n.flags.has f = true → n'.flags.has f = true)
    (hCollapsed : n'.isCollapsed = n.isCollapsed)
    (hArray : n'.isArray = n.isArray)
    (hSize : n'.size = n.size)
    (hTypes : n'.types = n.types)
    (hLinks : n'.links = n.links)
    (hSites : ∀ s, s ∈ n.allocSites → s ∈ n'.allocSites)
    (hScalar : n.uniqueScalar.Follows n'.uniqueScalar) :
    Enriches config n n' where
  wellFormed := by
    intro hn
    apply hn.update hCollapsed hArray (Nat.le_of_eq hSize.symm)
    · rw [hSize]
      exact hn.size_lt
    · exact fun _ => hSize
    · intro f t hGet
      rw [hLinks] at hGet
      exact Or.inl hGet
    · intro o ts hGet
      rw [hTypes] at hGet
      exact Or.inl ⟨ts, hGet⟩
  stands := fun hn =>
    { toLiesIn := .of_same_kind hCollapsed hArray (Nat.le_of_eq hSize.symm) hn.size_lt
      flags := fun f _ _ => hFlags f
      sites := hSites
      scalar := hScalar }
  array := fun h => hArray ▸ h
  links := hLinks

/- Only sites, call paths or the unique scalar change. -/
theorem Enriches.of_notes
    (hFlags : n'.flags = n.flags)
    (hSize : n'.size = n.size)
    (hTypes : n'.types = n.types)
    (hLinks : n'.links = n.links)
    (hSites : ∀ s, s ∈ n.allocSites → s ∈ n'.allocSites)
    (hScalar : n.uniqueScalar.Follows n'.uniqueScalar) :
    Enriches config n n' :=
  .of_facts (fun _ h => hFlags ▸ h) (by unfold Node.isCollapsed; rw [hFlags])
    (by unfold Node.isArray; rw [hFlags])
    hSize hTypes hLinks hSites hScalar

theorem Enriches.trans
    {n'' : Node}
    (h : Enriches config n n')
    (h' : Enriches config n' n'') :
    Enriches config n n'' where
  wellFormed := fun hn => h'.wellFormed (h.wellFormed hn)
  stands := by
    intro hn
    have hn' := h.wellFormed hn
    exact (h.stands hn).trans (h'.stands hn') (h'.wellFormed hn').collapsed_not_array
  array := fun hArray => h.array (h'.array hArray)
  links := h'.links.trans h.links

/- Facts can be added one after the other. -/
theorem Enriches.foldl
    {α : Type}
    {f : Node → α → Node}
    (hf : ∀ n a, Enriches config n (f n a))
    (xs : List α)
    (n : Node) :
    Enriches config n (xs.foldl f n) := by
  induction xs generalizing n with
  | nil => exact .of_notes rfl rfl rfl rfl (fun _ => id) (.refl _)
  | cons x xs ih => exact (hf n x).trans (ih (f n x))

/- Changing the contents of a live slot. -/
theorem Sound.modifyContents
    (hg : g.WellFormed)
    (hSlot : g.slot node = .live n)
    (hf : Enriches g.config n (f n))
    (hRun : g.modifyContents node f = .ok h) :
    Sound E g h fun last => LinksHold E g last := by
  rw [modifyContents_of_live hSlot] at hRun
  cases hRun
  have hn := hg.nodes _ _ hSlot
  exact Sound.setLive_of_same_links hg hSlot (hf.wellFormed hn) (hf.stands hn) (fun _ => hf.array)
    hf.links

/- Changing the node that stands for a slot. -/
theorem Sound.modifyNode
    (hg : g.WellFormed)
    (hf : ∀ n, n.WellFormed g.config → Enriches g.config n (f n))
    (hRun : g.modifyNode node f = .ok h) :
    Sound E g h fun last => LinksHold E g last := by
  unfold Graph.modifyNode at hRun
  rcases of_bind hRun with ⟨⟨r, g₁⟩, hFind, hRun⟩
  rcases findNode_eq_ok hFind with ⟨k, hLeads, hs⟩
  rcases hLeads.live_end with ⟨n, hLive⟩
  have hFound := Sound.shortened (E := E) hg hs
  have hn := hf n (hg.nodes _ _ hLive)
  rw [← hs.config] at hn
  exact hFound.before (Sound.modifyContents hFound.wellFormed (hs.live_iff.mpr hLive) hn hRun)

theorem Sound.addFlags
    (hg : g.WellFormed)
    {flags : Flags}
    (hRun : g.addFlags node flags = .ok h) :
    Sound E g h fun last => LinksHold E g last := by
  refine Sound.modifyNode hg (fun n _ => ?_) hRun
  have hHas : ∀ f, (n.flags.union ((flags.erase
      .array).erase .offsetCollapsed)).has f = (n.flags.has f || (flags.has f &&
          !decide (Flag.array = f) &&
          !decide (Flag.offsetCollapsed = f))) := by
    intro f
    rw [Flags.has_union, Flags.has_erase, Flags.has_erase]
  apply Enriches.of_facts
  · intro f hf
    rw [hHas, hf]
    rfl
  · exact (hHas _).trans (by simp [Node.isCollapsed])
  · exact (hHas _).trans (by simp [Node.isArray])
  · rfl
  · rfl
  · rfl
  · exact fun _ => id
  · exact .refl _

theorem Sound.growSize
    (hg : g.WellFormed)
    {size : Nat}
    (hSize : size < wordBound)
    (hRun : g.growSize node size = .ok h) :
    Sound E g h fun last => LinksHold E g last := by
  refine Sound.modifyNode hg (fun n hn => ?_) hRun
  split
  · next hPlain =>
    have hGrow : n.size ≤ max n.size size := Nat.le_max_left _ _
    constructor
    · intro hn
      apply hn.update
      · rfl
      · rfl
      · exact hGrow
      · exact Nat.max_lt.mpr ⟨hn.size_lt, hSize⟩
      · intro hCollapsed
        rw [(Node.isPlain_iff.mp hPlain).1] at hCollapsed
        cases hCollapsed
      · exact fun f t hGet => Or.inl hGet
      · exact fun o ts hGet => Or.inl ⟨ts, hGet⟩
    · intro hn
      exact .of_same_facts hn.size_lt rfl hGrow rfl rfl
    · exact id
    · rfl
  · exact .of_notes rfl rfl rfl rfl (fun _ => id) (.refl _)

theorem Sound.addAllocSite
    (hg : g.WellFormed)
    {site : AllocSite}
    (hRun : g.addAllocSite node site = .ok h) :
    Sound E g h fun last => LinksHold E g last := by
  refine Sound.modifyNode hg (fun n _ => ?_) hRun
  refine .of_notes rfl rfl rfl rfl (fun s hs => ?_) (.refl _)
  exact (OrdSet.mem_insert_iff _ _ _).mpr (Or.inr hs)

theorem Sound.clearUniqueScalar
    (hg : g.WellFormed)
    (hRun : g.clearUniqueScalar node = .ok h) :
    Sound E g h fun last => LinksHold E g last := by
  refine Sound.modifyNode hg (fun n _ => ?_) hRun
  exact .of_notes rfl rfl rfl rfl (fun _ => id) (UniqueScalar.follows_clear _)

-- Binding Roots

/- Binding a root changes no slot. -/
theorem Sound.insertRoot
    (hg : g.WellFormed)
    (r : Root)
    (hc : g.Has c) :
    Sound E g { g with roots := g.roots.insert r c } fun last => LinksHold E g last :=
  .of_same_slots hg (hg.insertRoot r hc) rfl rfl

variable {r : Root} {init? : Option Cell} {v : ValueId}

/- The cell of a root is found in a live node. -/
theorem Sound.rootTarget
    (hg : g.WellFormed)
    (hRun : g.rootTarget r init? = .ok (c, h)) :
    Sound E g h (fun last => LinksHold E g last) ∧ ∃ n, h.slot c.node = .live n := by
  unfold Graph.rootTarget at hRun
  split at hRun
  · rcases of_bind hRun with ⟨g₁, hUnify, hFind⟩
    have hUnited := (Sound.unify (E := E) hg hUnify).imp fun _ _ _ _ hAll => hAll.1
    rcases Sound.find (E := E) hUnited.wellFormed hFind with ⟨hFound, _, n, _, hSlot⟩
    exact ⟨hUnited.before (hFound.imp fun _ _ _ _ hAll => hAll.1), n, hSlot⟩
  · rcases Sound.find (E := E) hg hRun with ⟨hFound, _, n, _, hSlot⟩
    exact ⟨hFound.imp fun _ _ _ _ hAll => hAll.1, n, hSlot⟩
  · rcases of_bind hRun with ⟨⟨d, g₁⟩, hFind, hRun⟩
    cases hRun
    rcases Sound.find (E := E) hg hFind with ⟨hFound, hWord, n, _, hSlot⟩
    refine ⟨?_, n, hSlot⟩
    apply (hFound.imp fun _ _ _ _ hAll => hAll.1).before
    exact Sound.insertRoot hFound.wellFormed r ⟨hasNode_of_live hSlot, hWord⟩
  · cases hRun
    have hFresh := Sound.createBlank (E := E) hg
    have hSlot := (hg.slot_createNode Flags.empty 0).2 (g.createNode Flags.empty 0).1
    rw [if_pos rfl] at hSlot
    have hZero : 0 < wordBound := by decide
    refine ⟨?_, _, hSlot⟩
    apply hFresh.before
    exact Sound.insertRoot hFresh.wellFormed r ⟨hasNode_of_live hSlot, hZero⟩

/- Noting a value at a live node. -/
theorem Sound.noteUniqueScalar
    (hg : g.WellFormed)
    (hSlot : g.slot c.node = .live n)
    (hRun : g.noteUniqueScalar v c = .ok h) :
    Sound E g h fun last => LinksHold E g last := by
  refine Sound.modifyContents hg hSlot ?_ hRun
  refine .of_notes rfl rfl rfl rfl (fun _ => id) ?_
  dsimp only
  split
  · exact UniqueScalar.follows_record _ v
  · exact UniqueScalar.follows_clear _

theorem Sound.bindRoot
    (hg : g.WellFormed)
    (hRun : g.bindRoot r init? = .ok (c, h)) :
    Sound E g h fun last => LinksHold E g last := by
  rcases of_bindRoot hRun with ⟨g₁, hTarget, hNote⟩
  rcases Sound.rootTarget (E := E) hg hTarget with ⟨hStep, n, hSlot⟩
  rcases hNote with rfl | ⟨v, hNote⟩
  · exact hStep
  · exact hStep.before (Sound.noteUniqueScalar hStep.wellFormed hSlot hNote)

theorem Sound.valueCell
    (hg : g.WellFormed)
    (hRun : g.valueCell v = .ok (c, h)) :
    Sound E g h fun last => LinksHold E g last := by
  unfold Graph.valueCell at hRun
  split at hRun
  · exact (Sound.find (E := E) hg hRun).1.imp fun _ _ _ _ hAll => hAll.1
  · exact Sound.bindRoot hg hRun

end Graph

end HeapShape
