import HeapShape.Graph.Copy
import HeapShape.Proofs.Graph.Update

/-
  Copying keeps graphs well-formed.

  A copier never changes its source. The copy of a node has the flags, the
  size and the types of the original, so it is well-formed as the original
  is; its links are added by the operations of the destination graph.

  Main declarations:
    * `Copier.WellFormed`
    * `Copier.WellFormed.copyCell`
    * `Copier.WellFormed.copyNode`
    * `Graph.WellFormed.importFrom`
-/

-- What Copying Does

namespace HeapShape

open Checked

namespace Copier

variable {k k' : Copier} {node src copy : NodeId} {force : Bool}

/- A copy is made, typed and given its sites. -/
theorem copyContents_eq_ok
    (hRun : k.copyContents src force = .ok (copy, k')) :
    ∃ n flags dest k₁, k.source.contents src = .ok n ∧
      flags = (if k.options.markForeign then
        n.flags.insert .foreign else n.flags.erase .foreign) ∧
      copy = (k.dest.createNode flags n.size).1 ∧
      (k.dest.createNode flags n.size).2.modifyContents copy
        (fun m => { m with types := n.types }) = .ok dest ∧
      addSites { k with dest := dest } copy (sitesOf { k with dest := dest } n force) = .ok k₁ ∧
      k' = { k₁ with copies := k₁.copies.insert src copy } := by
  unfold copyContents at hRun
  rcases of_bind hRun with ⟨n, hContents, hRun⟩
  dsimp only at hRun
  rcases of_bind hRun with ⟨dest, hTypes, hRun⟩
  rcases of_bind hRun with ⟨k₁, hSites, hRun⟩
  cases hRun
  exact ⟨n, _, dest, k₁, hContents, rfl, rfl, hTypes, hSites,
    rfl⟩

variable {stack stack' : List NodeId} {link : Field × Cell} {fuel : Nat} {c : Cell}

/- The target of a link is copied now unless it has a copy. -/
theorem copyLink_eq_ok
    (hRun : copyLink copy (k, stack) link = .ok (k', stack')) :
    ∃ u c k₁ dest, k.source.resolve link.2 = .ok u ∧
      (k.copies.get? u.node = some c ∧ k₁ = k ∧
          stack' = stack ∨ k.copies.get? u.node = none ∧
          k.copyContents u.node false = .ok (c, k₁) ∧
          stack' = u.node :: stack) ∧
      k₁.dest.addLink { node := copy, offset := link.1.offset } link.1.type?
        { node := c, offset := u.offset } = .ok dest ∧
      k' = { k₁ with dest := dest } := by
  unfold copyLink at hRun
  rcases of_bind hRun with ⟨u, hResolve, hRun⟩
  dsimp only at hRun
  split at hRun
  · next c hCopy =>
    rw [pure_bind] at hRun
    rcases of_bind hRun with ⟨dest, hAdd, hRun⟩
    cases hRun
    exact ⟨u, c, k, dest, hResolve, Or.inl ⟨hCopy, rfl, rfl⟩, hAdd, rfl⟩
  · next hNone =>
    rcases of_bind hRun with ⟨⟨c, k₁⟩, hMake, hRun⟩
    rw [pure_bind] at hRun
    rcases of_bind hRun with ⟨dest, hAdd, hRun⟩
    cases hRun
    exact ⟨u, c, k₁, dest, hResolve, Or.inr ⟨hNone, hMake, rfl⟩, hAdd, rfl⟩

/- What copying one link keeps is kept by copying all. -/
theorem copyLinksWithin_keeps
    {P : Copier → Prop}
    (hLink : ∀ copy k stack link k' stack', P k →
      copyLink copy (k, stack) link = .ok (k', stack') → P k')
    (hk : P k)
    (hRun : copyLinksWithin fuel k stack = .ok k') :
    P k' := by
  induction fuel generalizing k stack with
  | zero =>
    cases stack with
    | nil =>
      cases hRun
      exact hk
    | cons src rest => cases hRun
  | succ fuel ih =>
    cases stack with
    | nil =>
      cases hRun
      exact hk
    | cons src rest =>
      rw [copyLinksWithin] at hRun
      rcases of_bind hRun with ⟨n, _, hRun⟩
      rcases of_bind hRun with ⟨⟨k₁, stack₁⟩, hFold, hRun⟩
      refine ih ?_ hRun
      refine foldlM_induction (P := fun state => P state.1) ?_ hk hFold
      rintro ⟨k₂, stack₂⟩ link _ ⟨k₃, stack₃⟩ hk₂ hStep
      exact hLink _ k₂ stack₂ link k₃ stack₃ hk₂ hStep

/- A copier that notes whether a node is copied by force. -/
def noting
    (k : Copier)
    (src : NodeId)
    (force : Bool) : Copier :=
  if force then { k with forced := k.forced.insert src }
  else k

/-
  A node without a copy is copied with all that it reaches. The copy of
  another is given the sites it lacks if that is forced for the first time.
-/
theorem copyOf_eq_ok
    (hRun : k.copyOf node force = .ok (copy, k')) :
    ∃ u, k.source.resolve (Cell.start node) = .ok u ∧
      ((k.copies.get? u.node = some copy ∧ (force && k.options.stripAllocas &&
            !k.forced.contains u.node) = true ∧
          ∃ n, k.source.contents u.node = .ok n ∧ addSites
              { k with forced := k.forced.insert u.node } copy
              (sitesOf { k with forced := k.forced.insert u.node } n true) = .ok k') ∨
        (k.copies.get? u.node = some copy ∧ (force && k.options.stripAllocas &&
            !k.forced.contains u.node) = false ∧ k' = k) ∨
        (k.copies.get? u.node = none ∧ ∃ k₁, (k.noting u.node force).copyContents u.node
              force = .ok (copy, k₁) ∧
            copyLinksWithin (k₁.source.slots.size + 1) k₁ [u.node] = .ok k')) := by
  unfold copyOf at hRun
  rcases of_bind hRun with ⟨u, hResolve, hRun⟩
  refine ⟨u, hResolve, ?_⟩
  dsimp only at hRun
  split at hRun
  · next existing hCopy =>
    split at hRun
    · next hForce =>
      rcases of_bind hRun with ⟨n, hContents, hRun⟩
      rcases of_bind hRun with ⟨k₁, hSites, hRun⟩
      cases hRun
      exact Or.inl ⟨hCopy, hForce, n, hContents, hSites⟩
    · next hNot =>
      cases hRun
      exact Or.inr (Or.inl ⟨hCopy, Bool.eq_false_iff.mpr hNot, rfl⟩)
  · next hNone =>
    rcases of_bind hRun with ⟨⟨fresh, k₁⟩, hMake, hRun⟩
    rcases of_bind hRun with ⟨k₂, hLinks, hRun⟩
    cases hRun
    exact Or.inr (Or.inr ⟨hNone, k₁, hMake, hLinks⟩)

/- The image of a cell is looked up in the destination. -/
theorem copyCell_eq_ok
    {image : Cell}
    (hRun : k.copyCell c force = .ok (image, k')) :
    ∃ u copy k₁ dest, k.source.resolve c = .ok u ∧
      k.copyOf u.node force = .ok (copy, k₁) ∧
      k₁.dest.find { node := copy, offset := u.offset } = .ok (image, dest) ∧
      k' = { k₁ with dest := dest } := by
  unfold copyCell at hRun
  rcases of_bind hRun with ⟨u, hResolve, hRun⟩
  rcases of_bind hRun with ⟨⟨copy, k₁⟩, hCopy, hRun⟩
  rcases of_bind hRun with ⟨⟨found, dest⟩, hFind, hRun⟩
  cases hRun
  exact ⟨u, copy, k₁, dest, hResolve, hCopy, hFind, rfl⟩

-- Copiers

/- Both graphs of a copier are well-formed. -/
structure WellFormed
    (k : Copier) : Prop where
  source : k.source.WellFormed
  dest : k.dest.WellFormed

variable {dest g : Graph} {sites : List (AllocSite × CallPath)} {n : Node}
variable {config : GraphConfig} {flags : Flags} {d : Cell}

/- Another destination for a copier. -/
theorem WellFormed.setDest
    (hk : k.WellFormed)
    (hDest : dest.WellFormed) :
    ({ k with dest := dest } : Copier).WellFormed :=
  ⟨hk.source, hDest⟩

/- Every site of a list is noted, and nothing is lost. -/
theorem mem_allocSites_foldl
    {α : Type}
    {f : Node → AllocSite × α → Node}
    (hf : ∀ n p, (f n p).allocSites = n.allocSites.insert p.1)
    (sites : List (AllocSite × α))
    (n : Node)
    (s : AllocSite) :
    s ∈ (sites.foldl f n).allocSites ↔ s ∈ n.allocSites ∨ ∃ p ∈ sites, p.1 = s := by
  induction sites generalizing n with
  | nil => simp
  | cons p rest ih =>
    rw [List.foldl_cons, ih, hf, OrdSet.mem_insert_iff]
    simp only [List.mem_cons, exists_eq_or_imp]
    constructor
    · rintro ((rfl | hOld) | hRest)
      · exact Or.inr (Or.inl rfl)
      · exact Or.inl hOld
      · exact Or.inr (Or.inr hRest)
    · rintro (hOld | rfl | hRest)
      · exact Or.inl (Or.inr hOld)
      · exact Or.inl (Or.inl rfl)
      · exact Or.inr hRest

/- Sites are noted at one node of the destination. -/
theorem addSites_eq_ok
    (hRun : k.addSites node sites = .ok k') :
    ∃ dest f, k' = { k with dest := dest } ∧ k.dest.modifyNode node f = .ok dest ∧
      (∀ config n, Graph.Enriches config n (f n)) ∧
      ∀ n s, s ∈ (f n).allocSites ↔ s ∈ n.allocSites ∨ ∃ p ∈ sites, p.1 = s := by
  unfold Copier.addSites at hRun
  rcases of_bind hRun with ⟨dest, hModify, hRun⟩
  cases hRun
  refine ⟨dest, _, rfl, hModify, ?_, ?_⟩
  · intro config n
    apply Graph.Enriches.foldl
    rintro n ⟨site, path⟩
    refine .of_notes rfl rfl rfl rfl (fun s hs => ?_) (.refl _)
    exact (OrdSet.mem_insert_iff _ _ _).mpr (Or.inr hs)
  · exact mem_allocSites_foldl (fun _ _ => rfl) sites

theorem WellFormed.addSites
    (hk : k.WellFormed)
    (hRun : k.addSites node sites = .ok k') :
    k'.WellFormed := by
  rcases addSites_eq_ok hRun with ⟨dest, f, rfl, hModify, hEnriches, _⟩
  apply hk.setDest
  exact (Graph.Sound.modifyNode (E := False) hk.dest (fun n _ => hEnriches _ n) hModify).wellFormed

/- What is read of a slot is a well-formed node. -/
theorem wellFormed_contents
    (hg : g.WellFormed)
    (hContents : g.contents node = .ok n) :
    n.WellFormed g.config := by
  unfold Graph.contents at hContents
  split at hContents
  · next hSlot =>
    cases hContents
    exact hg.nodes _ _ hSlot
  · cases hContents
    exact Node.wellFormed_of_bare (by decide) (fun _ => by decide) (fun h => absurd h (by decide))
      (fun h => absurd h (by decide)) rfl rfl
  · cases hContents

/- A fresh node of the kind and the size of another. -/
theorem wellFormed_fresh
    (hn : n.WellFormed config)
    (hCollapsed : flags.has .offsetCollapsed = n.isCollapsed)
    (hArray : flags.has .array = n.isArray)
    (config' : GraphConfig) :
    (Graph.freshNode flags n.size).WellFormed config' := by
  refine Node.wellFormed_of_bare hn.size_lt ?_ ?_ ?_ rfl rfl
  · unfold Node.isCollapsed Node.isArray
    rw [hCollapsed, hArray]
    exact hn.collapsed_not_array
  · unfold Node.isCollapsed
    rw [hCollapsed]
    exact hn.collapsed_size
  · unfold Node.isArray
    rw [hArray]
    exact hn.array_size

/- Such a node can have the types of the other. -/
theorem wellFormed_fresh_typed
    (hn : n.WellFormed config)
    (hCollapsed : flags.has .offsetCollapsed = n.isCollapsed)
    (hArray : flags.has .array = n.isArray)
    (config' : GraphConfig) :
    ({ Graph.freshNode flags n.size with
      types := n.types } : Node).WellFormed config' := by
  have hFresh := wellFormed_fresh hn hCollapsed hArray config'
  apply hFresh.update
  · rfl
  · rfl
  · exact Nat.le_refl _
  · exact hn.size_lt
  · exact fun _ => rfl
  · exact fun f t hGet => Or.inl hGet
  · intro o ts hGet
    exact Or.inr ((hn.types o ts hGet).congr hCollapsed hArray (Nat.le_refl _))

/- A typed node of another's kind is made in a graph. -/
theorem wellFormed_setTypes
    {h : Graph}
    (hg : g.WellFormed)
    (hn : n.WellFormed config)
    (hCollapsed : flags.has .offsetCollapsed = n.isCollapsed)
    (hArray : flags.has .array = n.isArray)
    (hRun : (g.createNode flags n.size).2.modifyContents
      (g.createNode flags n.size).1
      (fun m => { m with types := n.types }) = .ok h) :
    h.WellFormed := by
  have hMade := hg.createNode (wellFormed_fresh hn hCollapsed hArray g.config)
  have hSlot := (hg.slot_createNode flags n.size).2 (g.createNode flags n.size).1
  rw [if_pos rfl] at hSlot
  rw [Graph.modifyContents_of_live hSlot] at hRun
  cases hRun
  apply hMade.setLive hSlot
  · rw [Graph.config_createNode]
    exact wellFormed_fresh_typed hn hCollapsed hArray g.config
  · exact .of_same_kind rfl rfl (Nat.le_refl _) hn.size_lt
  · intro f t hGet
    cases hGet

/- The flags of a copy: only `foreign` can differ. -/
theorem has_copied_flags
    (options : CopyOptions)
    (flags : Flags)
    {f : Flag}
    (hf : f ≠ .foreign) :
    (if options.markForeign then flags.insert .foreign
      else flags.erase .foreign).has f = flags.has f := by
  split
  · simp [Flags.has_insert, Ne.symm hf]
  · exact flags.has_erase_of_ne hf

/- The copy of a node is well-formed as the node is. -/
theorem WellFormed.copyContents
    (hk : k.WellFormed)
    (hRun : k.copyContents node force = .ok (copy, k')) :
    k'.WellFormed := by
  rcases copyContents_eq_ok hRun with ⟨n, _, dest, k₁, hContents, rfl, rfl, hTypes, hSites, rfl⟩
  have hDest := wellFormed_setTypes hk.dest (wellFormed_contents hk.source hContents)
    (has_copied_flags k.options n.flags (by decide))
    (has_copied_flags k.options n.flags (by decide)) hTypes
  have hk₁ := (hk.setDest hDest).addSites hSites
  exact ⟨hk₁.source, hk₁.dest⟩

theorem WellFormed.copyLink
    (hk : k.WellFormed)
    (hRun : copyLink copy (k, stack) link = .ok (k', stack')) :
    k'.WellFormed := by
  rcases copyLink_eq_ok hRun with ⟨u, c, k₁, dest, _, hTarget, hAdd, rfl⟩
  have hk₁ : k₁.WellFormed := by
    rcases hTarget with ⟨_, rfl, _⟩ | ⟨_, hCopy, _⟩
    · exact hk
    · exact hk.copyContents hCopy
  exact hk₁.setDest (Graph.Sound.addLink (E := False) hk₁.dest hAdd).wellFormed

theorem WellFormed.copyLinksWithin
    (hk : k.WellFormed)
    (hRun : copyLinksWithin fuel k stack = .ok k') :
    k'.WellFormed :=
  copyLinksWithin_keeps (fun _ _ _ _ _ _ hk hStep => hk.copyLink hStep) hk hRun

/- To note what is forced changes no graph. -/
theorem WellFormed.noting
    (hk : k.WellFormed)
    (src : NodeId)
    (force : Bool) :
    (k.noting src force).WellFormed := by
  unfold Copier.noting
  split
  · exact ⟨hk.source, hk.dest⟩
  · exact hk

theorem WellFormed.copyOf
    (hk : k.WellFormed)
    (hRun : k.copyOf node force = .ok (copy, k')) :
    k'.WellFormed := by
  rcases copyOf_eq_ok hRun with ⟨u, _, ⟨_, _, n, _, hSites⟩ | ⟨_, _, rfl⟩ | ⟨_, k₁, hCopy, hLinks⟩⟩
  · have hForced : ({ k with
        forced := k.forced.insert u.node } :
          Copier).WellFormed := ⟨hk.source, hk.dest⟩
    exact hForced.addSites hSites
  · exact hk
  · exact ((hk.noting _ _).copyContents hCopy).copyLinksWithin hLinks

/- The image of a cell is looked up in the destination. -/
theorem WellFormed.findDest
    (hk : k.WellFormed)
    (hFind : k.dest.find c = .ok (d, dest)) :
    ({ k with dest := dest } : Copier).WellFormed :=
  hk.setDest (Graph.Sound.find (E := False) hk.dest hFind).1.wellFormed

theorem WellFormed.copyCell
    (hk : k.WellFormed)
    (hRun : k.copyCell c force = .ok (d, k')) :
    k'.WellFormed := by
  rcases copyCell_eq_ok hRun with ⟨u, copy, k₁, dest, _, hCopy, hFind, rfl⟩
  exact (hk.copyOf hCopy).findDest hFind

theorem WellFormed.copyNode
    (hk : k.WellFormed)
    (hRun : k.copyNode node force = .ok (d, k')) :
    k'.WellFormed := by
  unfold Copier.copyNode at hRun
  rcases of_bind hRun with ⟨⟨copy, k₁⟩, hCopy, hRun⟩
  rcases of_bind hRun with ⟨⟨image, dest⟩, hFind, hRun⟩
  cases hRun
  exact (hk.copyOf hCopy).findDest hFind

end Copier

-- Imports

namespace Graph

variable {g h other : Graph}

/- Noting owners changes nothing that matters. -/
theorem WellFormed.addFunctions
    (hg : g.WellFormed)
    (fs : List FunctionId) :
    (fs.foldl addFunction g).WellFormed := by
  induction fs generalizing g with
  | nil => exact hg
  | cons f fs ih => exact ih (hg.congr rfl rfl rfl rfl)

theorem WellFormed.importFrom
    (hg : g.WellFormed)
    (hOther : other.WellFormed)
    {withFormals : Bool}
    (hRun : g.importFrom other withFormals = .ok h) :
    h.WellFormed := by
  unfold Graph.importFrom at hRun
  rcases of_bind hRun with ⟨roots, _, hRun⟩
  rcases of_bind hRun with ⟨k, hFold, hRun⟩
  cases hRun
  apply WellFormed.addFunctions
  refine (foldlM_induction (P := Copier.WellFormed) ?_ ⟨hOther, hg⟩ hFold).dest
  rintro k₁ ⟨r, c⟩ _ k₂ hk₁ hStep
  dsimp only at hStep
  rcases of_bind hStep with ⟨⟨copy, k₃⟩, hCopy, hStep⟩
  have hk₃ := hk₁.copyCell hCopy
  unfold Copier.mapDest at hStep
  rcases of_bind hStep with ⟨dest, hBind, hStep⟩
  cases hStep
  rcases of_bind hBind with ⟨⟨_, dest'⟩, hBound, hDone⟩
  cases hDone
  exact hk₃.setDest (Sound.bindRoot (E := False) hk₃.dest hBound).wellFormed

end Graph

end HeapShape
