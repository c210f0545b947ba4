import HeapShape.Proofs.Graph.Collect
import HeapShape.Proofs.Graph.Transfer

/-
  Copies in fresh slots.

  While a copier works undisturbed, its destination holds what it held
  before and one fresh node for each source node copied. Such a node has the
  links of the original copied so far, led to the copies of their targets.
  Links are copied by the operation that adds links anywhere, but at a copy
  the fields of the original are all in place and different, so no copy
  grows and no two copies are merged.

  Main declarations:
    * `Graph.Puts`
    * `Copier.Mirrors`
    * `Copier.Mirroring`
    * `Copier.Waiting.copyLinksWithin`
-/

-- Operations On Live Nodes

namespace HeapShape

open Checked

namespace Graph

variable {g : Graph} {id : NodeId} {n m : Node}

/- A cell in a live node stands for itself. -/
theorem find_of_live
    (hLive : g.slot id = .live n)
    {o : Nat}
    (ho : o < wordBound) :
    g.find { node := id, offset := o } = .ok ({ node := id, offset := o }, g) := by
  unfold find chainBound walkWithin
  simp only [hLive]
  rw [ok_bind]
  simp only [List.length_nil]
  rw [addWord_eq_ok_iff.mpr ⟨rfl, ho⟩, ok_bind]
  rfl

theorem modifyNode_of_live
    (hLive : g.slot id = .live n)
    (f : Node → Node) :
    g.modifyNode id f = .ok (g.setSlot id (.live (f n))) := by
  unfold modifyNode findNode Cell.start
  rw [find_of_live hLive (by decide), ok_bind]
  exact modifyContents_of_live hLive f

/-
  A link at a key in place of a live node that has none there. The node is
  large enough for it.
-/
theorem addLink_of_none
    (hLive : g.slot id = .live n)
    (hSize : n.size < wordBound)
    {f : Field}
    (hKey : n.LinkKey g.config f)
    (hWord : f.offset < wordBound)
    (hNone : n.links.get? f = none)
    {t : Cell}
    (hTarget : g.slot t.node = .live m)
    (ht : t.offset < wordBound) :
    g.addLink { node := id, offset := f.offset } f.type? t =
      .ok (g.setSlot id (.live { n with links := n.links.insert f t })) := by
  unfold addLink addLinkBy
  rw [find_of_live hLive hWord, ok_bind]
  dsimp only
  rw [contents_of_live hLive, ok_bind]
  rw [hKey.effectiveField_eq, hNone]
  dsimp only
  rw [find_of_live hTarget ht, ok_bind]
  dsimp only
  rw [contents_of_live hLive, ok_bind]
  by_cases hPlain : n.isPlain = true
  · have hReach := hKey.plain hPlain
    rw [if_pos hPlain, addWord_eq_ok_iff.mpr ⟨rfl, by omega⟩,
      ok_bind, pure_bind, max_eq_left hReach,
      setContents_of_live hLive]
  · rw [if_neg hPlain, pure_bind, setContents_of_live hLive]

-- One Slot Changed

/- A slot has come to hold a live node, and that is all. -/
structure Puts
    (id : NodeId)
    (m : Node)
    (g h : Graph) : Prop where
  slot : ∀ j, h.slot j =
    if j = id then .live m else g.slot j
  freeListed : h.FreeListed
  rest : { h with slots := g.slots, free := g.free } = g

variable {h i : Graph}

theorem Puts.slot_self
    (hPuts : Puts id m g h) :
    h.slot id = .live m := by
  rw [hPuts.slot, if_pos rfl]

theorem Puts.slot_ne
    (hPuts : Puts id m g h)
    {j : NodeId}
    (hj : j ≠ id) :
    h.slot j = g.slot j := by
  rw [hPuts.slot, if_neg hj]

theorem Puts.config
    (hPuts : Puts id m g h) :
    h.config = g.config := by
  have hConfig := congrArg Graph.config hPuts.rest
  exact hConfig

theorem Puts.trans
    (hPuts : Puts id n g h)
    (hNext : Puts id m h i) :
    Puts id m g i where
  slot := by
    intro j
    by_cases hj : j = id
    · subst hj
      rw [hNext.slot_self, if_pos rfl]
    · rw [hNext.slot_ne hj, hPuts.slot_ne hj, if_neg hj]
  freeListed := hNext.freeListed
  rest := by
    rw [← hPuts.rest]
    have hRest := congrArg (fun last : Graph =>
      { last with slots := g.slots, free := g.free }) hNext.rest
    exact hRest

theorem Puts.setLive
    (hg : g.FreeListed)
    (hLive : g.slot id = .live n)
    (m : Node) :
    Puts id m g (g.setSlot id (.live m)) where
  slot := slot_setSlot (lt_size_of_live hLive) _
  freeListed := hg.setSlot hLive Slot.noConfusion
  rest := rfl

theorem Puts.createNode
    (hg : g.FreeListed)
    (flags : Flags)
    (size : Nat) :
    Puts (g.createNode flags size).1 (freshNode flags size) g (g.createNode flags size).2 where
  slot := (hg.slot_createNode flags size).2
  freeListed := hg.createNode flags size
  rest := by
    unfold Graph.createNode
    split <;> rfl

end Graph

-- Copies Of Nodes

namespace Copier

open Graph

variable {k k' : Copier} {src copy : NodeId} {force : Bool} {n m l : Node}

/- Nodes that differ in their sites and call paths only. -/
structure SameButSites
    (n m : Node) : Prop where
  flags : m.flags = n.flags
  size : m.size = n.size
  types : m.types = n.types
  links : m.links = n.links
  uniqueScalar : m.uniqueScalar = n.uniqueScalar

theorem SameButSites.refl
    (n : Node) :
    SameButSites n n :=
  ⟨rfl, rfl, rfl, rfl, rfl⟩

theorem SameButSites.trans
    (h : SameButSites n m)
    (h' : SameButSites m l) :
    SameButSites n l where
  flags := h'.flags.trans h.flags
  size := h'.size.trans h.size
  types := h'.types.trans h.types
  links := h'.links.trans h.links
  uniqueScalar := h'.uniqueScalar.trans h.uniqueScalar

theorem SameButSites.foldl
    {α : Type}
    {f : Node → α → Node}
    (hf : ∀ n a, SameButSites n (f n a))
    (xs : List α)
    (n : Node) :
    SameButSites n (xs.foldl f n) := by
  induction xs generalizing n with
  | nil => exact .refl n
  | cons a rest ih => exact (hf n a).trans (ih (f n a))

/- Sites noted at a live node of the destination. -/
theorem addSites_of_live
    (hLive : k.dest.slot copy = .live m)
    (sites : List (AllocSite × CallPath)) :
    ∃ m', SameButSites m m' ∧ (∀ s, s ∈ m'.allocSites ↔
        s ∈ m.allocSites ∨ ∃ p ∈ sites, p.1 = s) ∧
      k.addSites copy sites = .ok { k with
          dest := k.dest.setSlot copy (.live m') } := by
  unfold addSites
  rw [modifyNode_of_live hLive, ok_bind]
  refine ⟨_, ?_, ?_, rfl⟩
  · apply SameButSites.foldl
    exact fun _ _ => ⟨rfl, rfl, rfl, rfl, rfl⟩
  · exact mem_allocSites_foldl (fun _ _ => rfl) sites m

theorem mem_sitesOf_iff
    {s : AllocSite} :
    (∃ p ∈ k.sitesOf n force, p.1 = s) ↔ s ∈ n.allocSites ∧ (force = true ∨
        k.options.stripAllocas = false ∨
        s.isStack = false) := by
  constructor
  · rintro ⟨p, hp, rfl⟩
    unfold sitesOf at hp
    rcases List.mem_map.mp hp with ⟨s, hs, rfl⟩
    rcases List.mem_filter.mp hs with ⟨hs, hTaken⟩
    exact ⟨(OrdSet.mem_toList_iff _ _).mp hs, by simpa [or_assoc] using hTaken⟩
  · rintro ⟨hs, hTaken⟩
    exact mem_sitesOf hs hTaken

/- What a source cell has become in the destination. -/
def Image
    (k : Copier)
    (t t' : Cell) : Prop :=
  ∃ u c, k.source.resolve t = .ok u ∧
    k.copies.get? u.node = some c ∧
    t' = { node := c, offset := u.offset }

/- A node copied from another, with some of its links. -/
structure Mirrors
    (k : Copier)
    (src : NodeId)
    (links : List (Field × Cell))
    (n m : Node) : Prop where
  size : m.size = n.size
  types : m.types = n.types
  flags : ∀ f, m.flags.has f =
    if f = .foreign then k.options.markForeign
    else n.flags.has f
  uniqueScalar : m.uniqueScalar = {}
  sites : ∀ s, s ∈ m.allocSites ↔
    s ∈ n.allocSites ∧ ¬ k.Leaves src s
  links : ∀ f t', m.links.get? f = some t' ↔
    ∃ t, (f, t) ∈ links ∧ k.Image t t'

/- A copier with one more copy, in a slot that was free. -/
structure Adds
    (src copy : NodeId)
    (m : Node)
    (k k' : Copier) : Prop where
  source : k'.source = k.source
  options : k'.options = k.options
  forced : k'.forced = k.forced
  copies : ∀ x, k'.copies.get? x =
    if x = src then some copy else k.copies.get? x
  free : k.dest.slot copy = .free
  puts : Puts copy m k.dest k'.dest

theorem has_copied_flags_all
    (options : CopyOptions)
    (flags : Flags)
    (f : Flag) :
    (if options.markForeign then flags.insert .foreign
      else flags.erase .foreign).has f =
        if f = .foreign then options.markForeign
        else flags.has f := by
  by_cases hf : f = .foreign
  · subst hf
    rw [if_pos rfl]
    split
    · next hMark => simp [Flags.has_insert, hMark]
    · next hMark => simpa [Flags.has_erase] using hMark
  · rw [if_neg hf, has_copied_flags options flags hf]

/- The copy of a node before its links are copied. -/
theorem adds_copyContents
    (hDest : k.dest.FreeListed)
    (hLive : k.source.slot src = .live n)
    (hForce : force = true ↔ src ∈ k.forced) :
    ∃ copy k' m, k.copyContents src force = .ok (copy, k') ∧
      Adds src copy m k k' ∧ k'.Mirrors src [] n m := by
  unfold copyContents
  rw [contents_of_live hLive, ok_bind]
  dsimp only
  have hFlags := has_copied_flags_all k.options n.flags
  generalize (if k.options.markForeign then n.flags.insert .foreign
    else n.flags.erase .foreign) = flags at hFlags ⊢
  have hFree := (hDest.slot_createNode flags n.size).1
  have hMade := Puts.createNode hDest flags n.size
  generalize k.dest.createNode flags n.size = fresh at *
  rw [modifyContents_of_live hMade.slot_self, ok_bind]
  have hTyped := hMade.trans (.setLive hMade.freeListed hMade.slot_self
    { freshNode flags n.size with types := n.types })
  generalize fresh.2.setSlot fresh.1 (.live
    { freshNode flags n.size with types := n.types }) = dest at *
  rcases addSites_of_live (k := { k with dest := dest })
    hTyped.slot_self (sitesOf { k with dest := dest } n force)
    with ⟨m, hSame, hSites', hAdd⟩
  rw [hAdd, ok_bind]
  refine ⟨_, _, m, rfl, ⟨rfl, rfl, rfl, fun _ => OrdMap.get?_insert _ _ _ _, hFree,
    hTyped.trans (.setLive hTyped.freeListed hTyped.slot_self m)⟩, ?_⟩
  refine ⟨hSame.size, hSame.types, ?_, hSame.uniqueScalar, ?_, ?_⟩
  · intro f
    rw [hSame.flags]
    exact hFlags f
  · intro s
    rw [hSites', mem_sitesOf_iff]
    constructor
    · rintro (hNone | ⟨hs, hTaken⟩)
      · cases hNone
      · refine ⟨hs, ?_⟩
        rintro ⟨hStrip, hStack, hOut⟩
        rcases hTaken with hForced | hKept | hHeap
        · exact hOut (hForce.mp hForced)
        · exact absurd hStrip (Bool.not_eq_true _ ▸ hKept)
        · exact absurd hStack (Bool.not_eq_true _ ▸ hHeap)
    · rintro ⟨hs, hLeft⟩
      refine Or.inr ⟨hs, ?_⟩
      by_contra hNone
      simp only [not_or, Bool.not_eq_false] at hNone
      exact hLeft ⟨hNone.2.1, hNone.2.2, fun hForced => hNone.1 (hForce.mpr hForced)⟩
  · intro f t'
    rw [hSame.links]
    constructor
    · intro hNone
      cases hNone
    · rintro ⟨t, hNone, _⟩
      cases hNone

end Copier

-- Copies In Progress

namespace Graph

/- Free slots may have been used, and that is all. -/
structure Grown
    (g h : Graph) : Prop where
  kept : ∀ j, g.slot j ≠ .free → h.slot j = g.slot j
  freeListed : h.FreeListed
  rest : { h with slots := g.slots, free := g.free } = g

variable {g : Graph}

theorem Grown.refl
    (hg : g.FreeListed) :
    Grown g g :=
  ⟨fun _ _ => rfl, hg, rfl⟩

theorem Grown.puts
    {h i : Graph}
    {id : NodeId}
    {m : Node}
    (hGrown : Grown g h)
    (hFree : g.slot id = .free)
    (hPuts : Puts id m h i) :
    Grown g i where
  kept := by
    intro j hj
    have hne : j ≠ id := by
      rintro rfl
      exact hj hFree
    rw [hPuts.slot_ne hne, hGrown.kept j hj]
  freeListed := hPuts.freeListed
  rest := by
    have hRest := congrArg (fun last : Graph =>
      { last with slots := g.slots, free := g.free }) hPuts.rest
    exact hRest.trans hGrown.rest

end Graph

namespace Copier

open Graph

/-
  The destination of a copier that has been at work since it was `g`. The
  nodes copied are of a kind `S`, and `part` tells which links of each of
  them are copied by now.
-/
structure Mirroring
    (g : Graph)
    (S : NodeId → Prop)
    (part : NodeId → List (Field × Cell))
    (k : Copier) : Prop where
  source : k.source.WellFormed
  config : k.dest.config = k.source.config
  grown : Grown g k.dest
  only : ∀ j, g.slot j = .free → k.dest.slot j ≠ .free →
    ∃ src, k.copies.get? src = some j
  fresh : ∀ src c, k.copies.get? src = some c →
    g.slot c = .free
  injective : ∀ x y c, k.copies.get? x = some c →
    k.copies.get? y = some c → x = y
  within : ∀ src c, k.copies.get? src = some c → S src
  mirrors : ∀ src c, k.copies.get? src = some c →
    ∃ n m, k.source.slot src = .live n ∧
      k.dest.slot c = .live m ∧
      k.Mirrors src (part src) n m
  targets : ∀ src c f t, k.copies.get? src = some c →
    (f, t) ∈ part src → ∃ t', k.Image t t'
  forced : k.ForcedCopied

variable {g : Graph} {S : NodeId → Prop} {part : NodeId → List (Field × Cell)} {k k' : Copier}
variable {src copy : NodeId} {force : Bool} {n m : Node} {t a b : Cell}

theorem Image.extended
    (hImage : k.Image t a)
    (h : Extends k k') :
    k'.Image t a := by
  rcases hImage with ⟨u, c, hResolve, hCopy, rfl⟩
  exact ⟨u, c, h.source ▸ hResolve, h.copies _ _ hCopy, rfl⟩

theorem Image.unique
    (hImage : k.Image t a)
    (hImage' : k.Image t b) :
    a = b := by
  rcases hImage with ⟨u, c, hResolve, hCopy, rfl⟩
  rcases hImage' with ⟨u', c', hResolve', hCopy', rfl⟩
  cases hResolve.symm.trans hResolve'
  cases hCopy.symm.trans hCopy'
  rfl

variable {links : List (Field × Cell)}

/- A copy is one still when there are more copies. -/
theorem Mirrors.extended
    (hm : k.Mirrors src links n m)
    (h : Extends k k')
    (hForced : src ∈ k'.forced → src ∈ k.forced)
    (hTargets : ∀ f t, (f, t) ∈ links → ∃ t', k.Image t t') :
    k'.Mirrors src links n m where
  size := hm.size
  types := hm.types
  flags := h.options ▸ hm.flags
  uniqueScalar := hm.uniqueScalar
  sites := by
    intro s
    rw [hm.sites]
    unfold Leaves
    rw [h.options, Iff.intro hForced (h.forced src)]
  links := by
    intro f t'
    rw [hm.links]
    constructor
    · rintro ⟨t, hMem, hImage⟩
      exact ⟨t, hMem, hImage.extended h⟩
    · rintro ⟨t, hMem, hImage⟩
      rcases hTargets f t hMem with ⟨a, ha⟩
      have hSame := (ha.extended h).unique hImage
      exact ⟨t, hMem, hSame ▸ ha⟩

/- A copy has the link keys of the original. -/
theorem Mirrors.linkKey
    (hm : k.Mirrors src links n m)
    {config : GraphConfig}
    {f : Field}
    (hKey : n.LinkKey config f) :
    m.LinkKey config f := by
  have hCollapsed : m.isCollapsed = n.isCollapsed := hm.flags .offsetCollapsed
  have hArray : m.isArray = n.isArray := hm.flags .array
  have hPlain : m.isPlain = n.isPlain := by
    unfold Node.isPlain
    rw [hCollapsed, hArray]
  exact ⟨hCollapsed ▸ hKey.collapsed, hArray ▸ hm.size ▸ hKey.array,
    hPlain ▸ hm.size ▸ hKey.plain, hKey.untyped⟩

theorem Adds.extends
    (hNone : k.copies.get? src = none)
    (hAdds : Adds src copy m k k') :
    Extends k k' where
  source := hAdds.source
  options := hAdds.options
  copies := by
    intro x c hCopy
    rw [hAdds.copies, if_neg, hCopy]
    rintro rfl
    rw [hNone] at hCopy
    cases hCopy
  forced := fun x hx => hAdds.forced ▸ hx

theorem noting_eq
    (k : Copier)
    (src : NodeId)
    (force : Bool) :
    (k.noting src force).source = k.source ∧ (k.noting src force).dest = k.dest ∧
      (k.noting src force).options = k.options ∧
      (k.noting src force).copies = k.copies := by
  unfold noting
  split <;> exact ⟨rfl, rfl, rfl, rfl⟩

theorem mem_noting_iff
    {x : NodeId} :
    x ∈ (k.noting src force).forced ↔ (force = true ∧ x = src) ∨ x ∈ k.forced := by
  unfold noting
  cases force with
  | false => simp
  | true => simp [OrdSet.mem_insert_iff]

theorem extends_noting
    (k : Copier)
    (src : NodeId)
    (force : Bool) :
    Extends k (k.noting src force) := by
  rcases noting_eq k src force with ⟨hSource, _, hOptions, hCopies⟩
  exact ⟨hSource, hOptions, fun _ _ hCopy => hCopies ▸ hCopy,
    fun x hx => mem_noting_iff.mpr (Or.inr hx)⟩

/- One copy is made or changed. -/
theorem Mirroring.put
    (hk : Mirroring g S part k)
    (h : Extends k k')
    (hCopies : ∀ x, k'.copies.get? x = if x = src then some copy else k.copies.get? x)
    (hForced : ∀ x ∈ k'.forced, x = src ∨ x ∈ k.forced)
    (hFree : g.slot copy = .free)
    (hOther : ∀ x c, k.copies.get? x = some c → x ≠ src → c ≠ copy)
    (hS : S src)
    (hLive : k.source.slot src = .live n)
    (hPuts : Puts copy m k.dest k'.dest)
    (hm : k'.Mirrors src links n m)
    (hTargets : ∀ f t, (f, t) ∈ links → ∃ t', k'.Image t t') :
    Mirroring g S (Function.update part src links) k' := by
  have hHere : k'.copies.get? src = some copy := by
    rw [hCopies, if_pos rfl]
  -- A copy is the new one or an old one in another slot.
  have hSplit : ∀ x c, k'.copies.get? x = some c → x = src ∧ c = copy ∨
        x ≠ src ∧ c ≠ copy ∧ k.copies.get? x = some c := by
    intro x c hCopy
    rw [hCopies] at hCopy
    split at hCopy
    · next hx =>
      cases hCopy
      exact Or.inl ⟨hx, rfl⟩
    · next hx =>
      exact Or.inr ⟨hx, hOther x c hCopy hx, hCopy⟩
  constructor
  case source => exact h.source ▸ hk.source
  case config => rw [hPuts.config, h.source, hk.config]
  case grown => exact hk.grown.puts hFree hPuts
  case only =>
    intro j hj hUsed
    by_cases hEq : j = copy
    · exact ⟨src, hEq ▸ hHere⟩
    · rw [hPuts.slot_ne hEq] at hUsed
      rcases hk.only j hj hUsed with ⟨x, hx⟩
      exact ⟨x, h.copies x j hx⟩
  case fresh =>
    intro x c hCopy
    rcases hSplit x c hCopy with ⟨_, rfl⟩ | ⟨_, _, hOld⟩
    · exact hFree
    · exact hk.fresh x c hOld
  case injective =>
    intro x y c hx hy
    rcases hSplit x c hx with ⟨rfl, rfl⟩ | ⟨_, hc, hxOld⟩
    · rcases hSplit y c hy with ⟨rfl, _⟩ | ⟨_, hc, _⟩
      · rfl
      · exact absurd rfl hc
    · rcases hSplit y c hy with ⟨_, rfl⟩ | ⟨_, _, hyOld⟩
      · exact absurd rfl hc
      · exact hk.injective x y c hxOld hyOld
  case within =>
    intro x c hCopy
    rcases hSplit x c hCopy with ⟨rfl, _⟩ | ⟨_, _, hOld⟩
    · exact hS
    · exact hk.within x c hOld
  case mirrors =>
    intro x c hCopy
    rw [h.source]
    rcases hSplit x c hCopy with ⟨rfl, rfl⟩ | ⟨hx, hc, hOld⟩
    · rw [Function.update_self]
      exact ⟨n, m, hLive, hPuts.slot_self, hm⟩
    · rcases hk.mirrors x c hOld with ⟨nx, mx, hnx, hmx, hMx⟩
      rw [Function.update_of_ne hx]
      refine ⟨nx, mx, hnx, (hPuts.slot_ne hc).trans hmx,
        hMx.extended h ?_ fun f t => hk.targets x c f t hOld⟩
      exact fun hIn => (hForced x hIn).resolve_left hx
  case targets =>
    intro x c f t hCopy hMem
    rcases hSplit x c hCopy with ⟨rfl, _⟩ | ⟨hx, _, hOld⟩
    · rw [Function.update_self] at hMem
      exact hTargets f t hMem
    · rw [Function.update_of_ne hx] at hMem
      rcases hk.targets x c f t hOld hMem with ⟨t', hImage⟩
      exact ⟨t', hImage.extended h⟩
  case forced =>
    intro x hx
    rcases hForced x hx with rfl | hOld
    · exact ⟨copy, hHere⟩
    · rcases hk.forced x hOld with ⟨c, hc⟩
      exact ⟨c, h.copies x c hc⟩

/- A copy is in a slot that no other copy has. -/
theorem Mirroring.ne_copy
    (hk : Mirroring g S part k)
    (hCopy : k.copies.get? src = some copy)
    (x c : NodeId)
    (hx : k.copies.get? x = some c)
    (hne : x ≠ src) :
    c ≠ copy := by
  rintro rfl
  exact hne (hk.injective x src c hx hCopy)

/- A node without a copy is copied, but for its links. -/
theorem Mirroring.copyContents
    (hk : Mirroring g S part k)
    (hLive : k.source.slot src = .live n)
    (hNone : k.copies.get? src = none)
    (hS : S src)
    (force : Bool) :
    ∃ copy k', (k.noting src force).copyContents src force = .ok (copy, k') ∧
      Mirroring g S (Function.update part src []) k' ∧ Extends k k' ∧
      k'.copies.get? src = some copy ∧
      k'.forced = (k.noting src force).forced := by
  have hNoted := extends_noting k src force
  rcases noting_eq k src force with ⟨hSource, hDest, _, hCopies⟩
  have hOut : src ∉ k.forced := by
    intro hIn
    rcases hk.forced src hIn with ⟨c, hc⟩
    rw [hNone] at hc
    cases hc
  have hForce : force = true ↔ src ∈ (k.noting src force).forced := by
    rw [mem_noting_iff]
    constructor
    · exact fun hForce => Or.inl ⟨hForce, rfl⟩
    · exact fun hIn => (hIn.resolve_right hOut).1
  rcases adds_copyContents (hDest ▸ hk.grown.freeListed)
      (hSource ▸ hLive) hForce with ⟨copy, k', m, hRun, hAdds, hm⟩
  have hExtends := hNoted.trans (hAdds.extends (hCopies ▸ hNone))
  have hPuts := hAdds.puts
  have hFree := hAdds.free
  rw [hDest] at hPuts hFree
  refine ⟨copy, k', hRun, hk.put hExtends (hCopies ▸ hAdds.copies) ?_ ?_ ?_ hS
    hLive hPuts hm nofun, hExtends, ?_, hAdds.forced⟩
  · intro x hx
    rw [hAdds.forced, mem_noting_iff] at hx
    exact hx.imp_left And.right
  · by_contra hUsed
    exact hUsed (hk.grown.kept copy hUsed ▸ hFree)
  · rintro x c hCopy _ rfl
    rcases hk.mirrors x c hCopy with ⟨_, _, _, hmx, _⟩
    rw [hFree] at hmx
    cases hmx
  · rw [hAdds.copies, if_pos rfl]

end Copier

-- Copies Of Links

/- The links of a slot; one that is not live has none. -/
def Graph.linksOf
    (g : Graph)
    (id : NodeId) : List (Field × Cell) :=
  match g.slot id with
  | .live n => n.links.entries
  | _ => []

theorem Graph.linksOf_of_live
    {g : Graph}
    {id : NodeId}
    {n : Node}
    (hLive : g.slot id = .live n) :
    g.linksOf id = n.links.entries := by
  unfold Graph.linksOf
  rw [hLive]

namespace Copier

open Graph

/- The links copied while the nodes of a stack still wait. -/
def linksBut
    (source : Graph)
    (stack : List NodeId)
    (x : NodeId) : List (Field × Cell) :=
  if x ∈ stack then [] else source.linksOf x

/- A copier whose stack holds copied nodes without links. -/
structure Waiting
    (g : Graph)
    (S : NodeId → Prop)
    (stack : List NodeId)
    (k : Copier) : Prop where
  mirroring : Mirroring g S (linksBut k.source stack) k
  owes : k.Owes stack
  nodup : stack.Nodup

/-
  A copier that has copied some links of the node it has taken from its
  stack.
-/
structure Visiting
    (g : Graph)
    (S : NodeId → Prop)
    (stack : List NodeId)
    (src : NodeId)
    (done : List (Field × Cell))
    (k : Copier) : Prop where
  mirroring : Mirroring g S (Function.update
    (linksBut k.source stack) src done) k
  owes : k.Owes (src :: stack)
  nodup : (src :: stack).Nodup

/- There may be more copies, but none made by force. -/
structure Unforced
    (k k' : Copier) : Prop where
  extension : Extends k k'
  forced : k'.forced = k.forced

variable {g : Graph} {S : NodeId → Prop} {part : NodeId → List (Field × Cell)}
variable {stack stack' : List NodeId} {k k' k'' : Copier}
variable {src copy : NodeId} {done : List (Field × Cell)} {n m : Node}

theorem Unforced.refl
    (k : Copier) :
    Unforced k k :=
  ⟨.refl k, rfl⟩

theorem Unforced.trans
    (h : Unforced k k')
    (h' : Unforced k' k'') :
    Unforced k k'' :=
  ⟨h.extension.trans h'.extension, h'.forced.trans h.forced⟩

theorem linksBut_cons
    (source : Graph)
    (src : NodeId)
    (stack : List NodeId) :
    linksBut source (src :: stack) = Function.update (linksBut source stack) src [] := by
  funext x
  unfold linksBut
  by_cases hx : x = src
  · subst hx
    rw [Function.update_self, if_pos List.mem_cons_self]
  · rw [Function.update_of_ne hx]
    simp [hx]

theorem linksBut_nil
    (source : Graph) :
    linksBut source [] = source.linksOf := by
  funext x
  unfold linksBut
  rw [if_neg List.not_mem_nil]

theorem Waiting.visit
    (hk : Waiting g S (src :: stack) k) :
    Visiting g S stack src [] k where
  mirroring := linksBut_cons k.source src stack ▸ hk.mirroring
  owes := hk.owes
  nodup := hk.nodup

/- All links of the node are copied. -/
theorem Visiting.leave
    (hk : Visiting g S stack src (k.source.linksOf src) k) :
    Waiting g S stack k where
  mirroring := by
    have hOut := (List.nodup_cons.mp hk.nodup).1
    have hSame : Function.update (linksBut k.source stack) src
        (k.source.linksOf src) = linksBut k.source stack := by
      rw [Function.update_eq_self_iff]
      unfold linksBut
      rw [if_neg hOut]
    exact hSame ▸ hk.mirroring
  owes := fun x hx => hk.owes x (List.mem_cons_of_mem _ hx)
  nodup := (List.nodup_cons.mp hk.nodup).2

/- A link is led to the copy of its target. -/
theorem Mirroring.addLink
    (hk : Mirroring g S part k)
    (hCopy : k.copies.get? src = some copy)
    (hLive : k.source.slot src = .live n)
    {f : Field}
    {t t' : Cell}
    (hGet : n.links.get? f = some t)
    (hNew : ∀ t, (f, t) ∉ part src)
    (hImage : k.Image t t') :
    ∃ dest, k.dest.addLink { node := copy, offset := f.offset } f.type? t' = .ok dest ∧
      Mirroring g S (Function.update part src (part src ++ [(f, t)])) { k with dest := dest } := by
  rcases hk.mirrors src copy hCopy with ⟨_, m, hLive', hCopied, hm⟩
  cases hLive.symm.trans hLive'
  have hn := hk.source.nodes src n hLive
  have hNone : m.links.get? f = none := by
    rw [Option.eq_none_iff_forall_ne_some]
    intro a ha
    rcases (hm.links f a).mp ha with ⟨b, hb, _⟩
    exact hNew b hb
  have hKey := hm.linkKey (hk.config ▸ hn.links f t hGet)
  rcases hImage with ⟨u, c, hResolve, hTarget, rfl⟩
  have hWord := (hk.source.link_has src n f t hLive hGet).word
  rcases resolve_eq_ok hWord hResolve with ⟨_, _, _, _, _, hu⟩
  rcases hk.mirrors u.node c hTarget with ⟨_, _, _, hLed, _⟩
  have hImage : k.Image t { node := c, offset := u.offset } := ⟨u, c, hResolve, hTarget, rfl⟩
  refine ⟨_, addLink_of_none (t := { node := c, offset := u.offset }) hCopied
    (hm.size ▸ hn.size_lt) hKey (hn.link_offset_lt hGet) hNone hLed hu, ?_⟩
  refine hk.put ⟨rfl, rfl, fun _ _ h => h, fun _ h => h⟩ ?_
    (fun x hx => Or.inr hx) (hk.fresh src copy hCopy)
    (hk.ne_copy hCopy) (hk.within src copy hCopy) hLive
    (.setLive hk.grown.freeListed hCopied _)
    ⟨hm.size, hm.types, hm.flags, hm.uniqueScalar, hm.sites, ?_⟩ ?_
  · intro x
    split
    · next hx => exact hx ▸ hCopy
    · rfl
  · intro f' a
    rw [OrdMap.get?_insert]
    by_cases hf : f' = f
    · subst hf
      rw [if_pos rfl]
      constructor
      · intro ha
        cases ha
        exact ⟨t, List.mem_append_right _ List.mem_cons_self, hImage⟩
      · rintro ⟨b, hMem, hb⟩
        rcases List.mem_append.mp hMem with hOld | hLast
        · exact absurd hOld (hNew b)
        · cases List.mem_singleton.mp hLast
          exact congrArg some (hImage.unique hb)
    · rw [if_neg hf, hm.links]
      constructor
      · rintro ⟨b, hMem, hb⟩
        exact ⟨b, List.mem_append_left _ hMem, hb⟩
      · rintro ⟨b, hMem, hb⟩
        rcases List.mem_append.mp hMem with hOld | hLast
        · exact ⟨b, hOld, hb⟩
        · cases List.mem_singleton.mp hLast
          exact absurd rfl hf
  · intro f' b hMem
    rcases List.mem_append.mp hMem with hOld | hLast
    · exact hk.targets src copy f' b hCopy hOld
    · cases List.mem_singleton.mp hLast
      exact ⟨_, hImage⟩

/- A node that is copied now waits on the stack. -/
theorem Visiting.push
    (hk : Visiting g S stack src done k)
    {t : NodeId}
    (ht : k.source.slot t = .live m)
    (hS : S t)
    (hNone : k.copies.get? t = none) :
    ∃ c k', k.copyContents t false = .ok (c, k') ∧
      Visiting g S (t :: stack) src done k' ∧ Unforced k k' ∧
      k'.copies.get? t = some c := by
  rcases hk.mirroring.copyContents ht hNone hS false with ⟨c, k', hMake, hMade, hExt, hHere, hForced⟩
  have hOut : t ∉ src :: stack := by
    intro hIn
    rcases hk.owes t hIn with ⟨c', hc'⟩
    rw [hNone] at hc'
    cases hc'
  have hne : src ≠ t := fun hEq =>
    hOut (hEq ▸ List.mem_cons_self)
  have hFirst := List.Perm.swap src t stack
  refine ⟨c, k', hMake, ⟨?_, ?_, ?_⟩, ⟨hExt, hForced⟩, hHere⟩
  · rw [linksBut_cons, Function.update_comm hne.symm, hExt.source]
    exact hMade
  · intro x hx
    rcases List.mem_cons.mp (hFirst.mem_iff.mpr hx) with rfl | hOld
    · exact ⟨c, hHere⟩
    · rcases hk.owes x hOld with ⟨c', hc'⟩
      exact ⟨c', hExt.copies x c' hc'⟩
  · exact hFirst.nodup_iff.mp (List.nodup_cons.mpr ⟨hOut, hk.nodup⟩)

/-
  The kind of nodes that are copied is closed under links, and a link that
  cannot be resolved explains an overflow.
-/
structure Covers
    (S : NodeId → Prop)
    (F : Prop)
    (source : Graph) : Prop where
  closed : ∀ x t y, S x → source.LinkTo x t y → S y
  overflow : ∀ x n f t, S x → source.slot x = .live n →
    n.links.get? f = some t →
    source.resolve t = .error .addOverflow → F

variable {F : Prop}

/- One link more of the node being visited is copied. -/
theorem Visiting.copyLink
    (hk : Visiting g S stack src done k)
    (hS : Covers S F k.source)
    (hCopy : k.copies.get? src = some copy)
    (hLive : k.source.slot src = .live n)
    {link : Field × Cell}
    (hGet : n.links.get? link.1 = some link.2)
    (hNew : ∀ t, (link.1, t) ∉ done) :
    Explains F (Copier.copyLink copy (k, stack) link) fun r =>
      Visiting g S r.2 src (done ++ [link]) r.1 ∧ Unforced k r.1 := by
  have hMember := hk.mirroring.within src copy hCopy
  unfold Copier.copyLink
  refine Explains.bind (P := fun _ => True)
    ⟨hS.overflow src n _ _ hMember hLive hGet, fun _ _ => trivial⟩ ?_
  intro u hResolve _
  rcases leads_of_resolve hResolve with ⟨j, hLeads, _⟩
  rcases hLeads.live_end with ⟨m, hLed⟩
  -- The target has its copy by now.
  have hAdd : ∀ c k₁ stack₁, Visiting g S stack₁ src done k₁ →
      Unforced k k₁ → k₁.copies.get? u.node = some c →
      Explains F (do
        let dest ← k₁.dest.addLink
          { node := copy, offset := link.1.offset } link.1.type?
          { node := c, offset := u.offset }
        return ({ k₁ with dest := dest }, stack₁)) fun r =>
          Visiting g S r.2 src (done ++ [link]) r.1 ∧ Unforced k r.1 := by
    rintro c k₁ stack₁ hMade ⟨hExt, hForced⟩ hHere
    rcases hMade.mirroring.addLink (hExt.copies src copy hCopy)
      (hExt.source ▸ hLive) hGet
      (by rw [Function.update_self]; exact hNew)
      ⟨u, c, hExt.source ▸ hResolve, hHere, rfl⟩ with ⟨dest, hRun, hAdded⟩
    rw [Function.update_self, Function.update_idem] at hAdded
    rw [hRun, ok_bind]
    exact .ok ⟨⟨hAdded, hMade.owes, hMade.nodup⟩,
      ⟨⟨hExt.source, hExt.options, hExt.copies, hExt.forced⟩, hForced⟩⟩
  dsimp only
  split
  · next c hHere =>
    rw [pure_bind]
    exact hAdd c k stack hk (.refl k) hHere
  · next hNone =>
    have hTarget := hS.closed src _ u.node hMember
      ⟨n, link.1, j, hLive, hGet, hLeads⟩
    rcases hk.push hLed hTarget hNone with ⟨c, k₁, hMake, hMade, hStep, hHere⟩
    rw [hMake, ok_bind, pure_bind]
    exact hAdd c k₁ _ hMade hStep hHere

/- The links of the node being visited, one by one. -/
theorem Visiting.copyLinks
    {links : List (Field × Cell)}
    (hk : Visiting g S stack src done k)
    (hS : Covers S F k.source)
    (hCopy : k.copies.get? src = some copy)
    (hLive : k.source.slot src = .live n)
    (hAll : n.links.entries = done ++ links) :
    Explains F (links.foldlM (Copier.copyLink copy) (k, stack)) fun r =>
      Visiting g S r.2 src n.links.entries r.1 ∧ Unforced k r.1 := by
  induction links generalizing k stack done with
  | nil =>
    rw [List.append_nil] at hAll
    exact .ok ⟨hAll ▸ hk, .refl _⟩
  | cons link rest ih =>
    have hGet : n.links.get? link.1 = some link.2 := by
      rw [OrdMap.get?_eq_some_iff, hAll]
      exact List.mem_append_right _ List.mem_cons_self
    have hNew : ∀ t, (link.1, t) ∉ done := by
      intro t hIn
      have hOrder := n.links.increasing
      unfold Increasing entryKeys at hOrder
      rw [hAll, List.map_append, List.pairwise_append] at hOrder
      have hLess := hOrder.2.2 link.1 (List.mem_map.mpr ⟨(link.1, t), hIn, rfl⟩) link.1
        List.mem_cons_self
      have hSame : compare link.1 link.1 = .eq := Std.ReflCmp.compare_self
      exact absurd (hSame.symm.trans hLess) (by decide)
    rw [List.foldlM_cons]
    refine (hk.copyLink hS hCopy hLive hGet hNew).bind ?_
    rintro ⟨k₁, stack₁⟩ _ ⟨hMade, hStep⟩
    have hExt := hStep.extension
    refine (ih hMade (hExt.source ▸ hS) (hExt.copies src copy hCopy)
      (hExt.source ▸ hLive)
      (by rw [hAll, List.append_assoc]; rfl)).imp ?_
    exact fun r hLast => ⟨hLast.1, hStep.trans hLast.2⟩

/- All nodes on the stack are visited, and those added. -/
theorem Waiting.copyLinksWithin
    {fuel : Nat}
    (hk : Waiting g S stack k)
    (hS : Covers S F k.source) :
    Explains F (Copier.copyLinksWithin fuel k stack) fun k' =>
      Waiting g S [] k' ∧ Unforced k k' := by
  induction fuel generalizing k stack with
  | zero =>
    cases stack with
    | nil => exact .ok ⟨hk, .refl _⟩
    | cons src rest => exact ⟨nofun, nofun⟩
  | succ fuel ih =>
    cases stack with
    | nil => exact .ok ⟨hk, .refl _⟩
    | cons src rest =>
      rcases hk.owes src List.mem_cons_self with ⟨c, hc⟩
      rcases hk.mirroring.mirrors src c hc with ⟨n, _, hLive, _⟩
      unfold Copier.copyLinksWithin
      rw [contents_of_live hLive, hc, ok_bind]
      refine (hk.visit.copyLinks hS hc hLive rfl).bind ?_
      rintro ⟨k₁, stack₁⟩ _ ⟨hMade, hStep⟩
      have hSource := hStep.extension.source
      have hDone : k₁.source.linksOf src =
          n.links.entries :=
        linksOf_of_live (hSource ▸ hLive)
      refine (ih (hDone ▸ hMade).leave (hSource ▸ hS)).imp ?_
      exact fun k' hLast => ⟨hLast.1, hStep.trans hLast.2⟩

end Copier

end HeapShape
