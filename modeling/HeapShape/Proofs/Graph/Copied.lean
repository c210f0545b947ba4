import HeapShape.Proofs.Graph.Carried
import HeapShape.Proofs.Graph.Copy

/-
  What copying brings into a graph.

  A copier remembers the copy of each source node, and the copy may be
  merged with other nodes while the copying goes on. So what is known of
  copies is told of every later graph, as for the operations on one graph:
  each copy pictures its source node, and it has the links of it to the
  copies of their targets.

  Main declarations:
    * `Node.PicturedIn`
    * `Copier.LinksCopied`
    * `Copier.Grows.copyLinksWithin`
    * `Copier.Grows.copyCell`
-/

-- Pictures Of Nodes

namespace HeapShape

open Checked

namespace Node

/-
  Node `n` is laid over `m` from offset `k` on, with its flags and with its
  allocation sites, apart from some that are left behind.
-/
structure PicturedIn
    (n m : Node)
    (k : Nat)
    (left : AllocSite → Prop) : Prop
    extends n.LiesIn m k where
  flags : ∀ f, f ≠ .foreign → f ≠ .array →
    n.flags.has f = true → m.flags.has f = true
  sites : ∀ s, s ∈ n.allocSites → left s ∨ s ∈ m.allocSites

variable {n m l : Node} {j k : Nat} {left left' : AllocSite → Prop}

/- A node that stands for the picture is a picture too. -/
theorem PicturedIn.stands
    (h : n.PicturedIn m j left)
    (h' : m.StandsFor l k)
    (hl : l.isCollapsed = true → l.isArray = false) :
    n.PicturedIn l (j + k) left where
  toLiesIn := h.toLiesIn.trans h'.toLiesIn hl
  flags := fun f hf hf' hHas =>
    h'.flags f hf hf' (h.flags f hf hf' hHas)
  sites := by
    intro s hs
    rcases h.sites s hs with hLeft | hSite
    · exact Or.inl hLeft
    · exact Or.inr (h'.sites s hSite)

end Node

namespace Graph

/- The node of a slot pictures a node. -/
def PicturedAt
    (g : Graph)
    (id : NodeId)
    (n : Node)
    (left : AllocSite → Prop) : Prop :=
  ∃ m k n', g.Leads id m k ∧ g.slot m = .live n' ∧
    n.PicturedIn n' k left

variable {g h : Graph} {id : NodeId} {n : Node} {left : AllocSite → Prop}

theorem PicturedAt.merged
    (hAt : g.PicturedAt id n left)
    (hm : Merged g h)
    (hh : h.WellFormed) :
    h.PicturedAt id n left := by
  rcases hAt with ⟨m, k, n', hLeads, hLive, hIn⟩
  rcases hm.leads _ _ _ hLeads with ⟨m', k', hEnd, hAll⟩
  rcases hEnd.live_end with ⟨n'', hLive'⟩
  exact ⟨m', k + k', n'', hAll, hLive', hIn.stands (hm.stands m n' m' k' n'' hLive hEnd hLive')
    (hh.nodes m' n'' hLive').collapsed_not_array⟩

variable {left' : AllocSite → Prop}

/- Sites that were noted since are no longer left behind. -/
theorem PicturedAt.noted
    (hAt : g.PicturedAt id n left)
    {noted : AllocSite → Prop}
    (hHas : g.NodeHas (fun n' => ∀ s, noted s → s ∈ n'.allocSites) id)
    (hLeft : ∀ s, s ∈ n.allocSites → left s → noted s ∨ left' s) :
    g.PicturedAt id n left' := by
  rcases hAt with ⟨m, k, n', hLeads, hLive, hIn⟩
  rcases hHas with ⟨m', k', n'', hLeads', hLive', hSites⟩
  rcases hLeads.unique hLeads' with ⟨rfl, rfl⟩
  rw [hLive] at hLive'
  cases hLive'
  refine ⟨m, k, n', hLeads, hLive, hIn.toLiesIn, hIn.flags, ?_⟩
  intro s hs
  rcases hIn.sites s hs with hBehind | hSite
  · rcases hLeft s hs hBehind with hNoted | hStill
    · exact Or.inr (hSites s hNoted)
    · exact Or.inl hStill
  · exact Or.inr hSite

/- Fewer sites are left behind than was said. -/
theorem PicturedAt.imp
    (hAt : g.PicturedAt id n left)
    (hLeft : ∀ s, left s → left' s) :
    g.PicturedAt id n left' := by
  rcases hAt with ⟨m, k, n', hLeads, hLive, hIn⟩
  refine ⟨m, k, n', hLeads, hLive, hIn.toLiesIn, hIn.flags, ?_⟩
  intro s hs
  rcases hIn.sites s hs with hBehind | hSite
  · exact Or.inl (hLeft s hBehind)
  · exact Or.inr hSite

end Graph

-- Copiers

namespace Copier

/- The site of a source node stays behind. -/
def Leaves
    (k : Copier)
    (src : NodeId)
    (s : AllocSite) : Prop :=
  k.options.stripAllocas = true ∧ s.isStack = true ∧
    src ∉ k.forced

/- Every copy is a picture of its source node. -/
structure Pictured
    (k : Copier) : Prop where
  source : k.source.WellFormed
  dest : k.dest.WellFormed
  copies : ∀ src c, k.copies.get? src = some c →
    ∃ n, k.source.slot src = .live n ∧
      k.dest.PicturedAt c n (k.Leaves src)

/- What was copied by force was copied. -/
def ForcedCopied
    (k : Copier) : Prop :=
  ∀ src, src ∈ k.forced → ∃ c, k.copies.get? src = some c

/- A copier that has gone on. -/
structure Extends
    (k k' : Copier) : Prop where
  source : k'.source = k.source
  options : k'.options = k.options
  copies : ∀ src c, k.copies.get? src = some c →
    k'.copies.get? src = some c
  forced : ∀ src, src ∈ k.forced → src ∈ k'.forced

/- The copies of arrays have the strides of the arrays. -/
def Strides
    (k : Copier)
    (last : Graph) : Prop :=
  ∀ src c n, k.copies.get? src = some c →
    k.source.slot src = .live n → n.isArray = true →
      last.StrideAt c n.size

/- A copy has a link to the copy of a target. -/
def LinkCopied
    (E : Prop)
    (k : Copier)
    (last : Graph)
    (copy : NodeId)
    (link : Field × Cell) : Prop :=
  ∃ u target, k.source.resolve link.2 = .ok u ∧
    k.copies.get? u.node = some target ∧
    last.Linked E
      { node := copy, offset := link.1.offset }
      link.1.type?
      { node := target, offset := u.offset }

/- The copy of a source node has the links of it. -/
def LinksCopied
    (E : Prop)
    (k : Copier)
    (last : Graph)
    (src : NodeId) : Prop :=
  ∃ n c, k.source.slot src = .live n ∧
    k.copies.get? src = some c ∧
    ∀ link ∈ n.links.entries, k.LinkCopied E last c link

/-
  A step of copying, which binds roots of `R` only. Whatever graph is the
  last one, if it has the links of the destination, then `Q` holds of it.
-/
structure Grows
    (E : Prop)
    (R : Root → Prop)
    (k k' : Copier)
    (Q : Graph → Prop) : Prop where
  extension : Extends k k'
  pictured : k'.Pictured
  forced : k.ForcedCopied → k'.ForcedCopied
  roots : ∀ r, ¬ R r →
    k'.dest.roots.get? r = k.dest.roots.get? r
  carries : Graph.Carries E k.dest k'.dest k'.Strides
    fun last => Graph.LinksHold E k.dest last ∧ Q last

open Graph

variable {E : Prop} {R : Root → Prop} {k k' k'' : Copier} {P Q : Graph → Prop} {last dest : Graph}
variable {src copy : NodeId} {link : Field × Cell}

theorem Extends.refl
    (k : Copier) :
    Extends k k where
  source := rfl
  options := rfl
  copies := fun _ _ hCopy => hCopy
  forced := fun _ hForced => hForced

theorem Extends.trans
    (h : Extends k k')
    (h' : Extends k' k'') :
    Extends k k'' where
  source := h'.source.trans h.source
  options := h'.options.trans h.options
  copies := fun src c hCopy =>
    h'.copies src c (h.copies src c hCopy)
  forced := fun src hForced =>
    h'.forced src (h.forced src hForced)

theorem Strides.of_extends
    (hAll : k'.Strides last)
    (h : Extends k k') :
    k.Strides last := by
  intro src c n hCopy hLive hArray
  rw [← h.source] at hLive
  exact hAll src c n (h.copies src c hCopy) hLive hArray

theorem LinkCopied.extended
    (hLink : k.LinkCopied E last copy link)
    (h : Extends k k') :
    k'.LinkCopied E last copy link := by
  rcases hLink with ⟨u, target, hResolve, hCopy, hLinked⟩
  exact ⟨u, target, by rw [h.source, hResolve], h.copies _ _ hCopy, hLinked⟩

theorem LinksCopied.extended
    (hLinks : k.LinksCopied E last src)
    (h : Extends k k') :
    k'.LinksCopied E last src := by
  rcases hLinks with ⟨n, c, hLive, hCopy, hAll⟩
  exact ⟨n, c, by rw [h.source, hLive], h.copies _ _ hCopy,
    fun link hMem => (hAll link hMem).extended h⟩

/- Steps one after the other. -/
theorem Grows.trans
    (h : Grows E R k k' P)
    (h' : Grows E R k' k'' Q) :
    Grows E R k k'' fun last => P last ∧ Q last where
  extension := h.extension.trans h'.extension
  pictured := h'.pictured
  forced := fun hForced => h'.forced (h.forced hForced)
  roots := fun r hr => (h'.roots r hr).trans (h.roots r hr)
  carries := by
    apply (h.carries.trans h'.carries).imp
    · intro last _ hStrides
      exact ⟨hStrides.of_extends h'.extension, hStrides⟩
    · rintro last _ _ ⟨⟨hLinks, hP⟩, hQ⟩
      exact ⟨hLinks, hP, hQ⟩

/- What a step achieves, told in other words. -/
theorem Grows.imp
    (h : Grows E R k k' P)
    (hPQ : ∀ last, Later k'.dest last → P last → Q last) :
    Grows E R k k' Q where
  extension := h.extension
  pictured := h.pictured
  forced := h.forced
  roots := h.roots
  carries := h.carries.imp (fun _ _ hS => hS) fun last hLast _ hAll =>
      ⟨hAll.1, hPQ last hLast hAll.2⟩

/- A picture of the source is kept in later graphs. -/
theorem Pictured.setDest
    (hk : k.Pictured)
    (hLater : Later k.dest dest) :
    ({ k with dest := dest } : Copier).Pictured where
  source := hk.source
  dest := hLater.wellFormed
  copies := by
    intro src c hCopy
    rcases hk.copies src c hCopy with ⟨n, hLive, hAt⟩
    exact ⟨n, hLive, hAt.merged hLater.merged hLater.wellFormed⟩

/- Operations on the destination alone. -/
theorem Grows.of_carries
    (hk : k.Pictured)
    (hRoots : ∀ r, ¬ R r → dest.roots.get? r = k.dest.roots.get? r)
    (hStep : Carries E k.dest dest (fun _ => True) fun last => LinksHold E k.dest last ∧ Q last) :
    Grows E R k { k with dest := dest } Q where
  extension := ⟨rfl, rfl, fun _ _ hCopy => hCopy, fun _ hForced => hForced⟩
  pictured := hk.setDest hStep.later
  forced := id
  roots := hRoots
  carries := hStep.imp (fun _ _ _ => trivial) fun _ _ _ hAll => hAll

theorem Grows.refl
    (hk : k.Pictured) :
    Grows E R k k fun _ => True :=
  .of_carries hk (fun _ _ => rfl) ((Carries.refl hk.dest).imp
    (fun _ _ hS => hS) fun _ _ _ hLinks => ⟨hLinks, trivial⟩)

-- Copying One Node

open Graph

variable {force : Bool} {n : Node}

/- Every site that is not left behind is taken along. -/
theorem mem_sitesOf
    {s : AllocSite}
    (hs : s ∈ n.allocSites)
    (hTaken : force = true ∨ k.options.stripAllocas = false ∨ s.isStack = false) :
    ∃ p ∈ k.sitesOf n force, p.1 = s := by
  unfold sitesOf
  simp only [List.mem_map, List.mem_filter, OrdSet.mem_toList_iff]
  refine ⟨_, ⟨s, ⟨hs, ?_⟩, rfl⟩, rfl⟩
  simpa [or_assoc] using hTaken

/- Noting sites at a node of the destination. -/
theorem carries_addSites
    (hDest : k.dest.WellFormed)
    {node : NodeId}
    {sites : List (AllocSite × CallPath)}
    (hRun : k.addSites node sites = .ok k') :
    ∃ dest, k' = { k with dest := dest } ∧ Carries E k.dest dest (fun _ => True) (fun last =>
        LinksHold E k.dest last) ∧
      dest.roots = k.dest.roots ∧
      dest.NodeHas (fun n => ∀ s, (∃ p ∈ sites, p.1 = s) → s ∈ n.allocSites) node := by
  rcases addSites_eq_ok hRun with ⟨dest, f, rfl, hModify, hEnriches, hSites⟩
  have hKept : Rewired k.dest dest (fun _ => False) :=
    .modifyNode hDest.freeListed (fun n => (hEnriches k.dest.config n).links) hModify
  refine ⟨dest, rfl, .of_sound ?_ (fun r c hRoot => by rw [hKept.roots, hRoot])
    hKept.callSites, hKept.roots, ?_⟩
  · exact Sound.modifyNode hDest (fun n _ => hEnriches _ n) hModify
  · apply NodeHas.modifyNode _ hModify
    intro n s hMem
    exact (hSites n s).mpr (Or.inr hMem)

/- A fresh node with the facts of a source node. -/
theorem carries_freshCopy
    {g h : Graph}
    (hg : g.WellFormed)
    {config : GraphConfig}
    (hn : n.WellFormed config)
    {flags : Flags}
    (hFlags : ∀ f, f ≠ .foreign → flags.has f = n.flags.has f)
    (hRun : (g.createNode flags n.size).2.modifyContents
      (g.createNode flags n.size).1
      (fun m => { m with types := n.types }) = .ok h) :
    Carries E g h (fun last => n.isArray = true →
        last.StrideAt (g.createNode flags n.size).1 n.size)
      (fun last => LinksHold E g last) ∧
    h.roots = g.roots ∧
    h.PicturedAt (g.createNode flags n.size).1 n (fun _ => True) := by
  have hArray := hFlags .array (by decide)
  have hCollapsed := hFlags .offsetCollapsed (by decide)
  have hFresh := wellFormed_fresh hn hCollapsed hArray g.config
  have hMade := Carries.createNode (E := E) hg flags n.size hFresh
  have hSlot := (hg.slot_createNode flags n.size).2 (g.createNode flags n.size).1
  rw [if_pos rfl] at hSlot
  rw [modifyContents_of_live hSlot] at hRun
  cases hRun
  have hTyped := wellFormed_fresh_typed hn hCollapsed hArray g.config
  rw [← config_createNode flags n.size] at hTyped
  have hFacts : (freshNode flags n.size).StandsFor
      { freshNode flags n.size with types := n.types } 0 :=
    .of_same_facts hn.size_lt rfl (Nat.le_refl _) rfl rfl
  have hSet := Carries.of_derived (Sound.setLive_of_same_links (E := E)
      hMade.later.wellFormed hSlot hTyped hFacts
      (fun _ hIs => hIs) rfl)
    (Derived.setLive_of_same_links (T := fun _ => False)
      hMade.later.wellFormed.freeListed hSlot _ rfl rfl)
  refine ⟨(hMade.keep hSet).imp ?_ fun _ _ _ hLinks => hLinks, roots_createNode flags n.size, ?_⟩
  · intro last _ hAt hIs
    rw [hArray] at hIs
    exact hAt hIs
  · have hNew := slot_setSlot (lt_size_of_live hSlot)
      (.live { freshNode flags n.size with types := n.types })
      (g.createNode flags n.size).1
    rw [if_pos rfl] at hNew
    refine ⟨_, 0, _, .live hNew, hNew, ?_, ?_, ?_⟩
    · exact .of_same_kind hCollapsed hArray (Nat.le_refl _) hn.size_lt
    · intro f hForeign _ hHas
      exact (hFlags f hForeign).trans hHas
    · exact fun _ _ => Or.inl trivial

/-
  The copy of a source node. Its links are still owed, so the node is not
  yet counted as copied with them.
-/
theorem Grows.copyContents
    (hk : k.Pictured)
    (hNone : k.copies.get? src = none)
    (hLive : k.source.slot src = .live n)
    (hForce : src ∈ k.forced → force = true)
    (hRun : k.copyContents src force = .ok (copy, k')) :
    Grows E R k k' (fun _ => True) ∧ k'.forced = k.forced ∧ ∀ x, k'.copies.get? x =
        if x = src then some copy else k.copies.get? x := by
  rcases copyContents_eq_ok hRun with
    ⟨n', flags, dest, k₁, hContents, hIs, rfl, hTypes, hSites,
      rfl⟩
  rcases eq_of_contents hLive hContents with rfl
  have hFlags : ∀ f, f ≠ Flag.foreign → _ :=
    fun f hf => has_copied_flags k.options n'.flags hf
  rw [← hIs] at hFlags
  rcases carries_freshCopy (E := E) hk.dest (hk.source.nodes _ _ hLive) hFlags hTypes with
    ⟨hMade, hBound, hAt⟩
  generalize (k.dest.createNode flags n'.size).1 = copy at hSites hMade hAt
  rcases carries_addSites (E := E) hMade.later.wellFormed
      hSites with ⟨dest', rfl, hNoted, hBound', hHas⟩
  have hGet : ∀ x, (k.copies.insert src copy).get? x =
      if x = src then some copy else k.copies.get? x :=
    fun x => OrdMap.get?_insert _ _ _ _
  have hOld : ∀ x c, k.copies.get? x = some c → (k.copies.insert src copy).get? x = some c := by
    intro x c hCopy
    rw [hGet, if_neg, hCopy]
    rintro rfl
    rw [hNone] at hCopy
    cases hCopy
  have hLater := hMade.later.trans hNoted.later
  refine ⟨⟨⟨rfl, rfl, hOld, fun _ hForced => hForced⟩,
    ⟨hk.source, hLater.wellFormed, ?_⟩, ?_, ?_, ?_⟩, rfl,
    hGet⟩
  · intro x c hCopy
    dsimp only at hCopy
    rw [hGet] at hCopy
    split at hCopy
    · next hEq =>
      cases hCopy
      subst hEq
      refine ⟨n', hLive, ?_⟩
      have hLast := hAt.merged hNoted.later.merged hLater.wellFormed
      apply hLast.noted hHas
      intro s hs _
      by_cases hTaken : force = true ∨ k.options.stripAllocas = false ∨ s.isStack = false
      · exact Or.inl (mem_sitesOf hs hTaken)
      · simp only [not_or, Bool.not_eq_false] at hTaken
        exact Or.inr ⟨hTaken.2.1, hTaken.2.2, fun hForced => hTaken.1 (hForce hForced)⟩
    · rcases hk.copies x c hCopy with ⟨nx, hx, hPic⟩
      exact ⟨nx, hx, hPic.merged hLater.merged hLater.wellFormed⟩
  · intro hAll x hx
    rcases hAll x hx with ⟨c, hCopy⟩
    exact ⟨c, hOld x c hCopy⟩
  · intro r _
    rw [hBound'.trans hBound]
  · apply (hMade.keep hNoted).imp
    · intro last _ hStrides
      apply hStrides src copy n' _ hLive
      dsimp only
      rw [hGet, if_pos rfl]
    · exact fun last _ _ hLinks => ⟨hLinks, trivial⟩

-- Copying Links

open Graph

variable {stack stack' : List NodeId}

/-
  What a visit of links does to the stack: what is copied now is put on it,
  and nothing is taken away.
-/
structure Stacks
    (k k' : Copier)
    (stack stack' : List NodeId) : Prop where
  kept : ∀ x ∈ stack, x ∈ stack'
  copied : ∀ x ∈ stack', x ∈ stack ∨
    ∃ c, k'.copies.get? x = some c
  fresh : ∀ x c, k'.copies.get? x = some c →
    k.copies.get? x = none → x ∈ stack'

/- The target of a link has a copy, made now or before. -/
theorem Grows.copyLink
    (hk : k.Pictured)
    (hForced : k.ForcedCopied)
    (hLink : k.source.Has link.2)
    (hRun : copyLink copy (k, stack) link = .ok (k', stack')) :
    Grows E R k k' (fun last => k'.LinkCopied E last copy link) ∧
      Stacks k k' stack stack' := by
  rcases copyLink_eq_ok hRun with ⟨t, target, k₁, dest, hResolve, hTarget, hAdd, rfl⟩
  rcases resolve_eq_ok hLink.word hResolve with ⟨_, n, _, hLive, _⟩
  have hFirst : Grows E R k k₁ (fun _ => True) ∧ Stacks k k₁ stack stack' ∧
      k₁.copies.get? t.node = some target := by
    rcases hTarget with ⟨hCopy, rfl, rfl⟩ | ⟨hNone, hMake, rfl⟩
    · refine ⟨.refl hk, ?_, hCopy⟩
      refine ⟨fun _ hx => hx, fun _ hx => Or.inl hx, ?_⟩
      intro x c hx hNone
      rw [hNone] at hx
      cases hx
    · have hNot : t.node ∈ k.forced → false = true := by
        intro hMem
        rcases hForced t.node hMem with ⟨c, hc⟩
        rw [hNone] at hc
        cases hc
      rcases Grows.copyContents (E := E) (R := R) hk hNone hLive hNot hMake with ⟨hMade, _, hGet⟩
      have hHere : k₁.copies.get? t.node = some target := by
        rw [hGet, if_pos rfl]
      refine ⟨hMade, ?_, hHere⟩
      refine ⟨fun x hx => List.mem_cons_of_mem _ hx, ?_, ?_⟩
      · intro x hx
        rcases List.mem_cons.mp hx with rfl | hx
        · exact Or.inr ⟨target, hHere⟩
        · exact Or.inl hx
      · intro x c hx hWas
        rw [hGet] at hx
        split at hx
        · next hEq =>
          rw [hEq]
          exact List.mem_cons_self
        · rw [hWas] at hx
          cases hx
  rcases hFirst with ⟨hMade, hStack, hCopy⟩
  have hBound := (Fused.addLink (T := fun _ => True)
    hMade.pictured.dest.freeListed trivial hAdd).roots
  have hAdded := Grows.of_carries (R := R) hMade.pictured (fun r _ => by rw [hBound])
    (Carries.addLink (E := E) hMade.pictured.dest hAdd)
  refine ⟨(hMade.trans hAdded).imp ?_, hStack.kept, hStack.copied, hStack.fresh⟩
  rintro last _ ⟨_, hLinked⟩
  refine ⟨t, target, ?_, hCopy, hLinked⟩
  dsimp only
  rw [hMade.extension.source, hResolve]

variable {k₁ : Copier} {fuel : Nat}

theorem Stacks.trans
    {stack₁ : List NodeId}
    (h : Stacks k k₁ stack stack₁)
    (h' : Stacks k₁ k' stack₁ stack')
    (hNext : Extends k₁ k') :
    Stacks k k' stack stack' where
  kept := fun x hx => h'.kept x (h.kept x hx)
  copied := by
    intro x hx
    rcases h'.copied x hx with hMid | hNew
    · rcases h.copied x hMid with hOld | ⟨c, hc⟩
      · exact Or.inl hOld
      · exact Or.inr ⟨c, hNext.copies x c hc⟩
    · exact Or.inr hNew
  fresh := by
    intro x c hx hNone
    cases hMid : k₁.copies.get? x with
    | none => exact h'.fresh x c hx hMid
    | some c' => exact h'.kept x (h.fresh x c' hMid hNone)

/- The links of a node are copied one by one. -/
theorem Grows.copyLinks
    (hk : k.Pictured)
    (hForced : k.ForcedCopied)
    {links : List (Field × Cell)}
    (hLinks : ∀ link ∈ links, k.source.Has link.2)
    (hRun : links.foldlM (Copier.copyLink copy) (k, stack) = .ok (k', stack')) :
    Grows E R k k' (fun last => ∀ link ∈ links, k'.LinkCopied E last copy link) ∧
      Stacks k k' stack stack' := by
  induction links generalizing k stack with
  | nil =>
    cases hRun
    refine ⟨(Grows.refl hk).imp ?_, fun _ hx => hx, fun _ hx => Or.inl hx, ?_⟩
    · intro last _ _ link hMem
      cases hMem
    · intro x c hx hNone
      rw [hNone] at hx
      cases hx
  | cons link links ih =>
    rw [List.foldlM_cons] at hRun
    rcases of_bind hRun with ⟨⟨k₁, stack₁⟩, hStep, hRun⟩
    rcases Grows.copyLink (E := E) (R := R) hk hForced (hLinks link List.mem_cons_self) hStep with
      ⟨hFirst, hStack⟩
    rcases ih hFirst.pictured (hFirst.forced hForced) (fun l hl => by
          rw [hFirst.extension.source]
          exact hLinks l (List.mem_cons_of_mem _ hl))
        hRun with ⟨hRest, hStack'⟩
    refine ⟨(hFirst.trans hRest).imp ?_, hStack.trans hStack' hRest.extension⟩
    rintro last _ ⟨hHead, hTail⟩ l hl
    rcases List.mem_cons.mp hl with rfl | hl
    · exact hHead.extended hRest.extension
    · exact hTail l hl

/- Nothing is copied, and no links are owed. -/
theorem Grows.of_nothing
    (hk : k.Pictured) :
    Grows E R k k fun last => ∀ x c, k.copies.get? x = some c →
      x ∈ [] ∨ k.copies.get? x = none → k.LinksCopied E last x := by
  apply (Grows.refl hk).imp
  rintro last _ _ x c hx (hMem | hNone)
  · cases hMem
  · rw [hNone] at hx
    cases hx

/-
  All links of the nodes on the stack are copied, and those of every node
  that is copied on the way.
-/
theorem Grows.copyLinksWithin
    (hk : k.Pictured)
    (hForced : k.ForcedCopied)
    (hStack : ∀ x ∈ stack, ∃ c, k.copies.get? x = some c)
    (hRun : Copier.copyLinksWithin fuel k stack = .ok k') :
    Grows E R k k' fun last => ∀ x c, k'.copies.get? x = some c →
      x ∈ stack ∨ k.copies.get? x = none → k'.LinksCopied E last x := by
  induction fuel generalizing k stack with
  | zero =>
    cases stack with
    | nil =>
      cases hRun
      exact .of_nothing hk
    | cons src rest => cases hRun
  | succ fuel ih =>
    cases stack with
    | nil =>
      cases hRun
      exact .of_nothing hk
    | cons src rest =>
      rw [Copier.copyLinksWithin] at hRun
      rcases of_bind hRun with ⟨n, hContents, hRun⟩
      rcases of_bind hRun with ⟨⟨k₁, stack₁⟩, hFold, hRun⟩
      rcases hStack src List.mem_cons_self with ⟨copy, hCopy⟩
      rw [hCopy, Option.getD_some] at hFold
      rcases hk.copies src copy hCopy with ⟨n', hLive, _⟩
      rcases eq_of_contents hLive hContents with rfl
      rcases Grows.copyLinks (E := E) (R := R) hk hForced
          (fun link hMem => hk.source.link_has src n link.1 link.2 hLive
            ((OrdMap.get?_eq_some_iff _ _ _).mpr hMem))
          hFold with ⟨hFirst, hStacks⟩
      have hNext : ∀ x ∈ stack₁, ∃ c, k₁.copies.get? x = some c := by
        intro x hx
        rcases hStacks.copied x hx with hOld | hNew
        · rcases hStack x (List.mem_cons_of_mem _ hOld) with ⟨c, hc⟩
          exact ⟨c, hFirst.extension.copies x c hc⟩
        · exact hNew
      have hRest := ih hFirst.pictured (hFirst.forced hForced) hNext hRun
      apply (hFirst.trans hRest).imp
      rintro last _ ⟨hHere, hThere⟩ x c hx hCase
      have hLater : x ∈ stack₁ ∨ k₁.copies.get? x = none → k'.LinksCopied E last x := hThere x c hx
      rcases hCase with hMem | hNone
      · rcases List.mem_cons.mp hMem with rfl | hMem
        · have hCopy₁ := hFirst.extension.copies x _ hCopy
          have hLive₁ : k₁.source.slot x = .live n := by
            rw [hFirst.extension.source, hLive]
          exact LinksCopied.extended ⟨n, copy, hLive₁, hCopy₁, hHere⟩ hRest.extension
        · exact hLater (Or.inl (hStacks.kept x hMem))
      · cases hMid : k₁.copies.get? x with
        | none => exact hLater (Or.inr hMid)
        | some c' => exact hLater (Or.inl (hStacks.fresh x c' hMid hNone))

-- Copying What A Node Reaches

open Graph

variable {node : NodeId}

/- What is copied now has its links. -/
def NewLinked
    (E : Prop)
    (k k' : Copier)
    (last : Graph) : Prop :=
  ∀ x c, k'.copies.get? x = some c →
    k.copies.get? x = none → k'.LinksCopied E last x

theorem NewLinked.refl
    {last : Graph} :
    NewLinked E k k last := by
  intro x c hx hNone
  rw [hNone] at hx
  cases hx

theorem NewLinked.trans
    (h : NewLinked E k k₁ last)
    (h' : NewLinked E k₁ k' last)
    (hNext : Extends k₁ k') :
    NewLinked E k k' last := by
  intro x c hx hNone
  cases hMid : k₁.copies.get? x with
  | none => exact h' x c hx hMid
  | some c' => exact (h x c' hMid hNone).extended hNext

/- A node is about to be copied by force. -/
theorem Pictured.forcing
    (hk : k.Pictured)
    (hNone : k.copies.get? src = none) :
    ({ k with forced := k.forced.insert src } :
      Copier).Pictured where
  source := hk.source
  dest := hk.dest
  copies := by
    intro x c hCopy
    rcases hk.copies x c hCopy with ⟨n, hLive, hAt⟩
    refine ⟨n, hLive, hAt.imp ?_⟩
    rintro s ⟨hStrip, hStack, hNot⟩
    refine ⟨hStrip, hStack, ?_⟩
    intro hMem
    rcases (OrdSet.mem_insert_iff _ _ _).mp hMem with rfl | hMem
    · rw [hNone] at hCopy
      cases hCopy
    · exact hNot hMem

/- A step of a copier that was told to force a node. -/
theorem Grows.of_force
    (h : Grows E R
      { k with forced := k.forced.insert src } k' Q)
    (hForced : k'.ForcedCopied) :
    Grows E R k k' Q where
  extension :=
    { source := h.extension.source
      options := h.extension.options
      copies := h.extension.copies
      forced := fun x hx => h.extension.forced x ((OrdSet.mem_insert_iff _ _ _).mpr (Or.inr hx)) }
  pictured := h.pictured
  forced := fun _ => hForced
  roots := h.roots
  carries := h.carries

/- A node that has no copy is copied with all it reaches. -/
theorem Grows.copyAll
    (hk : k.Pictured)
    (hNone : k.copies.get? src = none)
    (hLive : k.source.slot src = .live n)
    (hForce : src ∈ k.forced → force = true)
    (hOthers : ∀ x ∈ k.forced, x = src ∨ ∃ c, k.copies.get? x = some c)
    (hMake : k.copyContents src force = .ok (copy, k₁))
    (hRun : Copier.copyLinksWithin fuel k₁ [src] = .ok k') :
    Grows E R k k' (NewLinked E k k') ∧ k'.copies.get? src = some copy ∧
      k'.ForcedCopied := by
  rcases Grows.copyContents (E := E) (R := R) hk hNone hLive hForce hMake with ⟨hMade, hSame, hGet⟩
  have hHere : k₁.copies.get? src = some copy := by
    rw [hGet, if_pos rfl]
  have hForced₁ : k₁.ForcedCopied := by
    intro x hx
    rw [hSame] at hx
    rcases hOthers x hx with rfl | ⟨c, hc⟩
    · exact ⟨copy, hHere⟩
    · exact ⟨c, hMade.extension.copies x c hc⟩
  have hStack : ∀ x ∈ [src], ∃ c, k₁.copies.get? x = some c := by
    intro x hx
    rw [List.mem_singleton.mp hx]
    exact ⟨copy, hHere⟩
  have hRest := Grows.copyLinksWithin (E := E) (R := R) hMade.pictured hForced₁ hStack hRun
  refine ⟨(hMade.trans hRest).imp ?_, hRest.extension.copies _ _ hHere, hRest.forced hForced₁⟩
  rintro last _ ⟨_, hLinks⟩ x c hx hWas
  apply hLinks x c hx
  by_cases hEq : x = src
  · exact Or.inl (List.mem_singleton.mpr hEq)
  · right
    rw [hGet, if_neg hEq, hWas]

/- A copy that was made before is given all sites. -/
theorem Grows.forceSites
    (hk : k.Pictured)
    (hLive : k.source.slot src = .live n)
    (hCopy : k.copies.get? src = some copy)
    (hRun : ({ k with forced := k.forced.insert src } :
      Copier).addSites copy (({ k with
        forced := k.forced.insert src } :
          Copier).sitesOf n true) = .ok k') :
    Grows E R k k' (NewLinked E k k') ∧ k'.copies.get? src = some copy ∧ src ∈ k'.forced := by
  have hDest : ({ k with forced := k.forced.insert src } :
      Copier).dest.WellFormed := hk.dest
  rcases carries_addSites (E := E) hDest hRun with ⟨dest, rfl, hNoted, hBound, hHas⟩
  have hIn : src ∈ k.forced.insert src := (OrdSet.mem_insert_iff _ _ _).mpr (Or.inl rfl)
  refine ⟨⟨⟨rfl, rfl, fun _ _ hc => hc, ?_⟩, ⟨hk.source, hNoted.later.wellFormed, ?_⟩, ?_, ?_, ?_⟩,
    hCopy, hIn⟩
  · exact fun x hx =>
      (OrdSet.mem_insert_iff _ _ _).mpr (Or.inr hx)
  · intro x c hc
    rcases hk.copies x c hc with ⟨nx, hx, hAt⟩
    refine ⟨nx, hx, ?_⟩
    have hLast := hAt.merged hNoted.later.merged hNoted.later.wellFormed
    by_cases hEq : x = src
    · subst hEq
      rw [hLive] at hx
      cases hx
      change k.copies.get? x = some c at hc
      rw [hCopy] at hc
      cases hc
      apply hLast.noted hHas
      intro s hs _
      exact Or.inl (mem_sitesOf hs (Or.inl rfl))
    · apply hLast.imp
      rintro s ⟨hStrip, hStack, hNot⟩
      refine ⟨hStrip, hStack, fun hMem => ?_⟩
      rcases (OrdSet.mem_insert_iff _ _ _).mp hMem with rfl | hMem
      · exact hEq rfl
      · exact hNot hMem
  · intro hForced x hx
    rcases (OrdSet.mem_insert_iff _ _ _).mp hx with rfl | hx
    · exact ⟨copy, hCopy⟩
    · exact hForced x hx
  · intro r _
    dsimp only
    rw [hBound]
  · exact hNoted.imp (fun _ _ _ => trivial) fun _ _ _ hLinks => ⟨hLinks, NewLinked.refl⟩

/- The copy of a node, made on first use. -/
theorem Grows.copyOf
    (hk : k.Pictured)
    (hForced : k.ForcedCopied)
    (hRun : k.copyOf node force = .ok (copy, k')) :
    ∃ c, k.source.resolve (Cell.start node) = .ok c ∧ k'.copies.get? c.node = some copy ∧
      (force = true → k.options.stripAllocas = true → c.node ∈ k'.forced) ∧
      Grows E R k k' (NewLinked E k k') := by
  rcases copyOf_eq_ok hRun with ⟨c, hResolve, hCases⟩
  refine ⟨c, hResolve, ?_⟩
  rcases leads_of_resolve hResolve with ⟨_, hLeads, _⟩
  rcases hLeads.live_end with ⟨n, hLive⟩
  rcases hCases with ⟨hCopy, _, n', hContents, hSites⟩ |
    ⟨hCopy, hNot, rfl⟩ | ⟨hNone, k₁, hMake, hLinks⟩
  · rcases eq_of_contents hLive hContents with rfl
    rcases Grows.forceSites (E := E) (R := R) hk hLive hCopy hSites with ⟨hGrows, hHere, hIn⟩
    exact ⟨hHere, fun _ _ => hIn, hGrows⟩
  · refine ⟨hCopy, ?_, (Grows.refl hk).imp fun _ _ _ =>
      NewLinked.refl⟩
    intro hForce hStrip
    rw [hForce, hStrip] at hNot
    change k'.forced.contains c.node = true
    simpa using hNot
  · cases force with
    | false =>
      have hNot : c.node ∈ k.forced → false = true := by
        intro hMem
        rcases hForced c.node hMem with ⟨x, hx⟩
        rw [hNone] at hx
        cases hx
      rcases Grows.copyAll (E := E) (R := R) hk hNone hLive
          hNot (fun x hx => Or.inr (hForced x hx)) hMake
          hLinks with ⟨hGrows, hHere, _⟩
      exact ⟨hHere, (fun hForce => by cases hForce), hGrows⟩
    | true =>
      rcases Grows.copyAll (E := E) (R := R) (hk.forcing hNone) hNone hLive (fun _ => rfl)
          (fun x hx => by
            rcases (OrdSet.mem_insert_iff _ _ _).mp hx with rfl | hx
            · exact Or.inl rfl
            · exact Or.inr (hForced x hx)) hMake
          hLinks with ⟨hGrows, hHere, hAll⟩
      refine ⟨hHere, fun _ _ => hGrows.extension.forced _
        ((OrdSet.mem_insert_iff _ _ _).mpr (Or.inl rfl)), ?_⟩
      exact hGrows.of_force hAll

/- The image of a cell lies in the copy of its node. -/
theorem Grows.copyCell
    (hk : k.Pictured)
    (hForced : k.ForcedCopied)
    {c image : Cell}
    (hRun : k.copyCell c force = .ok (image, k')) :
    ∃ d copy, k.source.resolve c = .ok d ∧ k'.copies.get? d.node = some copy ∧
      (force = true → k.options.stripAllocas = true → d.node ∈ k'.forced) ∧
      Grows E R k k' fun last => NewLinked E k k' last ∧
        last.SamePlace { node := copy, offset := d.offset }
          image := by
  rcases copyCell_eq_ok hRun with ⟨d, copy, k₁, dest, hResolve, hCopyOf, hFind, rfl⟩
  rcases Grows.copyOf (E := E) (R := R) hk hForced hCopyOf with ⟨e, hStart, hCopy, hIn, hGrows⟩
  -- The node is live, so it is its own end.
  have hNode : e.node = d.node := by
    rcases leads_of_resolve hResolve with ⟨_, hLeads, _⟩
    rcases hLeads.live_end with ⟨n, hLive⟩
    rcases leads_of_resolve hStart with ⟨_, hEnd, _⟩
    exact (hEnd.eq_of_live hLive).1
  rw [hNode] at hCopy hIn
  refine ⟨d, copy, hResolve, hCopy, hIn, ?_⟩
  have hBound := (Fused.find (T := fun _ => False) hGrows.pictured.dest.freeListed hFind).1.roots
  have hFound := Grows.of_carries (R := R) hGrows.pictured (fun r _ => by rw [hBound])
    (Carries.find (E := E) hGrows.pictured.dest hFind)
  exact hGrows.trans hFound

end Copier

end HeapShape
