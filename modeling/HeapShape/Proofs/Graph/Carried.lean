import HeapShape.Proofs.Graph.Congruence
import HeapShape.Proofs.Graph.Derived

/-
  What the operations on a graph yield for all later graphs.

  A graph is built by many operations, and each must leave alone what the
  ones before it achieved. `Graph.Carries` says of a step what it achieves
  in whatever graph is the last one. Steps may make arrays; what they
  achieve for addresses then asks for the strides of these arrays.

  Main declarations:
    * `Graph.Later`
    * `Graph.Carries.makeLink`
    * `Graph.Carries.bindRoot`
    * `Graph.Carries.valueCell`
-/

-- Later Graphs

namespace HeapShape

open Checked

namespace Graph

/- What becomes of a graph by operations that lose nothing. -/
structure Later
    (g h : Graph) : Prop where
  wellFormed : h.WellFormed
  merged : Merged g h
  roots : ∀ r c, g.roots.get? r = some c →
    h.roots.get? r = some c
  callSites : h.callSites = g.callSites

/- The root has a cell in the place of a cell. -/
def RootAt
    (g : Graph)
    (r : Root)
    (c : Cell) : Prop :=
  ∃ d, g.roots.get? r = some d ∧ g.SamePlace d c

/- The formal or the scalar of a value is at a cell. -/
def ValueAt
    (g : Graph)
    (v : ValueId)
    (c : Cell) : Prop :=
  ∃ r, (r = .formal v ∨ r = .scalar v) ∧ g.RootAt r c

/- The node of a slot has a property. -/
def NodeHas
    (g : Graph)
    (P : Node → Prop)
    (id : NodeId) : Prop :=
  ∃ m k n, g.Leads id m k ∧ g.slot m = .live n ∧ P n

variable {g h i : Graph} {c d : Cell} {r : Root} {v : ValueId} {id m : NodeId} {stride : Nat}

/- Slots of one chain have one node. -/
theorem StrideAt.of_leads
    (hAt : h.StrideAt id stride)
    (hm : Merged g h)
    {k : Nat}
    (hLeads : g.Leads id m k) :
    h.StrideAt m stride := by
  rcases hm.leads id m k hLeads with ⟨x, j, hEnd, hAll⟩
  intro y i n hy hLive hArray
  rcases hy.unique hEnd with ⟨rfl, rfl⟩
  exact hAt y _ n hAll hLive hArray

theorem Later.refl
    (hg : g.WellFormed) :
    Later g g where
  wellFormed := hg
  merged := .refl hg
  roots := fun _ _ hRoot => hRoot
  callSites := rfl

theorem Later.trans
    (hgh : Later g h)
    (hhi : Later h i) :
    Later g i where
  wellFormed := hhi.wellFormed
  merged := hgh.merged.trans hhi.wellFormed hhi.merged
  roots := fun r c hRoot =>
    hhi.roots r c (hgh.roots r c hRoot)
  callSites := hhi.callSites.trans hgh.callSites

/- Merging keeps cells in one node, and in one place. -/
theorem SameNode.merged
    (hcd : g.SameNode c d)
    (hm : Merged g h) :
    h.SameNode c d := by
  rcases hcd with ⟨m, j, k, hc, hd⟩
  rcases hm.leads _ _ _ hc with ⟨m₁, k₁, hEnd, hc'⟩
  rcases hm.leads _ _ _ hd with ⟨m₂, k₂, hEnd', hd'⟩
  rcases hEnd.unique hEnd' with ⟨rfl, rfl⟩
  exact ⟨m₁, _, _, hc', hd'⟩

theorem SamePlace.merged
    (hcd : g.SamePlace c d)
    (hm : Merged g h) :
    h.SamePlace c d := by
  rcases hcd with ⟨m, j, k, hc, hd, hEq⟩
  rcases hm.leads _ _ _ hc with ⟨m₁, k₁, hEnd, hc'⟩
  rcases hm.leads _ _ _ hd with ⟨m₂, k₂, hEnd', hd'⟩
  rcases hEnd.unique hEnd' with ⟨rfl, rfl⟩
  exact ⟨m₁, _, _, hc', hd', by omega⟩

theorem RootAt.later
    (hRoot : g.RootAt r c)
    (hgh : Later g h) :
    h.RootAt r c := by
  rcases hRoot with ⟨d, hGet, hPlace⟩
  exact ⟨d, hgh.roots r d hGet, hPlace.merged hgh.merged⟩

theorem ValueAt.later
    (hValue : g.ValueAt v c)
    (hgh : Later g h) :
    h.ValueAt v c := by
  rcases hValue with ⟨r, hr, hRoot⟩
  exact ⟨r, hr, hRoot.later hgh⟩

theorem NodeHas.imp
    {P Q : Node → Prop}
    (hHas : g.NodeHas P id)
    (hPQ : ∀ n, P n → Q n) :
    g.NodeHas Q id := by
  rcases hHas with ⟨m, k, n, hLeads, hLive, hn⟩
  exact ⟨m, k, n, hLeads, hLive, hPQ n hn⟩

theorem NodeHas.of_sameNode
    {P : Node → Prop}
    (hHas : g.NodeHas P c.node)
    (hNode : g.SameNode c d) :
    g.NodeHas P d.node := by
  rcases hHas with ⟨m, k, n, hLeads, hLive, hn⟩
  rcases hNode with ⟨m', j, j', hc, hd⟩
  rcases hLeads.unique hc with ⟨rfl, _⟩
  exact ⟨m, j', n, hd, hLive, hn⟩

theorem NodeHas.and
    {P Q : Node → Prop}
    (hP : g.NodeHas P id)
    (hQ : g.NodeHas Q id) :
    g.NodeHas (fun n => P n ∧ Q n) id := by
  rcases hP with ⟨m, k, n, hLeads, hLive, hn⟩
  rcases hQ with ⟨m', k', n', hLeads', hLive', hn'⟩
  rcases hLeads.unique hLeads' with ⟨rfl, rfl⟩
  rw [hLive] at hLive'
  cases hLive'
  exact ⟨m, k, n, hLeads, hLive, hn, hn'⟩

/- A node keeps what every node that stands for it has. -/
theorem NodeHas.merged
    {P : Node → Prop}
    (hHas : g.NodeHas P id)
    (hm : Merged g h)
    (hP : ∀ n n' k, n.StandsFor n' k → P n → P n') :
    h.NodeHas P id := by
  rcases hHas with ⟨m, k, n, hLeads, hLive, hn⟩
  rcases hm.leads _ _ _ hLeads with ⟨m', k', hEnd, hAll⟩
  rcases hEnd.live_end with ⟨n', hLive'⟩
  exact ⟨m', _, n', hAll, hLive', hP n n' k' (hm.stands m n m' k' n' hLive hEnd hLive') hn⟩

-- Steps

/-
  A step from `g` to `h` and what it achieves. Whatever graph is the last
  one, if it has the links of `h`, then `Q` holds of it. Where addresses
  matter, the strides of `g` must be kept, and `S` says which strides the
  arrays have that the step makes.
-/
structure Carries
    (E : Prop)
    (g h : Graph)
    (S Q : Graph → Prop) : Prop where
  later : Later g h
  strides : E → ∀ last, Later h last →
    SameStrides g last → S last → SameStrides h last
  result : ∀ last, Later h last →
    (E → SameStrides g last ∧ S last) →
    LinksHold E h last → Q last

variable {E : Prop} {P Q R S : Graph → Prop}

/- Steps that make no array of their own. -/
theorem Carries.of_sound
    (hgh : Sound E g h Q)
    (hRoots : ∀ r c, g.roots.get? r = some c → h.roots.get? r = some c)
    (hCalls : h.callSites = g.callSites) :
    Carries E g h (fun _ => True) Q where
  later := ⟨hgh.wellFormed, hgh.merged, hRoots, hCalls⟩
  strides := fun hEx _ hLast hStrides _ =>
    hStrides.of_merged (hgh.arrays hEx) hgh.merged hLast.merged
  result := fun last hLast hStrides hLinks =>
    hgh.result last hLast.wellFormed hLast.merged (fun hEx => (hStrides hEx).1) hLinks

variable {T : Cell → Prop}

/- Steps of merging. -/
theorem Carries.of_derived
    (hgh : Sound E g h Q)
    (hDerived : Derived g h T) :
    Carries E g h (fun _ => True) Q :=
  .of_sound hgh (fun r c hRoot => by rw [hDerived.roots, hRoot]) hDerived.callSites

theorem Carries.refl
    (hg : g.WellFormed) :
    Carries E g g (fun _ => True) fun last => LinksHold E g last :=
  .of_sound (.refl hg) (fun _ _ hRoot => hRoot) rfl

/- Steps one after the other. -/
theorem Carries.trans
    (hgh : Carries E g h S P)
    (hhi : Carries E h i R fun last => LinksHold E h last ∧ Q last) :
    Carries E g i (fun last => S last ∧ R last) fun last =>
      P last ∧ Q last where
  later := hgh.later.trans hhi.later
  strides := by
    rintro hEx last hLast hStrides ⟨hS, hR⟩
    exact hhi.strides hEx last hLast (hgh.strides hEx last (hhi.later.trans hLast) hStrides hS) hR
  result := by
    intro last hLast hStrides hLinks
    have hMiddle := hhi.later.trans hLast
    have hBetween : E → SameStrides h last ∧ R last := by
      intro hEx
      rcases hStrides hEx with ⟨hOld, hS, hR⟩
      exact ⟨hgh.strides hEx last hMiddle hOld hS, hR⟩
    rcases hhi.result last hLast hBetween hLinks with ⟨hLinks', hQ⟩
    refine ⟨hgh.result last hMiddle ?_ hLinks', hQ⟩
    intro hEx
    rcases hStrides hEx with ⟨hOld, hS, _⟩
    exact ⟨hOld, hS⟩

/- What a step achieves, told in other words. -/
theorem Carries.imp
    (hgh : Carries E g h S P)
    (hStrides : ∀ last, Later h last → R last → S last)
    (hPQ : ∀ last, Later h last → (E → SameStrides g last) → P last → Q last) :
    Carries E g h R Q where
  later := hgh.later
  strides := fun hEx last hLast hOld hR =>
    hgh.strides hEx last hLast hOld (hStrides last hLast hR)
  result := by
    intro last hLast hAll hLinks
    apply hPQ last hLast (fun hEx => (hAll hEx).1)
    refine hgh.result last hLast ?_ hLinks
    intro hEx
    rcases hAll hEx with ⟨hOld, hR⟩
    exact ⟨hOld, hStrides last hLast hR⟩

/- A step that makes no array, after one that may. -/
theorem Carries.before
    (hgh : Carries E g h S P)
    (hhi : Carries E h i (fun _ => True) fun last => LinksHold E h last ∧ Q last) :
    Carries E g i S fun last => P last ∧ Q last :=
  (hgh.trans hhi).imp (fun _ _ hS => ⟨hS, trivial⟩) fun _ _ _ hAll => hAll

/- A step after which nothing new is known. -/
theorem Carries.keep
    (hgh : Carries E g h S P)
    (hhi : Carries E h i (fun _ => True) fun last => LinksHold E h last) :
    Carries E g i S P := by
  have hAnd : Carries E h i (fun _ => True) fun last =>
      LinksHold E h last ∧ True :=
    hhi.imp (fun _ _ hS => hS) fun _ _ _ hLinks => ⟨hLinks, trivial⟩
  exact (hgh.before hAnd).imp (fun _ _ hS => hS) fun _ _ _ hAll => hAll.1

/- What holds once a step is the last one. -/
theorem Carries.here
    (hgh : Carries E g h S Q)
    (hStrides : E → SameStrides g h ∧ S h) :
    Q h :=
  hgh.result h (.refl hgh.later.wellFormed) hStrides hgh.later.wellFormed.linksHold

-- Merging

variable {a b t : Cell} {type? : Option TypeTag}

theorem Carries.find
    (hg : g.WellFormed)
    (hFind : g.find c = .ok (d, h)) :
    Carries E g h (fun _ => True) fun last => LinksHold E g last ∧ last.SamePlace c d :=
  .of_derived (Sound.find hg hFind).1
    (Fused.find (T := fun _ => False) hg.freeListed hFind).1.toDerived

theorem Carries.unify
    (hg : g.WellFormed)
    (hRun : g.unify a b = .ok h) :
    Carries E g h (fun _ => True) fun last =>
      LinksHold E g last ∧ last.SameNode a b ∧ (E → last.SameAddress a b) :=
  .of_derived (Sound.unify hg hRun) (Fused.unify (T := fun _ => False) hg.freeListed hRun).toDerived

theorem Carries.addLink
    (hg : g.WellFormed)
    (hRun : g.addLink c type? t = .ok h) :
    Carries E g h (fun _ => True) fun last => LinksHold E g last ∧
      last.Linked E c type? t :=
  .of_derived (Sound.addLink hg hRun)
    (Fused.addLink (T := fun _ => True) hg.freeListed trivial hRun).toDerived

theorem Carries.addTypes
    (hg : g.WellFormed)
    {types : TypeSet}
    (hRun : g.addTypes c types = .ok h) :
    Carries E g h (fun _ => True) fun last => LinksHold E g last :=
  .of_derived (Sound.addTypes hg hRun)
    (Fused.addTypes (T := fun _ => False) hg.freeListed hRun).toDerived

theorem Carries.createBlank
    (hg : g.WellFormed) :
    Carries E g g.createBlank.2 (fun _ => True) fun last => LinksHold E g last :=
  .of_derived (Sound.createBlank hg) (Derived.createNode (T := fun _ => False) hg.freeListed _ _)

/- The link at a cell leads to the cell that is given. -/
theorem Carries.makeLink
    (hg : g.WellFormed)
    (hc : c.offset < wordBound)
    (hRun : g.makeLink c type? = .ok (t, h)) :
    Carries E g h (fun _ => True) fun last => LinksHold E g last ∧
      last.Linked E c type? t := by
  unfold Graph.makeLink at hRun
  rcases of_bind hRun with ⟨found?, hLink, hRun⟩
  cases found? with
  | some target =>
    cases hRun
    apply (Carries.refl hg).imp (fun _ _ hS => hS)
    intro last hLast hStrides hLinks
    exact ⟨hLinks, .of_link? hLast.merged hStrides hLinks hc hLink⟩
  | none =>
    dsimp only at hRun
    rcases of_bind hRun with ⟨g₂, hAdd, hFind⟩
    have hFresh := Carries.createBlank (E := E) hg
    have hAdded := Carries.addLink (E := E) hFresh.later.wellFormed hAdd
    have hFound := Carries.find (E := E) hAdded.later.wellFormed hFind
    apply ((hFresh.before hAdded).before hFound).imp fun _ _ hS => hS
    rintro last _ _ ⟨⟨hLinks, hLinked⟩, hPlace⟩
    exact ⟨hLinks, hLinked.of_sameTarget hPlace.sameNode fun _ => hPlace.sameAddress⟩

-- Making Arrays

variable {n : Node}

/- A fresh node, perhaps an array. -/
theorem Carries.createNode
    (hg : g.WellFormed)
    (flags : Flags)
    (size : Nat)
    (hn : (freshNode flags size).WellFormed g.config) :
    Carries E g (g.createNode flags size).2 (fun last => flags.has .array = true →
        last.StrideAt (g.createNode flags size).1 size)
      fun last => LinksHold E g last := by
  have hSound := Sound.createNode (E := False) hg flags size hn False.elim
  rcases hg.slot_createNode flags size with ⟨hFresh, hSlot⟩
  have hHere := hSlot (g.createNode flags size).1
  rw [if_pos rfl] at hHere
  have hOld : ∀ id n, g.slot id = .live n → (g.createNode flags size).2.slot id = .live n := by
    intro id n hLive
    rw [hSlot, if_neg, hLive]
    rintro rfl
    rw [hFresh] at hLive
    cases hLive
  refine ⟨⟨hSound.wellFormed, hSound.merged, ?_, ?_⟩, ?_, ?_⟩
  · intro r c hRoot
    rw [roots_createNode, hRoot]
  · exact callSites_createNode _ _
  · intro _ last hLast hStrides hAt x n m k n' hx hArray hLeads hLive hArray'
    rw [hSlot] at hx
    split at hx
    · next hEq =>
      cases hx
      rw [hEq] at hLeads
      exact hAt hArray m k n' hLeads hLive hArray'
    · exact hStrides x n m k n' hx hArray hLeads hLive hArray'
  · intro last _ _ hLinks x n hx
    exact hLinks x n (hOld x n hx)

/-
  A node is turned into an array and loses its links. Only a node that was
  no array yet can get a stride that is not its own in the end.
-/
theorem Carries.resetArray
    (hg : g.WellFormed)
    (hSlot : g.slot id = .live n)
    (hNot : n.isCollapsed = false)
    (size : Nat)
    (hPos : 0 < size)
    (hLt : size < wordBound)
    (hGrow : n.isArray = true → n.size ≤ size) :
    Carries E g (g.setSlot id (.live { n with
        flags := n.flags.insert .array
        size := size
        types := OrdMap.empty
        links := OrdMap.empty }))
      (fun last => n.isArray = false → last.StrideAt id size)
      fun last => NodeLinked E last n (Cell.start id) → LinksHold E g last := by
  have hSound := Sound.resetArray hg hSlot hNot size hPos hLt hGrow
  have hNew := slot_setSlot (lt_size_of_live hSlot) (.live { n with
      flags := n.flags.insert .array
      size := size
      types := OrdMap.empty
      links := OrdMap.empty })
  refine ⟨⟨hSound.wellFormed, hSound.merged, fun _ _ hRoot => hRoot, rfl⟩, ?_, ?_⟩
  · intro _ last hLast hStrides hAt x nx m k n' hx hArray hLeads hLive hArray'
    have hSelf := Leads.live hx
    have hOlder : ∀ n₁, g.slot x = .live n₁ → n₁.isArray = true → n'.size = nx.size :=
      fun n₁ hOld hOldArray => hStrides.strideAt hSound.merged
        hLast.merged hOld hOldArray hSelf hx hArray m k n'
        hLeads hLive hArray'
    rw [hNew] at hx
    split at hx
    · next hEq =>
      subst hEq
      cases hx
      cases hWas : n.isArray with
      | true => exact hOlder n hSlot hWas
      | false => exact hAt hWas m k n' hLeads hLive hArray'
    · exact hOlder nx hx hArray
  · intro last _ _ hLinks hOwed x nx hx
    by_cases hEq : x = id
    · subst hEq
      rw [hSlot] at hx
      cases hx
      exact hOwed
    · apply hLinks x nx
      rw [hNew, if_neg hEq, hx]

/-
  A node is made an array. Addresses are kept if it was one already, or if
  it has the asked stride at the end.
-/
theorem Carries.setArray
    (hg : g.WellFormed)
    (hStride : stride < wordBound)
    (hRun : g.setArray id stride = .ok h) :
    Carries E g h (fun last => stride ≠ 0 →
        ¬ g.NodeHas (fun n => n.isArray = true) id → last.StrideAt id stride)
      fun last => LinksHold E g last := by
  have hDerived := Fused.setArray (T := fun _ => False) hg.freeListed hRun
  have hRoots : ∀ r c, g.roots.get? r = some c → h.roots.get? r = some c := fun r c hRoot => by
    rw [hDerived.roots, hRoot]
  have hMerge := unites_unifyWithin g.mergeBound
  rcases of_setArray hRun with ⟨g₁, r, k, m, hs, hLeads, hSlot, hCases⟩
  have hFound := Sound.shortened (E := E) hg hs
  have hg₁ := hFound.wellFormed
  have hSound : Sound E g h (fun last => LinksHold E g last) →
      Carries E g h (fun last => stride ≠ 0 →
        ¬ g.NodeHas (fun n => n.isArray = true) id → last.StrideAt id stride)
      fun last => LinksHold E g last := fun hStep =>
    (Carries.of_sound hStep hRoots hDerived.callSites).imp (fun _ _ _ => trivial)
      fun _ _ _ hLinks => hLinks
  rcases hCases with rfl | ⟨rep, hCollapse⟩ | ⟨hWhole, hStays, g₂, hTypes, hLinks⟩
  · exact hSound hFound
  · exact hSound (hFound.before (Sound.collapseBy hMerge hg₁ hCollapse).1)
  · have hFirst : Carries E g g₁ (fun _ => True) fun last => LinksHold E g last :=
      .of_derived hFound (Derived.shortened (T := fun _ => False) hg.freeListed hs)
    have hReset := Carries.resetArray (E := E) hg₁ hSlot hWhole
      (if m.isArray then max m.size stride else stride)
      (by split <;> omega)
      (by
        have hLt := (hg₁.nodes _ _ hSlot).size_lt
        split <;> omega)
      (by
        intro h
        rw [if_pos h]
        exact Nat.le_max_left _ _)
    have hTyped := Carries.of_derived
      (Sound.replayTypes (E := E) hReset.later.wellFormed hTypes)
      (Fused.replayTypes (T := fun _ => False)
        hReset.later.wellFormed.freeListed hTypes).toDerived
    have hReplay := Carries.of_derived
      (Sound.replayLinks (E := E) (c := Cell.start r) hMerge hTyped.later.wellFormed hLinks)
      (Fused.replayLinks (T := fun _ => True) (derives_unifyWithin _)
        hTyped.later.wellFormed.freeListed (fun _ _ _ => Or.inr trivial) hLinks).toDerived
    have hArray := (hReset.before (hTyped.before hReplay)).imp (fun _ _ hS => hS)
        (Q := fun last => LinksHold E g₁ last ∧ True)
        fun _ _ _ hAll => ⟨hAll.1 hAll.2, trivial⟩
    apply (hFirst.trans hArray).imp
    · intro last hLast hAt
      refine ⟨trivial, fun hNotArray => ?_⟩
      rw [hNotArray]
      apply (hAt hStays ?_).of_leads (hArray.later.trans hLast).merged (hs.leads hLeads)
      rintro ⟨x, j, n, hx, hLive, hWas⟩
      rcases hx.unique hLeads with ⟨rfl, _⟩
      rw [hs.live_iff.mp hSlot] at hLive
      cases hLive
      rw [hNotArray] at hWas
      cases hWas
    · exact fun _ _ _ hAll => hAll.1

-- Changing One Node

variable {f : Node → Node}

/- A change of one node moves no chain. -/
theorem modifyNode_eq_ok
    (hRun : g.modifyNode id f = .ok h) :
    (∀ j m k, g.Leads j m k → h.Leads j m k) ∧ ∃ r k n, g.Leads id r k ∧
      g.slot r = .live n ∧
        h.slot r = .live (f n) := by
  rcases modifyNode_eq_setSlot hRun with ⟨g₁, r, k, n, hs, hLeads, hSlot, rfl⟩
  refine ⟨?_, r, k, n, hLeads, hs.live_iff.mp hSlot, ?_⟩
  · intro j m k' hj
    exact (hs.leads hj).setLive hSlot _
  · rw [slot_setSlot (lt_size_of_live hSlot), if_pos rfl]

/- What a change gives to every node it gives to a slot. -/
theorem NodeHas.modifyNode
    {P : Node → Prop}
    (hP : ∀ n, P (f n))
    (hRun : g.modifyNode id f = .ok h) :
    h.NodeHas P id := by
  rcases modifyNode_eq_ok hRun with ⟨hSame, r, k, n, hLeads, _, hSlot⟩
  exact ⟨r, k, f n, hSame _ _ _ hLeads, hSlot, hP n⟩

/- A fact noted at a node is found there ever after. -/
theorem Carries.noteFact
    (hRun : g.modifyNode id f = .ok h)
    (hg : g.WellFormed)
    (hStep : Sound E g h fun last => LinksHold E g last)
    (hLinks : ∀ n, (f n).links = n.links)
    {P : Node → Prop}
    (hP : ∀ n, P (f n))
    (hKeep : ∀ n n' k, n.StandsFor n' k → P n → P n') :
    Carries E g h (fun _ => True) fun last => LinksHold E g last ∧ last.NodeHas P id := by
  have hHas := NodeHas.modifyNode hP hRun
  have hKept := Rewired.modifyNode (T := fun _ => False) hg.freeListed hLinks hRun
  apply (Carries.of_sound hStep (fun r c hRoot => by rw [hKept.roots, hRoot])
    hKept.callSites).imp fun _ _ hS => hS
  intro last hLast _ hOld
  exact ⟨hOld, hHas.merged hLast.merged hKeep⟩

theorem Carries.addFlags
    (hg : g.WellFormed)
    {flags : Flags}
    (hRun : g.addFlags id flags = .ok h) :
    Carries E g h (fun _ => True) fun last =>
      LinksHold E g last ∧
      last.NodeHas (fun n => ∀ f, flags.has f = true →
        f ≠ .foreign → f ≠ .array → f ≠ .offsetCollapsed → n.flags.has f = true) id := by
  apply Carries.noteFact hRun hg (Sound.addFlags hg hRun) fun _ => rfl
  · intro n f hf _ hArray hCollapsed
    have hNotArray := decide_eq_false hArray.symm
    have hNotCollapsed := decide_eq_false hCollapsed.symm
    dsimp only
    rw [Flags.has_union, Flags.has_erase, Flags.has_erase, hf, hNotArray, hNotCollapsed]
    cases n.flags.has f <;> rfl
  · intro n n' k hStands hn f hf hForeign hArray hCollapsed
    exact hStands.flags f hForeign hArray (hn f hf hForeign hArray hCollapsed)

theorem Carries.growSize
    (hg : g.WellFormed)
    {size : Nat}
    (hSize : size < wordBound)
    (hRun : g.growSize id size = .ok h) :
    Carries E g h (fun _ => True) fun last =>
      LinksHold E g last ∧
      last.NodeHas (fun n => n.isPlain = true → size ≤ n.size) id := by
  apply Carries.noteFact hRun hg (Sound.growSize hg hSize hRun)
  · intro n
    split <;> rfl
  · intro n
    split
    · exact fun _ => Nat.le_max_right _ _
    · next hNot => exact fun hPlain => absurd hPlain hNot
  · intro n n' k hStands hn hPlain
    have hOld := hStands.toLiesIn.plain_of_plain hPlain
    have hRoom := hStands.inside hOld hPlain
    have hGrown := hn hOld
    omega

theorem Carries.addAllocSite
    (hg : g.WellFormed)
    {site : AllocSite}
    (hRun : g.addAllocSite id site = .ok h) :
    Carries E g h (fun _ => True) fun last =>
      LinksHold E g last ∧
      last.NodeHas (fun n => site ∈ n.allocSites) id := by
  apply Carries.noteFact hRun hg (Sound.addAllocSite hg hRun) fun _ => rfl
  · intro n
    exact (OrdSet.mem_insert_iff _ _ _).mpr (Or.inl rfl)
  · exact fun n n' k hStands hn => hStands.sites site hn

-- Binding Roots

variable {init? : Option Cell}

theorem Carries.insertRoot
    (hg : g.WellFormed)
    (hc : g.Has c)
    (hNew : g.roots.get? r = none) :
    Carries E g { g with roots := g.roots.insert r c } (fun _ => True) fun last =>
        LinksHold E g last ∧ last.RootAt r c := by
  have hGet : ∀ x, (g.roots.insert r c).get? x =
      if x = r then some c else g.roots.get? x :=
    fun x => OrdMap.get?_insert _ _ _ _
  have hSound := Sound.insertRoot (E := E) hg r hc
  have hStep : Carries E g { g with roots := g.roots.insert r c } (fun _ => True)
      fun last => LinksHold E g last := by
    refine .of_sound hSound ?_ rfl
    intro x d hd
    rw [hGet, if_neg, hd]
    rintro rfl
    rw [hNew] at hd
    cases hd
  apply hStep.imp fun _ _ hS => hS
  intro last hLast _ hLinks
  have hHere := hLast.roots r c (by rw [hGet, if_pos rfl])
  rcases hg.leads hc.occupied with ⟨m, k, hLeads⟩
  rcases hSound.merged.leads _ _ _ hLeads with ⟨_, _, _, hLeads'⟩
  rcases hLast.merged.leads _ _ _ hLeads' with ⟨_, _, _, hAll⟩
  exact ⟨hLinks, c, hHere, SamePlace.refl hAll⟩

/-
  The cell of a root is where the root stays, and it meets the cell that the
  root was bound to.
-/
theorem Carries.rootTarget
    (hg : g.WellFormed)
    (hRun : g.rootTarget r init? = .ok (c, h)) :
    Carries E g h (fun _ => True) fun last =>
      LinksHold E g last ∧ last.RootAt r c ∧ ∀ i, init? = some i → last.SameNode c i ∧
          (E → last.SameAddress c i) := by
  unfold Graph.rootTarget at hRun
  split at hRun
  · next existing init hRoot =>
    rcases of_bind hRun with ⟨g₁, hUnify, hFind⟩
    have hUnited := Carries.unify (E := E) hg hUnify
    have hFound := Carries.find (E := E) hUnited.later.wellFormed hFind
    have hBoth := hUnited.before hFound
    apply hBoth.imp fun _ _ hS => hS
    rintro last hLast _ ⟨⟨hLinks, hNode, hAddress⟩, hPlace⟩
    refine ⟨hLinks, ⟨existing, ?_, hPlace⟩, ?_⟩
    · exact hLast.roots r _ (hBoth.later.roots r _ hRoot)
    · rintro i ⟨⟩
      exact ⟨hPlace.symm.sameNode.trans hNode, fun hEx =>
        hPlace.symm.sameAddress.trans (hAddress hEx)⟩
  · next existing hRoot =>
    have hFound := Carries.find (E := E) hg hRun
    apply hFound.imp fun _ _ hS => hS
    rintro last hLast _ ⟨hLinks, hPlace⟩
    refine ⟨hLinks, ⟨existing, ?_, hPlace⟩, ?_⟩
    · exact hLast.roots r _ (hFound.later.roots r _ hRoot)
    · rintro i ⟨⟩
  · next init hRoot =>
    rcases of_bind hRun with ⟨⟨d, g₁⟩, hFind, hRun⟩
    cases hRun
    have hFound := Carries.find (E := E) hg hFind
    rcases (Sound.find (E := E) hg hFind).2 with ⟨hWord, n, _, hSlot⟩
    rcases (Fused.find (T := fun _ => False) hg.freeListed hFind).1.roots with hRoots
    have hInsert := Carries.insertRoot (E := E) (r := r) hFound.later.wellFormed
      ⟨hasNode_of_live hSlot, hWord⟩
      (by rw [hRoots, hRoot])
    apply (hFound.before hInsert).imp fun _ _ hS => hS
    rintro last hLast _ ⟨⟨hLinks, hPlace⟩, hAt⟩
    refine ⟨hLinks, hAt, ?_⟩
    rintro i ⟨⟩
    exact ⟨hPlace.symm.sameNode, fun _ => hPlace.symm.sameAddress⟩
  · next hRoot =>
    cases hRun
    have hFresh := Carries.createBlank (E := E) hg
    have hSlot := (hg.slot_createNode Flags.empty 0).2 (g.createNode Flags.empty 0).1
    rw [if_pos rfl] at hSlot
    have hInsert := Carries.insertRoot (E := E) (r := r) (c := Cell.start g.createBlank.1)
      hFresh.later.wellFormed
      ⟨hasNode_of_live hSlot, (by decide : 0 < wordBound)⟩
      (by rw [Graph.createBlank, roots_createNode, hRoot])
    apply (hFresh.before hInsert).imp fun _ _ hS => hS
    rintro last hLast _ ⟨hLinks, hAt⟩
    refine ⟨hLinks, hAt, ?_⟩
    rintro i ⟨⟩

variable {x : Root}

/- No other root is bound on the way. -/
theorem get?_rootTarget_of_ne
    (hg : g.WellFormed)
    (hRun : g.rootTarget r init? = .ok (c, h))
    (hx : x ≠ r) :
    h.roots.get? x = g.roots.get? x := by
  unfold Graph.rootTarget at hRun
  split at hRun
  · rcases of_bind hRun with ⟨g₁, hUnify, hFind⟩
    have hUnited := Carries.unify (E := False) hg hUnify
    rw [(Fused.find (T := fun _ => False) hUnited.later.wellFormed.freeListed hFind).1.roots,
      (Fused.unify (T := fun _ => False) hg.freeListed hUnify).roots]
  · rw [(Fused.find (T := fun _ => False) hg.freeListed hRun).1.roots]
  · rcases of_bind hRun with ⟨⟨d, g₁⟩, hFind, hRun⟩
    cases hRun
    rw [OrdMap.get?_insert, if_neg hx,
      (Fused.find (T := fun _ => False) hg.freeListed hFind).1.roots]
  · cases hRun
    have hRoots : g.createBlank.2.roots.get? x = g.roots.get? x :=
      congrArg (OrdMap.get? · x) (roots_createNode _ _)
    exact (OrdMap.get?_insert _ _ _ _).trans ((if_neg hx).trans hRoots)

/- Noting a value changes neither roots nor links. -/
theorem Derived.noteUniqueScalar
    (hg : g.FreeListed)
    (hSlot : g.slot c.node = .live n)
    (hRun : g.noteUniqueScalar v c = .ok h) :
    Derived g h T := by
  unfold Graph.noteUniqueScalar at hRun
  rw [modifyContents_of_live hSlot] at hRun
  cases hRun
  exact .setLive_of_same_links hg hSlot _ rfl rfl

/- What is done with the cell of a root once it is found. -/
theorem bindRoot_eq_ok
    (hg : g.WellFormed)
    (hRun : g.bindRoot r init? = .ok (c, h)) :
    ∃ g₁, g.rootTarget r init? = .ok (c, g₁) ∧ Carries E g₁ h (fun _ => True) (fun last =>
        LinksHold E g₁ last) ∧
      Derived g₁ h (fun _ => False) ∧
      ∃ n, h.slot c.node = .live n := by
  rcases of_bindRoot hRun with ⟨g₁, hTarget, hNote⟩
  rcases Sound.rootTarget (E := E) hg hTarget with ⟨hStep, n, hSlot⟩
  have hg₁ := hStep.wellFormed
  refine ⟨g₁, hTarget, ?_⟩
  rcases hNote with rfl | ⟨v, hNote⟩
  · exact ⟨.refl hg₁, .refl hg₁.freeListed, n, hSlot⟩
  · have hDerived := Derived.noteUniqueScalar (T := fun _ => False) hg₁.freeListed hSlot hNote
    refine ⟨.of_derived (Sound.noteUniqueScalar hg₁ hSlot hNote) hDerived, hDerived, ?_⟩
    unfold Graph.noteUniqueScalar at hNote
    rw [modifyContents_of_live hSlot] at hNote
    cases hNote
    rw [slot_setSlot (lt_size_of_live hSlot), if_pos rfl]
    exact ⟨_, rfl⟩

theorem get?_bindRoot_of_ne
    (hg : g.WellFormed)
    (hRun : g.bindRoot r init? = .ok (c, h))
    (hx : x ≠ r) :
    h.roots.get? x = g.roots.get? x := by
  rcases bindRoot_eq_ok (E := False) hg hRun with ⟨g₁, hTarget, _, hDerived, _⟩
  rw [hDerived.roots, get?_rootTarget_of_ne hg hTarget hx]

theorem Carries.bindRoot
    (hg : g.WellFormed)
    (hRun : g.bindRoot r init? = .ok (c, h)) :
    Carries E g h (fun _ => True) fun last =>
      LinksHold E g last ∧ last.RootAt r c ∧ ∀ i, init? = some i → last.SameNode c i ∧
          (E → last.SameAddress c i) := by
  rcases bindRoot_eq_ok (E := E) hg hRun with ⟨g₁, hTarget, hNote, _⟩
  exact (Carries.rootTarget hg hTarget).keep hNote

theorem live_of_valueCell
    (hg : g.WellFormed)
    (hRun : g.valueCell v = .ok (c, h)) :
    ∃ n, h.slot c.node = .live n := by
  unfold Graph.valueCell at hRun
  split at hRun
  · rcases (Sound.find (E := False) hg hRun).2 with ⟨_, n, _, hSlot⟩
    exact ⟨n, hSlot⟩
  · rcases bindRoot_eq_ok (E := False) hg hRun with ⟨_, _, _, _, hLive⟩
    exact hLive

/- The cell of a value is where the value stays. -/
theorem Carries.valueCell
    (hg : g.WellFormed)
    (hRun : g.valueCell v = .ok (c, h)) :
    Carries E g h (fun _ => True) fun last => LinksHold E g last ∧ last.ValueAt v c := by
  unfold Graph.valueCell at hRun
  split at hRun
  · next d hRoot =>
    have hFound := Carries.find (E := E) hg hRun
    apply hFound.imp fun _ _ hS => hS
    rintro last hLast _ ⟨hLinks, hPlace⟩
    exact ⟨hLinks, .formal v, Or.inl rfl, d, hLast.roots _ _ (hFound.later.roots _ _ hRoot), hPlace⟩
  · apply (Carries.bindRoot hg hRun).imp fun _ _ hS => hS
    rintro last _ _ ⟨hLinks, hAt, _⟩
    exact ⟨hLinks, .scalar v, Or.inr rfl, hAt⟩

end Graph

end HeapShape
