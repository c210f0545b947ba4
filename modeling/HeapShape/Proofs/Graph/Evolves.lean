import HeapShape.Proofs.Graph.Carried
import HeapShape.Proofs.Graph.Progress

/-
  Operations that end well.

  Each operation on a well-formed graph gives a later graph, unless a sum
  leaves the word range; it never reads a freed slot. `Graph.Evolves` says
  what is known of the result. It follows the allocation sites of one kind:
  they stay with the nodes they were at, apart from nodes to which some are
  brought.

  A watch tells what else is followed: the roots that are bound, and the
  bytes that the nodes of a snug graph come to take. `Graph.Spends` says
  that an operation binds no other roots and takes no more bytes than its
  cost.

  Main declarations:
    * `Graph.Evolves`
    * `Graph.Spends.modifyNode`
    * `Graph.Spends.bindRoot`
    * `Graph.Spends.valueCell`
-/

-- Steps

namespace HeapShape

open Checked

namespace Graph

/-
  A step to a later graph. Sites of the kind `P` are brought to nodes of `X`
  only.
-/
structure Evolves
    (P : AllocSite → Prop)
    (X : NodeId → Prop)
    (g h : Graph) : Prop extends Later g h where
  functions : h.functions = g.functions
  confined : ∀ Y, (∀ x, X x → Y x) →
    g.Confined P Y → h.Confined P Y

variable {P : AllocSite → Prop} {X : NodeId → Prop} {g h i : Graph} {a b c t : Cell} {id : NodeId}

theorem Evolves.refl
    (hg : g.WellFormed) :
    Evolves P X g g where
  toLater := .refl hg
  functions := rfl
  confined := fun _ _ hAll => hAll

theorem Evolves.trans
    (hgh : Evolves P X g h)
    (hhi : Evolves P X h i) :
    Evolves P X g i where
  toLater := hgh.toLater.trans hhi.toLater
  functions := hhi.functions.trans hgh.functions
  confined := fun Y hX hAll =>
    hhi.confined Y hX (hgh.confined Y hX hAll)

/- More nodes than were said may be brought sites. -/
theorem Evolves.widen
    {X' : NodeId → Prop}
    (hgh : Evolves P X g h)
    (hX : ∀ x, X x → X' x) :
    Evolves P X' g h where
  toLater := hgh.toLater
  functions := hgh.functions
  confined := fun Y hY => hgh.confined Y fun x hx =>
    hY x (hX x hx)

/- Merging brings no site anywhere. -/
theorem Evolves.of_derived
    {T : Cell → Prop}
    (hgh : Later g h)
    (hDerived : Derived g h T) :
    Evolves P X g h where
  toLater := hgh
  functions := hDerived.functions
  confined := fun Y _ => hDerived.confined P Y

/- A cell of the graph is one of the later graph. -/
theorem Evolves.has
    (hgh : Evolves P X g h)
    (hg : g.WellFormed)
    (hc : g.Has c) :
    h.Has c :=
  hgh.merged.has hg hc

end Graph

-- Watches

/-
  What is followed along a run: the sites of a kind and the nodes they may
  be brought to, the formals that are bound, the roots that may be bound,
  whether cells may be outside, and whether bytes may run out.
-/
structure Watch where
  site : AllocSite → Prop
  node : NodeId → Prop
  formal : ValueId → Prop
  root : Root → Prop
  loose : Prop
  full : Prop
  known : loose → full

/- Sites only. -/
def Watch.sites
    (P : AllocSite → Prop)
    (X : NodeId → Prop) : Watch where
  site := P
  node := X
  formal := fun _ => False
  root := fun _ => True
  loose := True
  full := True
  known := id

/- A graph with its formals and so many bytes to spare. -/
structure Watch.Admits
    (w : Watch)
    (spare : Nat)
    (g : Graph) : Prop extends g.Roomy w.full spare where
  tight : ¬ w.loose → g.Tight
  formals : ∀ v, w.formal v →
    ∃ c, g.roots.get? (.formal v) = some c

namespace Graph

/- A step that costs no more than so many bytes. -/
structure Spends
    (w : Watch)
    (cost : Nat)
    (g h : Graph) : Prop extends
      Evolves w.site w.node g h where
  tight : ¬ w.loose → h.Tight
  types : ¬ w.full → h.TypesFit
  extent : ¬ w.full → h.extent ≤ g.extent + cost
  bound : ∀ r, g.roots.get? r = none →
    h.roots.get? r ≠ none → w.root r

variable {w : Watch} {g h i : Graph} {c : Cell} {s k k' : Nat} {P : AllocSite → Prop}
variable {X : NodeId → Prop}

theorem WellFormed.admits
    (hg : g.WellFormed) :
    (Watch.sites P X).Admits s g where
  toRoomy := hg.roomy
  tight := fun hNot => absurd trivial hNot
  formals := fun _ hNone => hNone.elim

theorem Spends.refl
    (hg : w.Admits s g) :
    Spends w 0 g g where
  toEvolves := .refl hg.wellFormed
  tight := hg.tight
  types := fun hF => (hg.snug hF).types
  extent := fun _ => Nat.le_refl _
  bound := fun _ hNone hSome => absurd hNone hSome

theorem Spends.trans
    (hgh : Spends w k g h)
    (hhi : Spends w k' h i) :
    Spends w (k + k') g i where
  toEvolves := hgh.toEvolves.trans hhi.toEvolves
  tight := hhi.tight
  types := hhi.types
  extent := fun hF => by
    have hFirst := hgh.extent hF
    have hSecond := hhi.extent hF
    omega
  bound := by
    intro r hNone hSome
    cases hMid : h.roots.get? r with
    | none => exact hhi.bound r hMid hSome
    | some c => exact hgh.bound r hNone (by simp [hMid])

theorem Spends.mono
    (hgh : Spends w k g h)
    (hLe : k ≤ k') :
    Spends w k' g h where
  toEvolves := hgh.toEvolves
  tight := hgh.tight
  types := hgh.types
  extent := fun hF =>
    Nat.le_trans (hgh.extent hF) (Nat.add_le_add_left hLe _)
  bound := hgh.bound

/- What is left to spare after a step. -/
theorem Spends.admits
    (hgh : Spends w k g h)
    (hg : w.Admits s g)
    (hLe : k ≤ s) :
    w.Admits (s - k) h where
  wellFormed := hgh.wellFormed
  snug := fun hF =>
    ⟨hgh.tight fun hLoose => hF (w.known hLoose), hgh.types hF⟩
  tight := hgh.tight
  extent := fun hF => by
    have hSpare := hg.extent hF
    have hSpent := hgh.extent hF
    omega
  formals := fun v hv =>
    (hg.formals v hv).imp fun c hRoot => hgh.roots _ c hRoot

theorem Spends.owns
    (hgh : Spends w k g h)
    (hg : w.Admits s g)
    (hc : g.Owns w.loose c) :
    h.Owns w.loose c :=
  hc.merged hg.wellFormed hgh.merged

variable {T : Cell → Prop} {F : Prop}

/- A step that binds no root. -/
theorem Spends.of_rewired
    (hg : w.Admits s g)
    (hgh : Evolves w.site w.node g h)
    (hKept : Rewired g h T)
    (hT : ∀ t, T t → ¬ w.loose → h.Inside t)
    (hTypes : ¬ w.full → h.TypesFit)
    (hExtent : ¬ w.full → h.extent ≤ g.extent + k) :
    Spends w k g h where
  toEvolves := hgh
  tight := fun hIn => (hg.tight hIn).of_rewired hgh.merged hKept fun t ht => hT t ht hIn
  types := hTypes
  extent := hExtent
  bound := by
    intro r hNone hSome
    rw [hKept.roots] at hSome
    exact absurd hNone hSome

theorem Spends.of_shrinks
    (hg : w.Admits s g)
    (hh : Shrinks w.full (g.extent + k) g h)
    (hLater : Later g h)
    (hFused : Fused g h T)
    (hT : ∀ t, T t → ¬ w.loose → h.Inside t) :
    Spends w k g h :=
  .of_rewired hg (.of_derived hLater hFused.toDerived)
    hFused.toRewired hT (fun hF => (hh.snug hF).types) hh.extent

theorem Owns.weaken
    {F' : Prop}
    (hc : g.Owns F c)
    (hF : F → F') :
    g.Owns F' c where
  toHas := hc.toHas
  inside := fun hNot => hc.inside fun h => hNot (hF h)

theorem Roomy.weaken
    (hg : g.Roomy F s)
    (hLe : k ≤ s) :
    g.Roomy F k where
  wellFormed := hg.wellFormed
  snug := hg.snug
  extent := fun hF => Nat.lt_of_le_of_lt (Nat.add_le_add_left hLe _) (hg.extent hF)

-- Merging

variable {a b t : Cell} {id : NodeId} {type? : Option TypeTag}

theorem Spends.find
    (hg : w.Admits s g)
    (hc : g.Owns w.loose c) :
    YieldsUnless w.full (g.find c) fun found =>
      Spends w 0 g found.2 ∧ found.2.Owns w.loose found.1 := by
  refine (hg.wellFormed.yields_find (hc.weaken w.known)).imp_eq ?_
  rintro ⟨d, h⟩ hRun ⟨hs, hWord, n, hLive, hEnd⟩
  refine ⟨.of_shrinks hg (hg.shortened hs) (Carries.find (E := False) hg.wellFormed hRun).later
    (Fused.shortened (T := fun _ => False) hg.wellFormed.freeListed hs) (fun _ hNone => hNone.elim),
    ⟨hasNode_of_live hLive, hWord⟩, fun hF => ?_⟩
  exact ⟨_, n, 0, .live hLive, hLive, hWord, hEnd 0 (hc.inside hF)⟩

theorem Spends.unify
    (hg : w.Admits s g)
    (ha : g.Owns w.loose a)
    (hb : g.Owns w.loose b) :
    YieldsUnless w.full (g.unify a b) (Spends w 0 g) := by
  refine ((hg.weaken (Nat.zero_le s)).yields_unify
    (ha.weaken w.known) (hb.weaken w.known)).imp_eq fun h hRun hh => ?_
  exact .of_shrinks hg hh (Carries.unify (E := False) hg.wellFormed hRun).later
    (Fused.unify (T := fun _ => False) hg.wellFormed.freeListed hRun) fun _ hNone => hNone.elim

theorem Spends.addLink
    (hg : w.Admits s g)
    (hc : g.Owns w.loose c)
    (ht : g.Owns w.loose t)
    (hSpare : g.config.pointerSize ≤ s) :
    YieldsUnless w.full (g.addLink c type? t) (Spends w g.config.pointerSize g) := by
  refine ((hg.weaken hSpare).yields_addLink (hc.weaken w.known) (ht.weaken w.known) type?
    (Nat.le_refl _)).imp_eq fun h hRun hh => ?_
  have hLater := (Carries.addLink (E := False) hg.wellFormed hRun).later
  refine .of_shrinks hg hh hLater (Fused.addLink (T := fun u => u = t)
      hg.wellFormed.freeListed rfl hRun) ?_
  rintro _ rfl hIn
  exact (ht.inside hIn).merged hLater.merged

theorem Spends.addTypes
    (hg : w.Admits s g)
    (hc : g.Owns w.loose c)
    (types : TypeSet) :
    YieldsUnless w.full (g.addTypes c types) (Spends w 0 g) := by
  refine (hg.yields_addTypes (hc.weaken w.known) types).imp_eq fun h hRun hh => ?_
  exact .of_shrinks hg hh (Carries.addTypes (E := False) hg.wellFormed hRun).later
    (Fused.addTypes (T := fun _ => False) hg.wellFormed.freeListed hRun) fun _ hNone => hNone.elim

theorem Spends.setArray
    (hg : w.Admits s g)
    (hNode : g.hasNode id = true)
    {stride : Nat}
    (hStride : stride < wordBound)
    (hSpare : stride ≤ s) :
    YieldsUnless w.full (g.setArray id stride) (Spends w stride g) := by
  refine ((hg.weaken hSpare).yields_setArray hNode hStride).imp_eq fun h hRun hh => ?_
  exact .of_shrinks hg hh (Carries.setArray (E := False) hg.wellFormed hStride hRun).later
    (Fused.setArray (T := fun _ => False) hg.wellFormed.freeListed hRun) fun _ hNone => hNone.elim

theorem Spends.createNode
    (hg : w.Admits s g)
    (flags : Flags)
    (size : Nat)
    (hLater : Later g (g.createNode flags size).2) :
    Spends w (max size 1) g (g.createNode flags size).2 ∧
      (g.createNode flags size).2.Owns w.loose
        (Cell.start (g.createNode flags size).1) := by
  have hWell := hg.wellFormed
  have hSlot := (hWell.slot_createNode flags size).2 (g.createNode flags size).1
  rw [if_pos rfl] at hSlot
  have hMade := Derived.createNode (T := fun _ => False) hWell.freeListed flags size
  exact ⟨.of_rewired hg (.of_derived hLater hMade) hMade.toRewired (fun _ hNone => hNone.elim)
    (fun hF => ((hg.snug hF).createNode hWell _ _ hLater.merged).types)
    (fun _ => Nat.le_of_eq (hWell.extent_createNode _ _)),
    hLater.wellFormed.owns_start (hasNode_of_live hSlot)⟩

theorem Spends.createBlank
    (hg : w.Admits s g) :
    Spends w 1 g g.createBlank.2 ∧
      g.createBlank.2.Owns w.loose (Cell.start g.createBlank.1) :=
  Spends.createNode hg Flags.empty 0 (Carries.createBlank (E := False) hg.wellFormed).later

/- A link of a snug graph leads inside. -/
theorem yields_link?_of_admits
    (hg : w.Admits s g)
    (hc : g.Owns w.loose c) :
    YieldsUnless w.full (g.link? c type?) fun d? => ∀ d, d? = some d →
      g.Owns w.loose d := by
  refine ((hg.wellFormed.yields_link? hc.toHas).unless ?_).imp_eq ?_
  · intro hOver
    by_contra hF
    rcases ((hc.weaken w.known).inside hF).resolve with ⟨d, n, hd, hLive, _⟩
    rw [link?, hd, ok_bind, contents_of_live hLive, ok_bind] at hOver
    cases hGet : n.links.get? (n.effectiveField (Field.make g.config d.offset type?)) with
    | none => simp only [hGet] at hOver; cases hOver
    | some u =>
      rcases ((hg.snug hF).targets u ⟨_, n, _, hLive, hGet⟩).resolve with ⟨t, _, ht, _⟩
      simp only [hGet, Option.mapM_some, ht] at hOver
      cases hOver
  · rintro _ hRun hHas d rfl
    refine ⟨hHas d rfl, fun hIn => ?_⟩
    rcases link?_eq_ok hc.word hRun with ⟨m, k, n, u, _, hLive, _, hGet, hTarget⟩
    rcases leads_of_resolve hTarget with ⟨j, hLeads, hOffset⟩
    have hPlace : g.SamePlace u d := (Merged.refl hg.wellFormed).samePlace hLeads hOffset
    exact ((hg.tight hIn).targets u ⟨m, n, _, hLive, hGet⟩).of_samePlace hPlace.symm

/- The target of a link, old or new, is in the graph. -/
theorem Spends.makeLink
    (hg : w.Admits s g)
    (hc : g.Owns w.loose c)
    (type? : Option TypeTag)
    (hSpare : g.config.pointerSize + 1 ≤ s) :
    YieldsUnless w.full (g.makeLink c type?)
      fun made => Spends w (g.config.pointerSize + 1) g made.2 ∧
        made.2.Owns w.loose made.1 := by
  unfold Graph.makeLink
  refine (yields_link?_of_admits hg hc).bind ?_
  intro found hFound
  cases found with
  | some target => exact .ok ⟨(Spends.refl hg).mono (Nat.zero_le _), hFound target rfl⟩
  | none =>
    rcases Spends.createBlank hg with ⟨hMade, hStart⟩
    have hConfig : g.createBlank.2.config.pointerSize =
        g.config.pointerSize := by rw [hMade.merged.config]
    have hg₁ := hMade.admits hg (by omega)
    refine (Spends.addLink hg₁ (hMade.owns hg hc) hStart (by omega)).bind ?_
    intro h hLinked
    have hh := hLinked.admits hg₁ (by omega)
    refine (Spends.find hh (hLinked.owns hg₁ hStart)).imp ?_
    rintro ⟨d, h'⟩ ⟨hFind, hHas⟩
    exact ⟨((hMade.trans hLinked).trans hFind).mono (by omega), hHas⟩

-- Facts About Nodes

variable {f : Node → Node}

theorem WellFormed.yields_modifyNode
    (hg : g.WellFormed)
    (hNode : g.hasNode id = true) :
    YieldsUnless F (g.modifyNode id f) fun _ => True := by
  unfold modifyNode
  refine (hg.yields_findNode hNode).bind ?_
  rintro ⟨r, g₁⟩ ⟨_, n, hLive⟩
  dsimp only at hLive ⊢
  rw [modifyContents_of_live hLive]
  exact .ok trivial

/- A change of a node may bring sites and bytes to it. -/
theorem Spends.modifyNode
    (hg : w.Admits s g)
    (hNode : g.hasNode id = true)
    (hStep : ∀ h, g.modifyNode id f = .ok h →
        Sound False g h fun last => LinksHold False g last)
    (hLinks : ∀ n, (f n).links = n.links)
    (hNew : ∀ n s, s ∈ (f n).allocSites → w.site s → s ∈ n.allocSites ∨ w.node id)
    (hFit : ∀ r n, g.slot r = .live n → (∃ k, g.Leads id r k) →
      ¬ w.full → (f n).types = n.types ∧ (f n).isPlain = n.isPlain ∧ n.size ≤ (f n).size ∧
        (f n).size ≤ n.size + k) :
    YieldsUnless w.full (g.modifyNode id f) (Spends w k g) := by
  refine (hg.wellFormed.yields_modifyNode hNode).imp_eq ?_
  intro h hRun _
  have hSound := hStep h hRun
  have hFree := hg.wellFormed.freeListed
  have hKept := Rewired.modifyNode (T := fun _ => False) hFree hLinks hRun
  rcases modifyNode_eq_setSlot hRun with ⟨g₁, r, j, n, hs, hLeads, hSlot, rfl⟩
  have hNow := hFit r n (hs.live_iff.mp hSlot) ⟨j, hLeads⟩
  refine .of_rewired hg ⟨⟨hSound.wellFormed, hSound.merged, ?_,
    hKept.callSites⟩, hKept.functions, ?_⟩ hKept (fun _ hNone => hNone.elim) ?_ ?_
  · intro r c hRoot
    rw [hKept.roots, hRoot]
  · intro Y hX hAll
    refine hAll.modifyNode hFree ?_ hRun
    intro n s hs hP
    exact (hNew n s hs hP).imp_right (hX id)
  · intro hF
    rcases hNow hF with ⟨hTypes, hPlain, hLe, _⟩
    exact ((hg.snug hF).types.shortened hs).setLive_of_same hSlot hTypes hPlain hLe
  · intro hF
    rcases hNow hF with ⟨_, _, _, hLe⟩
    have hBytes := extent_setLive hSlot (f n)
    rw [hs.extent_eq] at hBytes
    omega

theorem Spends.addFlags
    (hg : w.Admits s g)
    (hNode : g.hasNode id = true)
    (flags : Flags) :
    YieldsUnless w.full (g.addFlags id flags) (Spends w 0 g) := by
  refine Spends.modifyNode hg hNode (fun _ hRun => Sound.addFlags hg.wellFormed hRun)
    (fun _ => rfl) (fun _ _ hs _ => Or.inl hs) ?_
  intro r n _ _ _
  refine ⟨rfl, ?_, Nat.le_refl _, Nat.le_refl _⟩
  simp [Node.isPlain, Node.isCollapsed, Node.isArray, Flags.has_union, Flags.has_erase]

/- A plain node grows by no more than said. -/
theorem Spends.growSize
    (hg : w.Admits s g)
    (hNode : g.hasNode id = true)
    {size : Nat}
    (hWord : size < wordBound)
    (hCost : ∀ r n, g.slot r = .live n → (∃ k, g.Leads id r k) →
      ¬ w.full → n.isPlain = true → size ≤ n.size + k) :
    YieldsUnless w.full (g.growSize id size) (Spends w k g) := by
  refine Spends.modifyNode hg hNode (fun _ hRun => Sound.growSize hg.wellFormed hWord hRun) ?_ ?_ ?_
  · intro n
    split <;> rfl
  · intro n s hs _
    split at hs <;> exact Or.inl hs
  · intro r n hLive hLeads hF
    split
    · next hPlain =>
      exact ⟨rfl, rfl, Nat.le_max_left _ _, Nat.max_le.mpr
        ⟨Nat.le_add_right _ _, hCost r n hLive hLeads hF hPlain⟩⟩
    · exact ⟨rfl, rfl, Nat.le_refl _, Nat.le_add_right _ _⟩

theorem Spends.addAllocSite
    (hg : w.Admits s g)
    (hNode : g.hasNode id = true)
    {site : AllocSite}
    (hSite : w.site site → w.node id) :
    YieldsUnless w.full (g.addAllocSite id site) (Spends w 0 g) := by
  refine Spends.modifyNode hg hNode (fun _ hRun => Sound.addAllocSite hg.wellFormed hRun)
    (fun _ => rfl) ?_ fun _ _ _ _ _ =>
      ⟨rfl, rfl, Nat.le_refl _, Nat.le_refl _⟩
  intro n s hs hP
  rcases (OrdSet.mem_insert_iff _ _ _).mp hs with rfl | hOld
  · exact Or.inr (hSite hP)
  · exact Or.inl hOld

-- Roots

variable {r : Root} {init? : Option Cell}

theorem Spends.insertRoot
    (hg : w.Admits s g)
    (hc : g.Owns w.loose c)
    (hNew : g.roots.get? r = none)
    (hr : w.root r) :
    Spends w 0 g { g with roots := g.roots.insert r c } ∧
      Owns w.loose { g with roots := g.roots.insert r c } c := by
  have hLater := (Carries.insertRoot (E := False) hg.wellFormed hc.toHas hNew).later
  refine ⟨⟨⟨hLater, rfl, fun _ _ hAll => hAll.congr
    fun _ => rfl⟩, fun hIn => (hg.tight hIn).insertRoot hLater.merged (hc.inside hIn),
    fun hF => (hg.snug hF).types,
    fun _ => Nat.le_refl _, ?_⟩,
    hc.merged hg.wellFormed hLater.merged⟩
  intro x hNone hSome
  rw [OrdMap.get?_insert] at hSome
  split at hSome
  · next hEq => exact hEq ▸ hr
  · exact absurd hNone hSome

/- A root that is not bound needs leave to be. -/
theorem Spends.rootTarget
    (hg : w.Admits s g)
    (hr : g.roots.get? r = none → w.root r)
    (hInit : ∀ i, init? = some i → g.Owns w.loose i)
    (hSpare : 1 ≤ s) :
    YieldsUnless w.full (g.rootTarget r init?)
      fun found => Spends w 1 g found.2 ∧ found.2.Owns w.loose found.1 := by
  unfold Graph.rootTarget
  cases hRoot : g.roots.get? r with
  | some existing =>
    have hOld : g.Owns w.loose existing :=
      ⟨hg.wellFormed.root_has r existing hRoot, fun hIn => (hg.tight hIn).roots r existing hRoot⟩
    cases init? with
    | some init =>
      refine (Spends.unify hg hOld (hInit init rfl)).bind ?_
      intro h hMet
      have hh := hMet.admits hg (Nat.zero_le s)
      refine (Spends.find hh (hMet.owns hg hOld)).imp ?_
      rintro ⟨d, h'⟩ ⟨hFound, hHas⟩
      exact ⟨(hMet.trans hFound).mono (Nat.zero_le 1), hHas⟩
    | none =>
      exact (Spends.find hg hOld).imp fun _ hh =>
        ⟨hh.1.mono (Nat.zero_le 1), hh.2⟩
  | none =>
    cases init? with
    | some init =>
      refine (Spends.find hg (hInit init rfl)).and_eq.bind ?_
      rintro ⟨d, h⟩ ⟨⟨hFound, hHas⟩, hRun⟩
      dsimp only at hFound hHas ⊢
      have hNone : h.roots.get? r = none := by
        rw [(Fused.find (T := fun _ => False) hg.wellFormed.freeListed hRun).1.roots, hRoot]
      rcases Spends.insertRoot (hFound.admits hg (Nat.zero_le s)) hHas hNone (hr hRoot) with
        ⟨hBound, hd⟩
      exact .ok ⟨(hFound.trans hBound).mono (Nat.zero_le 1), hd⟩
    | none =>
      rcases Spends.createBlank hg with ⟨hMade, hStart⟩
      have hNone : g.createBlank.2.roots.get? r =
          none := by
        rw [Graph.createBlank, roots_createNode, hRoot]
      rcases Spends.insertRoot (hMade.admits hg hSpare) hStart hNone (hr hRoot) with ⟨hBound, hd⟩
      exact .ok ⟨hMade.trans hBound, hd⟩

theorem Spends.noteUniqueScalar
    (hg : w.Admits s g)
    {n : Node}
    (hSlot : g.slot c.node = .live n)
    (v : ValueId) :
    YieldsUnless w.full (g.noteUniqueScalar v c) (Spends w 0 g) := by
  have hRun := modifyContents_of_live hSlot fun n =>
    { n with
      uniqueScalar :=
        if n.effectiveOffset c.offset = 0 then
          n.uniqueScalar.record v
        else n.uniqueScalar.clear }
  have hDerived := Derived.noteUniqueScalar (v := v)
    (T := fun _ => False) hg.wellFormed.freeListed hSlot hRun
  have hSound := Sound.noteUniqueScalar (E := False) (v := v) hg.wellFormed hSlot hRun
  unfold Graph.noteUniqueScalar
  rw [hRun]
  refine .ok (.of_rewired hg (.of_derived (Carries.of_derived hSound hDerived).later hDerived)
    hDerived.toRewired (fun _ hNone => hNone.elim) ?_ ?_)
  · intro hF
    exact (hg.snug hF).types.setLive_of_same hSlot rfl rfl (Nat.le_refl _)
  · intro _
    have hBytes := extent_setLive hSlot { n with
        uniqueScalar :=
          if n.effectiveOffset c.offset = 0 then
            n.uniqueScalar.record v
          else n.uniqueScalar.clear }
    dsimp only at hBytes
    omega

/- The cell of a root, bound or not, is in the graph. -/
theorem Spends.bindRoot
    (hg : w.Admits s g)
    (hr : g.roots.get? r = none → w.root r)
    (hInit : ∀ i, init? = some i → g.Owns w.loose i)
    (hSpare : 1 ≤ s) :
    YieldsUnless w.full (g.bindRoot r init?) fun found => Spends w 1 g found.2 ∧
        found.2.Owns w.loose found.1 := by
  unfold Graph.bindRoot
  refine (Spends.rootTarget hg hr hInit hSpare).and_eq.bind ?_
  rintro ⟨c, g₁⟩ ⟨⟨hStep, hHas⟩, hRun⟩
  dsimp only at hStep hHas
  rcases Sound.rootTarget (E := False) hg.wellFormed hRun with ⟨_, n, hSlot⟩
  have hg₁ := hStep.admits hg hSpare
  cases r with
  | scalar v | formal v =>
    refine (Spends.noteUniqueScalar hg₁ hSlot v).bind ?_
    intro h hNoted
    exact .ok ⟨hStep.trans hNoted, hNoted.owns hg₁ hHas⟩
  | result f | global v => exact .ok ⟨hStep, hHas⟩

theorem Spends.valueCell
    (hg : w.Admits s g)
    {v : ValueId}
    (hv : w.formal v ∨ w.root (.scalar v))
    (hSpare : 1 ≤ s) :
    YieldsUnless w.full (g.valueCell v) fun found =>
      Spends w 1 g found.2 ∧ found.2.Owns w.loose found.1 := by
  unfold Graph.valueCell
  split
  · next c hRoot =>
    refine (Spends.find hg ⟨hg.wellFormed.root_has _ c hRoot,
      fun hIn => (hg.tight hIn).roots _ c hRoot⟩).imp ?_
    exact fun _ hh => ⟨hh.1.mono (Nat.zero_le 1), hh.2⟩
  · next hRoot =>
    refine Spends.bindRoot hg (fun _ => hv.resolve_left ?_) (fun _ hNone => by cases hNone) hSpare
    intro hFormal
    rcases hg.formals v hFormal with ⟨c, hBound⟩
    rw [hRoot] at hBound
    cases hBound

-- Sites

variable {x : Checked (Cell × Graph)}

/- Steps of which only the sites are followed. -/
theorem Evolves.of_spends
    {x : Checked Graph}
    (hx : YieldsUnless True x (Spends (.sites P X) k g)) :
    Yields x (Evolves P X g) :=
  (hx.imp fun _ hh => hh.toEvolves).yields

theorem Evolves.cell_of_spends
    (hx : YieldsUnless True x fun found =>
      Spends (.sites P X) k g found.2 ∧ found.2.Owns True found.1) :
    Yields x fun found => Evolves P X g found.2 ∧ found.2.Has found.1 :=
  (hx.imp fun _ hh => ⟨hh.1.toEvolves, hh.2.toHas⟩).yields

variable (P) (X)

theorem Evolves.find
    (hg : g.WellFormed)
    (hc : g.Has c) :
    Yields (g.find c) fun found => Evolves P X g found.2 ∧ found.2.Has found.1 :=
  Evolves.cell_of_spends (Spends.find (hg.admits (s := 0)) hc.owns)

theorem Evolves.findNode
    (hg : g.WellFormed)
    (hNode : g.hasNode id = true) :
    Yields (g.findNode id) fun found => Evolves P X g found.2 ∧
      found.2.hasNode found.1 = true := by
  unfold Graph.findNode
  refine (Evolves.find P X hg (has_start hNode)).bind ?_
  rintro ⟨c, h⟩ ⟨hStep, hc⟩
  exact .ok ⟨hStep, hc.occupied⟩

theorem Evolves.unify
    (hg : g.WellFormed)
    (ha : g.Has a)
    (hb : g.Has b) :
    Yields (g.unify a b) (Evolves P X g) :=
  Evolves.of_spends (Spends.unify (hg.admits (s := 0)) ha.owns hb.owns)

theorem Evolves.collapse
    (hg : g.WellFormed)
    (hNode : g.hasNode id = true) :
    Yields (g.collapse id) fun found => Evolves P X g found.2 ∧
      found.2.hasNode found.1 = true := by
  refine (hg.roomy.yields_collapse hNode).yields.imp_eq ?_
  rintro ⟨rep, h⟩ hRun ⟨_, n, hLive⟩
  have hDerived := (Fused.collapseBy (T := fun _ => False)
    (derives_unifyWithin _) hg.freeListed hRun).1.toDerived
  exact ⟨.of_derived (Carries.of_derived (Sound.collapse (E := False) hg hRun) hDerived).later
    hDerived, hasNode_of_live hLive⟩

theorem Evolves.modifyNode
    (hg : g.WellFormed)
    (hNode : g.hasNode id = true)
    (hStep : ∀ h, g.modifyNode id f = .ok h →
        Sound False g h fun last => LinksHold False g last)
    (hLinks : ∀ n, (f n).links = n.links)
    (hNew : ∀ n s, s ∈ (f n).allocSites → P s → s ∈ n.allocSites ∨ X id) :
    Yields (g.modifyNode id f) (Evolves P X g) :=
  Evolves.of_spends (Spends.modifyNode (k := 0) (hg.admits (s := 0)) hNode hStep hLinks hNew
    fun _ _ _ _ hNot => absurd trivial hNot)

theorem Evolves.bindRoot
    (hg : g.WellFormed)
    (hInit : ∀ i, init? = some i → g.Has i) :
    Yields (g.bindRoot r init?) fun found => Evolves P X g found.2 ∧
      found.2.Has found.1 :=
  Evolves.cell_of_spends (Spends.bindRoot (hg.admits (s := 1))
    (fun _ => trivial) (fun i hi => (hInit i hi).owns)
    (Nat.le_refl 1))

end Graph

end HeapShape
