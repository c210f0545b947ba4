import HeapShape.Proofs.Graph.Marked
import HeapShape.Proofs.Graph.Mirrored
import HeapShape.Proofs.Graph.Reachable

/-
  Copying is an isomorphism onto fresh nodes.

  A copier is asked for the images of cells and of nodes, by force or not.
  When it has served any number of requests, the nodes copied are those that
  the requests reach, each has one copy in a slot that was free, and the
  copies are linked as the originals are. A copy lacks stack sites only
  where they are stripped and its original was never asked for by force.

  Main declarations:
    * `Copier.Request`
    * `Copier.serve`
    * `Copier.Isomorphic`
    * `copying_is_isomorphism`
-/

-- Requests

namespace HeapShape

open Checked

namespace Copier

open Graph

/- What a copier is asked for. -/
inductive Request where
  /- The image of a cell. -/
  | cell (c : Cell) (force : Bool)
  /- The image of the start of a node. -/
  | node (id : NodeId) (force : Bool)
deriving DecidableEq

namespace Request

/- The source cell that is asked for. -/
def asked : Request → Cell
| cell c _ => c
| node id _ => Cell.start id

/- The source node that is asked for. -/
def start : Request → NodeId
| cell c _ => c.node
| node id _ => id

/- Whether stack sites are taken along in any case. -/
def force : Request → Bool
| cell _ force => force
| node _ force => force

/- The request speaks of a cell of the source. -/
def In
    (source : Graph) :
    Request → Prop
| cell c _ => source.Has c
| node id _ => source.hasNode id = true

def serve
    (k : Copier) :
    Request → Checked (Cell × Copier)
| cell c force => k.copyCell c force
| node id force => k.copyNode id force

/- The right answer, given the copies there are. -/
def Answer
    (k : Copier)
    (image : Cell) :
    Request → Prop
| cell c _ => k.Image c image
| node id _ => ∃ src j c, k.source.Leads id src j ∧
    k.copies.get? src = some c ∧ image = Cell.start c

end Request

/- A cell that has to be resolved to serve requests. -/
def Consults
    (requests : List Request)
    (source : Graph)
    (c : Cell) : Prop :=
  ∃ r ∈ requests, c = r.asked ∨
    ∃ x n f, source.Reaches r.start x ∧
      source.slot x = .live n ∧ n.links.get? f = some c

/- Serve requests in order. -/
def serve :
    Copier → List Request → Checked (List Cell × Copier)
| k, [] => .ok ([], k)
| k, r :: rest => do
    let (image, k) ← r.serve k
    let (images, k) ← serve k rest
    return (image :: images, k)

variable {g : Graph} {S : NodeId →
    Prop} {k k' : Copier} {copy node : NodeId} {force : Bool}

/- What a source node is copied by, all its links included. -/
abbrev Complete
    (g : Graph)
    (S : NodeId → Prop)
    (k : Copier) : Prop :=
  Mirroring g S k.source.linksOf k

variable {src : NodeId} {n : Node} {c image : Cell} {r : Request} {requests : List Request}
variable {images : List Cell}

/- Sites are noted at the copy of a node copied before. -/
theorem Mirroring.forceSites
    {part : NodeId → List (Field × Cell)}
    (hk : Mirroring g S part k)
    (hCopy : k.copies.get? src = some copy)
    (hLive : k.source.slot src = .live n) :
    ∃ k', ({ k with forced := k.forced.insert src } :
      Copier).addSites copy (({ k with
        forced := k.forced.insert src } :
          Copier).sitesOf n true) = .ok k' ∧
      Mirroring g S part k' ∧ Extends k k' ∧ k'.copies = k.copies ∧
      k'.forced = k.forced.insert src := by
  rcases hk.mirrors src copy hCopy with ⟨_, m, hLive', hCopied, hm⟩
  cases hLive.symm.trans hLive'
  rcases addSites_of_live (k := { k with forced := k.forced.insert src }) hCopied _ with
    ⟨m', hSame, hSites, hAdd⟩
  have hExt : Extends k { k with
      dest := k.dest.setSlot copy (.live m')
      forced := k.forced.insert src } :=
    ⟨rfl, rfl, fun _ _ h => h, fun x hx => (OrdSet.mem_insert_iff _ _ _).mpr (.inr hx)⟩
  refine ⟨_, hAdd, ?_, hExt, rfl, rfl⟩
  rw [← Function.update_eq_self src part]
  refine hk.put hExt ?_ (fun x hx => (OrdSet.mem_insert_iff _ _ _).mp hx)
    (hk.fresh src copy hCopy) (hk.ne_copy hCopy)
    (hk.within src copy hCopy) hLive
    (.setLive hk.grown.freeListed hCopied _)
    ⟨hSame.size.trans hm.size, hSame.types.trans hm.types, hSame.flags ▸ hm.flags,
      hSame.uniqueScalar.trans hm.uniqueScalar, ?_,
      hSame.links ▸ hm.links⟩
    (fun f t hMem => hk.targets src copy f t hCopy hMem)
  · intro x
    split
    · next hx => exact hx ▸ hCopy
    · rfl
  · intro s
    rw [hSites, mem_sitesOf_iff, hm.sites]
    constructor
    · rintro (⟨hs, _⟩ | ⟨hs, _⟩) <;>
        exact ⟨hs, fun hLeft => hLeft.2.2 ((OrdSet.mem_insert_iff _ _ _).mpr (.inl rfl))⟩
    · rintro ⟨hs, _⟩
      exact Or.inr ⟨hs, Or.inl rfl⟩

/- What is known once a source node has been asked for. -/
structure Serves
    (g : Graph)
    (S : NodeId → Prop)
    (start : NodeId)
    (force : Bool)
    (k k' : Copier) : Prop where
  complete : Complete g S k'
  extension : Extends k k'
  copied : ∀ src j, k.source.Leads start src j →
    ∃ c, k'.copies.get? src = some c
  forced : k.options.stripAllocas = true → ∀ x,
    x ∈ k'.forced ↔ x ∈ k.forced ∨
      force = true ∧ ∃ j, k.source.Leads start x j

variable {F : Prop}

theorem Mirroring.copyOf
    (hk : Complete g S k)
    (hS : Covers S F k.source)
    (hStart : ∀ x j, k.source.Leads node x j → S x)
    (hAsked : k.source.resolve (Cell.start node) = .error .addOverflow → F) :
    Explains F (k.copyOf node force) fun r =>
      Serves g S node force k r.2 ∧ ∃ src j,
        k.source.Leads node src j ∧ r.2.copies.get? src = some r.1 := by
  unfold Copier.copyOf
  refine Explains.bind (P := fun _ => True) ⟨hAsked, fun _ _ => trivial⟩ ?_
  intro u hResolve _
  rcases leads_of_resolve hResolve with ⟨j, hLeads, _⟩
  rcases hLeads.live_end with ⟨n, hLive⟩
  -- Only the node that is asked for can be copied by force.
  have hHere : ∀ x, (∃ i, k.source.Leads node x i) ↔ x = u.node := by
    intro x
    constructor
    · rintro ⟨i, hi⟩
      exact (hi.unique hLeads).1
    · rintro rfl
      exact ⟨j, hLeads⟩
  have hCopied : ∀ (copy : NodeId) (k' : Copier),
      k'.copies.get? u.node = some copy → ∀ src i,
      k.source.Leads node src i → ∃ c, k'.copies.get? src = some c := by
    intro copy k' hCopy src i hi
    exact ⟨copy, (hi.unique hLeads).1 ▸ hCopy⟩
  dsimp only
  split
  · next copy hCopy =>
    split
    · next hForce =>
      rcases hk.forceSites hCopy hLive with
        ⟨k', hSites, hMade, hExt, hCopies, hForced⟩
      simp only [Bool.and_eq_true] at hForce
      have hLast := hCopies ▸ hCopy
      rw [contents_of_live hLive, ok_bind, hSites, ok_bind]
      refine .ok ⟨⟨?_, hExt, hCopied _ _ hLast, ?_⟩, u.node, j, hLeads, hLast⟩
      · unfold Complete
        rw [hExt.source]
        exact hMade
      · intro _ x
        rw [hForced, OrdSet.mem_insert_iff, hHere]
        tauto
    · next hForce =>
      refine .ok ⟨⟨hk, .refl k, hCopied _ k hCopy, ?_⟩, u.node, j, hLeads, hCopy⟩
      intro hStrip x
      rw [hHere]
      constructor
      · exact Or.inl
      · rintro (hIn | ⟨hForced, rfl⟩)
        · exact hIn
        · by_contra hOut
          have hNo : k.forced.contains u.node = false := Bool.eq_false_iff.mpr hOut
          simp [hForced, hStrip, hNo] at hForce
  · next hNone =>
    rcases hk.copyContents hLive hNone (hStart _ _ hLeads) force with
      ⟨copy, k₁, hMake, hMade, hExt, hCopy, hForced⟩
    have hWaits : Waiting g S [u.node] k₁ := by
      refine ⟨?_, ?_, List.nodup_singleton _⟩
      · rw [linksBut_cons, linksBut_nil, hExt.source]
        exact hMade
      · intro x hx
        cases List.mem_singleton.mp hx
        exact ⟨_, hCopy⟩
    unfold noting at hMake
    rw [hMake, ok_bind]
    refine (hWaits.copyLinksWithin (hExt.source ▸ hS)).bind ?_
    rintro k' _ ⟨hLast, hNext⟩
    have hEnd := hNext.extension.copies _ _ hCopy
    refine .ok ⟨⟨?_, hExt.trans hNext.extension, hCopied _ _ hEnd, ?_⟩,
      u.node, j, hLeads, hEnd⟩
    · unfold Complete
      rw [← linksBut_nil]
      exact hLast.mirroring
    · intro _ x
      rw [hNext.forced, hForced, mem_noting_iff, hHere, or_comm]

/- The image of a cell is told by the copy of its node. -/
theorem Mirroring.copyCell
    (hk : Complete g S k)
    (hS : Covers S F k.source)
    (hStart : ∀ x j, k.source.Leads c.node x j → S x)
    (hAsked : k.source.resolve c = .error .addOverflow → F)
    (hc : k.source.Has c) :
    Explains F (k.copyCell c force) fun r =>
      Serves g S c.node force k r.2 ∧ r.2.Image c r.1 := by
  unfold Copier.copyCell
  refine Explains.bind (P := fun _ => True) ⟨hAsked, fun _ _ => trivial⟩ ?_
  intro u hResolve _
  rcases resolve_eq_ok hc.word hResolve with ⟨j, n, hLeads, hLive, _, hWord⟩
  -- The cell is resolved once more, to no effect.
  have hSame : ∀ x i, k.source.Leads u.node x i →
      x = u.node := fun x i hi => (hi.eq_of_live hLive).1
  refine (Mirroring.copyOf hk hS (fun x i hi => hSame x i hi ▸ hStart _ _ hLeads) ?_).bind ?_
  · intro hOver
    rw [resolve_of_live (c := Cell.start u.node) hLive] at hOver
    cases hOver
  rintro ⟨copy, k₁⟩ _ ⟨hServes, src, i, hi, hCopy⟩
  cases hSame src i hi
  rcases hServes.complete.mirrors _ copy hCopy with ⟨_, m, _, hCopied, _⟩
  dsimp only
  rw [find_of_live hCopied hWord, ok_bind]
  refine .ok ⟨⟨hServes.complete, hServes.extension, ?_, ?_⟩, u,
    copy, hServes.extension.source ▸ hResolve, hCopy, rfl⟩
  · intro x i hi
    cases (hi.unique hLeads).1
    exact ⟨copy, hCopy⟩
  · intro hStrip x
    rw [hServes.forced hStrip x]
    have hBoth : (∃ i, k.source.Leads u.node x i) ↔ ∃ i, k.source.Leads c.node x i := by
      constructor
      · rintro ⟨i, hi⟩
        cases hSame x i hi
        exact ⟨j, hLeads⟩
      · rintro ⟨i, hi⟩
        cases (hi.unique hLeads).1
        exact ⟨0, .live hLive⟩
    rw [hBoth]

theorem Mirroring.copyNode
    (hk : Complete g S k)
    (hS : Covers S F k.source)
    (hStart : ∀ x j, k.source.Leads node x j → S x)
    (hAsked : k.source.resolve (Cell.start node) = .error .addOverflow → F) :
    Explains F (k.copyNode node force) fun r =>
      Serves g S node force k r.2 ∧ ∃ src j c,
        r.2.source.Leads node src j ∧
        r.2.copies.get? src = some c ∧ r.1 = Cell.start c := by
  unfold Copier.copyNode
  refine (Mirroring.copyOf hk hS hStart hAsked).bind ?_
  rintro ⟨copy, k₁⟩ _ ⟨hServes, src, j, hLeads, hCopy⟩
  rcases hServes.complete.mirrors src copy hCopy with ⟨_, m, _, hCopied, _⟩
  dsimp only
  unfold Cell.start
  rw [find_of_live hCopied (by decide), ok_bind]
  exact .ok ⟨hServes, src, j, copy, hServes.extension.source ▸ hLeads, hCopy, rfl⟩

/- One request. -/
theorem Mirroring.serveOne
    (hk : Complete g S k)
    (hS : Covers S F k.source)
    (hStart : ∀ x j, k.source.Leads r.start x j → S x)
    (hAsked : k.source.resolve r.asked = .error .addOverflow → F)
    (hIn : r.In k.source) :
    Explains F (r.serve k) fun made =>
      Serves g S r.start r.force k made.2 ∧ r.Answer made.2 made.1 := by
  cases r with
  | cell c force => exact hk.copyCell hS hStart hAsked hIn
  | node id force => exact hk.copyNode hS hStart hAsked

theorem Request.Answer.extended
    (hAnswer : r.Answer k image)
    (h : Extends k k') :
    r.Answer k' image := by
  cases r with
  | cell c force => exact Image.extended hAnswer h
  | node id force =>
    rcases hAnswer with ⟨src, j, c, hLeads, hCopy, rfl⟩
    exact ⟨src, j, c, h.source ▸ hLeads, h.copies src c hCopy, rfl⟩

/- What is known once requests have been served. -/
structure ServesAll
    (g : Graph)
    (S : NodeId → Prop)
    (requests : List Request)
    (images : List Cell)
    (k k' : Copier) : Prop where
  complete : Complete g S k'
  extension : Extends k k'
  answers : List.Forall₂ (fun r image => r.Answer k' image)
    requests images
  copied : ∀ r ∈ requests, ∀ src j,
    k.source.Leads r.start src j →
      ∃ c, k'.copies.get? src = some c
  forced : k.options.stripAllocas = true → ∀ x,
    x ∈ k'.forced ↔ x ∈ k.forced ∨
      ∃ r ∈ requests, r.force = true ∧
        ∃ j, k.source.Leads r.start x j

theorem Mirroring.serve
    (hk : Complete g S k)
    (hS : Covers S F k.source)
    (hStart : ∀ r ∈ requests, ∀ x j, k.source.Leads r.start x j → S x)
    (hAsked : ∀ r ∈ requests,
      k.source.resolve r.asked = .error .addOverflow → F)
    (hIn : ∀ r ∈ requests, r.In k.source) :
    Explains F (Copier.serve k requests) fun made =>
      ServesAll g S requests made.1 k made.2 := by
  induction requests generalizing k with
  | nil => exact .ok ⟨hk, .refl _, .nil, nofun, by simp⟩
  | cons r rest ih =>
    have hFirst := List.mem_cons_self (a := r) (l := rest)
    have hLater : ∀ r' ∈ rest, r' ∈ r :: rest :=
      fun r' hr => List.mem_cons_of_mem r hr
    unfold Copier.serve
    refine (hk.serveOne hS (hStart r hFirst) (hAsked r hFirst) (hIn r hFirst)).bind ?_
    rintro ⟨image, k₁⟩ _ ⟨hOne, hAnswer⟩
    have hExt := hOne.extension
    refine (ih hOne.complete (hExt.source ▸ hS)
      (fun r' hr => hExt.source ▸ hStart r' (hLater r' hr))
      (fun r' hr => hExt.source ▸ hAsked r' (hLater r' hr))
      (fun r' hr => hExt.source ▸ hIn r' (hLater r' hr))).bind ?_
    rintro ⟨images, k₂⟩ _ hAll
    refine .ok ⟨hAll.complete, hExt.trans hAll.extension,
      .cons (hAnswer.extended hAll.extension) hAll.answers,
      ?_, ?_⟩
    · intro r' hr src j hLeads
      rcases List.mem_cons.mp hr with rfl | hr
      · rcases hOne.copied src j hLeads with ⟨c, hc⟩
        exact ⟨c, hAll.extension.copies src c hc⟩
      · exact hAll.copied r' hr src j (hExt.source ▸ hLeads)
    · intro hStrip x
      rw [hAll.forced (hExt.options ▸ hStrip) x, hOne.forced hStrip x, hExt.source, or_assoc]
      simp only [List.mem_cons, exists_eq_or_imp]

-- Isomorphic Images

open Graph

/- A node copied for requests. -/
structure IsCopy
    (requests : List Request)
    (k : Copier)
    (src : NodeId)
    (n m : Node) : Prop where
  size : m.size = n.size
  types : m.types = n.types
  flags : ∀ f, m.flags.has f =
    if f = .foreign then k.options.markForeign
    else n.flags.has f
  uniqueScalar : m.uniqueScalar = {}
  links : ∀ f, Option.Rel k.Image
    (n.links.get? f) (m.links.get? f)
  sites : ∀ s, s ∈ m.allocSites ↔
    s ∈ n.allocSites ∧
      ¬ (k.options.stripAllocas = true ∧ s.isStack = true ∧
        ∀ r ∈ requests, r.force = true →
          ∀ j, ¬ k.source.Leads r.start src j)

/-
  What requests reach was copied into slots of `g` that were free, one for
  each node, and nothing else was done to `g`.
-/
structure Isomorphic
    (requests : List Request)
    (g : Graph)
    (k : Copier) : Prop where
  copied : ∀ src, (∃ c, k.copies.get? src = some c) ↔
    ∃ r ∈ requests, k.source.Reaches r.start src
  fresh : ∀ src c, k.copies.get? src = some c →
    g.slot c = .free
  injective : ∀ x y c, k.copies.get? x = some c →
    k.copies.get? y = some c → x = y
  isCopy : ∀ src c, k.copies.get? src = some c →
    ∃ n m, k.source.slot src = .live n ∧
      k.dest.slot c = .live m ∧ IsCopy requests k src n m
  kept : ∀ j, g.slot j ≠ .free → k.dest.slot j = g.slot j
  only : ∀ j, g.slot j = .free → k.dest.slot j ≠ .free →
    ∃ src, k.copies.get? src = some j
  rest : { k.dest with slots := g.slots, free := g.free } = g

variable {x : NodeId} {m : Node} {source dest : Graph}

/- What a copied node leads to is copied. -/
theorem Mirroring.closed
    (hk : Complete g S k)
    {y : NodeId}
    {t : Cell}
    (hx : ∃ c, k.copies.get? x = some c)
    (hLink : k.source.LinkTo x t y) :
    ∃ c, k.copies.get? y = some c := by
  rcases hx with ⟨c, hc⟩
  rcases hLink with ⟨n, f, j, hLive, hGet, hLeads⟩
  have hMem : (f, t) ∈ k.source.linksOf x := by
    rw [linksOf_of_live hLive, ← OrdMap.get?_eq_some_iff]
    exact hGet
  rcases hk.targets x c f t hc hMem with ⟨_, u, c', hResolve, hTarget, _⟩
  rcases leads_of_resolve hResolve with ⟨i, hi, _⟩
  exact ⟨c', (hLeads.unique hi).1 ▸ hTarget⟩

/- All that is reached from a copied node is copied. -/
theorem Mirroring.reaches
    (hk : Complete g S k)
    {start : NodeId}
    (hStart : ∀ y j, k.source.Leads start y j → ∃ c, k.copies.get? y = some c)
    (hReaches : k.source.Reaches start x) :
    ∃ c, k.copies.get? x = some c := by
  induction hReaches with
  | here hLeads => exact hStart _ _ hLeads
  | link _ hLink ih => exact hk.closed ih hLink

/- A complete copy of a node. -/
theorem Mirroring.links
    (hk : Complete g S k)
    {c : NodeId}
    (hCopy : k.copies.get? src = some c)
    (hLive : k.source.slot src = .live n)
    (hm : k.Mirrors src (k.source.linksOf src) n m)
    (f : Field) :
    Option.Rel k.Image (n.links.get? f) (m.links.get? f) := by
  have hLinks := linksOf_of_live hLive
  cases hGet : n.links.get? f with
  | none =>
    have hNone : m.links.get? f = none := by
      rw [Option.eq_none_iff_forall_ne_some]
      intro t' ht'
      rcases (hm.links f t').mp ht' with ⟨t, hMem, _⟩
      rw [hLinks, ← OrdMap.get?_eq_some_iff, hGet] at hMem
      cases hMem
    rw [hNone]
    exact .none
  | some t =>
    have hMem : (f, t) ∈ k.source.linksOf src := by
      rw [hLinks, ← OrdMap.get?_eq_some_iff]
      exact hGet
    rcases hk.targets src c f t hCopy hMem with ⟨t', hImage⟩
    rw [(hm.links f t').mpr ⟨t, hMem, hImage⟩]
    exact .some hImage

/- A node that has a copy keeps it. -/
theorem copyOf_again
    (hLive : k.source.slot src = .live n)
    (hCopy : k.copies.get? src = some copy)
    (hCopied : k.dest.slot copy = .live m)
    (force : Bool) :
    ∃ k' m', k.copyOf src force = .ok (copy, k') ∧
      k'.copies = k.copies ∧ k'.dest.slot copy = .live m' := by
  unfold Copier.copyOf
  rw [resolve_of_live (c := Cell.start src) hLive, ok_bind]
  dsimp only [Cell.start]
  rw [hCopy]
  dsimp only
  split
  · rw [contents_of_live hLive, ok_bind]
    rcases addSites_of_live (k := { k with
        forced := k.forced.insert src }) hCopied
        (sitesOf { k with forced := k.forced.insert src } n true) with ⟨m', _, _, hAdd⟩
    rw [hAdd, ok_bind]
    refine ⟨_, m', rfl, rfl, ?_⟩
    dsimp only
    rw [slot_setSlot (lt_size_of_live hCopied), if_pos rfl]
  · exact ⟨k, m, rfl, rfl, hCopied⟩

/- A cell of a copied node has its image already. -/
theorem Mirroring.copyCell_again
    (hk : Complete g S k)
    {u : Cell}
    (hc : k.source.Has c)
    (hResolve : k.source.resolve c = .ok u)
    (hCopy : k.copies.get? u.node = some copy)
    (force : Bool) :
    ∃ k', k.copyCell c force = .ok ({ node := copy, offset := u.offset }, k') ∧
      k'.copies = k.copies := by
  rcases resolve_eq_ok hc.word hResolve with ⟨_, n, _, hLive, _, hWord⟩
  rcases hk.mirrors _ _ hCopy with ⟨_, m, _, hCopied, _⟩
  rcases copyOf_again hLive hCopy hCopied force with ⟨k₁, m₁, hCopyOf, hSame, hSlot⟩
  unfold Copier.copyCell
  rw [hResolve, ok_bind, hCopyOf, ok_bind]
  dsimp only
  rw [find_of_live hSlot hWord, ok_bind]
  exact ⟨_, rfl, hSame⟩

/- The state of a copier before any request. -/
theorem Mirroring.start
    (hSource : source.WellFormed)
    (hDest : dest.WellFormed)
    (hConfig : dest.config = source.config)
    (options : CopyOptions) :
    Complete dest S { source := source, dest := dest, options := options }
    where
  source := hSource
  config := hConfig
  grown := .refl hDest.freeListed
  only := fun _ hFree hUsed => absurd hFree hUsed
  fresh := nofun
  injective := nofun
  within := nofun
  mirrors := nofun
  targets := nofun
  forced := nofun

theorem ServesAll.isomorphic
    {options : CopyOptions}
    (hAll : ServesAll dest
      (fun x => ∃ r ∈ requests, source.Reaches r.start x)
      requests images
      { source := source, dest := dest, options := options }
      k) :
    Isomorphic requests dest k := by
  have hk := hAll.complete
  have hSource : k.source = source := hAll.extension.source
  have hOptions : k.options = options := hAll.extension.options
  constructor
  case copied =>
    intro src
    constructor
    · rintro ⟨c, hc⟩
      rcases hk.within src c hc with ⟨r, hr, hReaches⟩
      exact ⟨r, hr, hSource ▸ hReaches⟩
    · rintro ⟨r, hr, hReaches⟩
      refine hk.reaches ?_ hReaches
      rw [hSource]
      exact hAll.copied r hr
  case fresh => exact hk.fresh
  case injective => exact hk.injective
  case isCopy =>
    intro src c hc
    rcases hk.mirrors src c hc with ⟨n, m, hn, hCopied, hm⟩
    refine ⟨n, m, hn, hCopied, hm.size, hm.types, hm.flags, hm.uniqueScalar, hk.links hc hn hm, ?_⟩
    intro s
    have hLeaves : k.Leaves src s ↔ k.options.stripAllocas = true ∧ s.isStack = true ∧
          ∀ r ∈ requests, r.force = true → ∀ j, ¬ k.source.Leads r.start src j := by
      refine and_congr_right fun hStrip =>
        and_congr_right fun _ => ?_
      have hNone : src ∉ (OrdSet.empty : OrdSet NodeId) := nofun
      rw [hAll.forced (hOptions ▸ hStrip) src, or_iff_right hNone, hSource]
      simp only [not_exists, not_and]
    rw [hm.sites, hLeaves]
  case kept => exact hk.grown.kept
  case only => exact hk.only
  case rest => exact hk.grown.rest

-- Progress

open Graph

theorem Working.yields_serveOne
    (hk : k.Working)
    (hIn : r.In k.source) :
    Yields (r.serve k) fun made => made.2.Working ∧ made.2.source = k.source := by
  have hNone : k.Strips fun _ => False := nofun
  cases r with
  | cell c force =>
    refine (hk.yields_copyCell hNone hIn).imp ?_
    exact fun made hMade =>
      ⟨hMade.1.working, hMade.1.extension.source⟩
  | node id force =>
    change Yields (k.copyNode id force) _
    unfold copyNode
    refine (hk.yields_copyOf hNone hIn).bind ?_
    rintro ⟨copy, k₁⟩ ⟨hMade, hHere⟩
    dsimp only at hMade hHere ⊢
    refine (Evolves.find (fun _ => False) (fun _ => False)
      hMade.working.dest (has_start hHere)).bind ?_
    rintro ⟨image, dest⟩ ⟨hFound, _⟩
    have hLast := hMade.working.setDest hFound
    exact .ok ⟨hLast.working, hMade.extension.source⟩

theorem Working.yields_serve
    (hk : k.Working)
    (hIn : ∀ r ∈ requests, r.In k.source) :
    Yields (serve k requests) fun _ => True := by
  induction requests generalizing k with
  | nil => exact .ok trivial
  | cons r rest ih =>
    unfold serve
    refine (hk.yields_serveOne (hIn r List.mem_cons_self)).bind ?_
    rintro ⟨image, k₁⟩ ⟨hWorking, hSource⟩
    refine (ih hWorking ?_).bind ?_
    · intro r' hr
      rw [hSource]
      exact hIn r' (List.mem_cons_of_mem r hr)
    · exact fun _ _ => .ok trivial

end Copier

open Copier

/-
  Whatever is asked of a copier, its copies are an isomorphic image of the
  structure that the requests reach, made of fresh nodes. A cell is given
  the same image whenever it is asked for. It fails only where a cell that is
  asked for or led to has no live cell, because the offset leaves the word
  range.
-/
theorem copying_is_isomorphism
    {source dest : Graph}
    (hSource : source.WellFormed)
    (hDest : dest.WellFormed)
    (hConfig : dest.config = source.config)
    (options : CopyOptions)
    {requests : List Request}
    (hIn : ∀ r ∈ requests, r.In source) :
    Checked.YieldsUnless
      (∃ c, Consults requests source c ∧
        source.resolve c = .error .addOverflow)
      (serve
        { source := source
          dest := dest
          options := options }
        requests)
      fun r =>
        r.2.source = source ∧ r.2.options = options ∧
        Isomorphic requests dest r.2 ∧
        List.Forall₂ (fun q image => q.Answer r.2 image)
          requests r.1 ∧
        ∀ c u copy force, source.Has c →
          source.resolve c = .ok u →
          r.2.copies.get? u.node = some copy →
          ∃ k, r.2.copyCell c force = .ok
              ({ node := copy, offset := u.offset }, k) ∧
            k.copies = r.2.copies := by
  have hWorking : Working
      { source := source
        dest := dest
        options := options } :=
    ⟨hSource, hDest, nofun⟩
  have hCovers : Covers
      (fun x => ∃ r ∈ requests, source.Reaches r.start x)
      (∃ c, Consults requests source c ∧
        source.resolve c = .error .addOverflow) source := by
    constructor
    · rintro x t y ⟨r, hr, hReaches⟩ hLink
      exact ⟨r, hr, .link hReaches hLink⟩
    · rintro x n f t ⟨r, hr, hReaches⟩ hLive hGet hOver
      exact ⟨t, ⟨r, hr, .inr ⟨x, n, f, hReaches, hLive, hGet⟩⟩, hOver⟩
  have hServed := (Mirroring.start hSource hDest hConfig
    options).serve hCovers
      (fun r hr x j hLeads => ⟨r, hr, .here hLeads⟩)
      (fun r hr hOver => ⟨r.asked, ⟨r, hr, .inl rfl⟩, hOver⟩)
      hIn
  refine (hServed.yieldsUnless
    (hWorking.yields_serve hIn)).imp ?_
  rintro ⟨images, k⟩ hAll
  have hExt := hAll.extension
  refine ⟨hExt.source, hExt.options, hAll.isomorphic,
    hAll.answers, ?_⟩
  intro c u copy force hc hResolve hCopy
  have hFrom : k.source = source := hExt.source
  exact hAll.complete.copyCell_again (hFrom ▸ hc)
    (hFrom ▸ hResolve) hCopy force

/- Two nodes in a ring, one of them found by a stale link. -/
def staleRing : List Update :=
  [.createNode Flags.empty 16,
    .createNode Flags.empty 8,
    .createNode Flags.empty 8,
    .addAllocSite 1 ⟨5, .stack⟩,
    .merge (.addLink ⟨0, 0⟩ none ⟨1, 0⟩),
    .merge (.addLink ⟨0, 8⟩ none ⟨2, 0⟩),
    .merge (.addLink ⟨1, 0⟩ none ⟨0, 8⟩),
    .merge (.unify ⟨1, 0⟩ ⟨2, 0⟩)]

/- A graph with a root. -/
def oneRoot : List Update :=
  [.createNode Flags.empty 8,
    .merge (.bindRoot (.scalar 7) (some ⟨0, 0⟩))]

/- A node is copied by force after another led to it. -/
def ringRequests : List Request :=
  [.cell ⟨0, 8⟩ false, .node 2 true, .cell ⟨1, 4⟩ false]

theorem copying_is_isomorphism_of_staleRing :
    ∃ source dest k,
      source.WellFormed ∧ dest.WellFormed ∧
      dest.config = source.config ∧
      (∀ r ∈ ringRequests, r.In source) ∧
      serve
        { source := source
          dest := dest
          options :=
            { stripAllocas := true, markForeign := true } }
        ringRequests =
          .ok ([⟨1, 8⟩, ⟨2, 0⟩, ⟨2, 4⟩], k) ∧
      Isomorphic ringRequests dest k := by
  rcases Update.exists_runs {} staleRing oneRoot
      (P := fun g h => h.config = g.config ∧
        [0, 1, 2].all g.hasNode = true ∧
        (serve
          { source := g
            dest := h
            options :=
              { stripAllocas := true, markForeign := true } }
          ringRequests).map Prod.fst =
            .ok [⟨1, 8⟩, ⟨2, 0⟩, ⟨2, 4⟩])
      (by decide) (by decide +kernel) with
    ⟨source, dest, _, _, hSource, hDest, hConfig, hNodes, hRun⟩
  rcases Checked.map_eq_ok_iff.mp hRun with
    ⟨⟨images, k⟩, hRun, rfl⟩
  have hIn : ∀ r ∈ ringRequests, r.In source := by
    rw [List.all_eq_true] at hNodes
    have h0 := hNodes 0 (by decide)
    have h1 := hNodes 1 (by decide)
    have h2 := hNodes 2 (by decide)
    simp only [ringRequests, List.forall_mem_cons]
    exact ⟨⟨h0, by decide⟩, h2, ⟨h1, by decide⟩, nofun⟩
  exact ⟨source, dest, k, hSource, hDest, hConfig, hIn, hRun,
    ((copying_is_isomorphism hSource hDest hConfig _
      hIn).of_eq_ok hRun).2.2.1⟩

end HeapShape
