import HeapShape.Graph.Bind
import HeapShape.Proofs.Graph.Forwarding

/-
  The shape of a graph.

  Resolution, links and roots read the shape of a graph: how its slots
  resolve, and of a node its flags, its size and its links. What else is
  known of a node does not matter to them.

  Main declarations:
    * `Node.shape`
    * `Graph.Shortened.sameShape`
    * `Graph.sameShape_modifyNode`
    * `Graph.SameShape.link?_eq`
-/

-- Shapes

namespace HeapShape

/- A node without its types, sites and scalars. -/
def Node.shape
    (n : Node) : Node where
  flags := n.flags
  size := n.size
  links := n.links

namespace Graph

/- Two graphs that differ in what nodes know besides. -/
structure SameShape
    (g h : Graph) : Prop where
  config : h.config = g.config
  roots : h.roots = g.roots
  size : h.slots.size = g.slots.size
  resolve : h.resolve = g.resolve
  occupied : ∀ id, h.hasNode id = g.hasNode id
  nodes : ∀ id, (h.slot id).node?.map Node.shape =
    (g.slot id).node?.map Node.shape

variable {g h i : Graph}

theorem SameShape.refl
    (g : Graph) : SameShape g g where
  config := rfl
  roots := rfl
  size := rfl
  resolve := rfl
  occupied := fun _ => rfl
  nodes := fun _ => rfl

theorem SameShape.trans
    (hgh : SameShape g h)
    (hhi : SameShape h i) :
    SameShape g i where
  config := hhi.config.trans hgh.config
  roots := hhi.roots.trans hgh.roots
  size := hhi.size.trans hgh.size
  resolve := hhi.resolve.trans hgh.resolve
  occupied := fun id =>
    (hhi.occupied id).trans (hgh.occupied id)
  nodes := fun id => (hhi.nodes id).trans (hgh.nodes id)

-- Changes That Keep The Shape

variable {id : NodeId} {n : Node} {c : Cell}

/- Resolution sees which slots forward, and where to. -/
theorem resolveWithin_eq
    (hSlots : ∀ id, h.slot id = g.slot id ∨ ∃ n n', g.slot id = .live n ∧
        h.slot id = .live n')
    (fuel : Nat)
    (c : Cell) :
    h.resolveWithin fuel c = g.resolveWithin fuel c := by
  induction fuel generalizing c with
  | zero => rfl
  | succ fuel ih =>
    unfold resolveWithin
    rcases hSlots c.node with hSame | ⟨n, n', hOld, hNew⟩
    · rw [hSame]
      simp only [ih]
    · rw [hOld, hNew]

/- A chain that has no end is not shortened. -/
theorem Shortened.resolveWithin_eq
    (hs : Shortened g h)
    (hEndless : ∀ m k, ¬ g.Leads c.node m k)
    (fuel : Nat) :
    h.resolveWithin fuel c = g.resolveWithin fuel c := by
  induction fuel generalizing c with
  | zero => rfl
  | succ fuel ih =>
    have hSame : h.slot c.node = g.slot c.node := by
      rcases hs.slot c.node with hSame | ⟨t, m, k, _, hLeads, _⟩
      · exact hSame
      · exact absurd hLeads (hEndless m k)
    unfold resolveWithin
    rw [hSame]
    cases hSlot : g.slot c.node with
    | free => rfl
    | live n => rfl
    | forward t =>
      dsimp only
      cases addWord c.offset t.offset with
      | error fault => rfl
      | ok o =>
        apply ih
        intro m k hLeads
        exact hEndless m _ (.forward hSlot hLeads)

/- A cell that is no word cannot be forwarded. -/
theorem resolve_of_forward
    {t : Cell}
    (hSlot : g.slot c.node = .forward t)
    (hc : ¬ c.offset < wordBound) :
    g.resolve c = .error .addOverflow := by
  unfold resolve chainBound resolveWithin
  rw [hSlot]
  dsimp only
  unfold addWord
  rw [if_neg (by omega)]
  rfl

/- Shortening chains does not change where they lead. -/
theorem Shortened.resolve_eq
    (hs : Shortened g h)
    (c : Cell) :
    h.resolve c = g.resolve c := by
  by_cases hEnd : ∃ m k, g.Leads c.node m k
  · rcases hEnd with ⟨m, k, hLeads⟩
    by_cases hc : c.offset < wordBound
    · exact (resolve_of_leads (hs.leads hLeads) hc).trans (resolve_of_leads hLeads hc).symm
    · cases hLeads with
      | live hSlot =>
        have hSlot' := hs.live_iff.mpr hSlot
        unfold resolve chainBound resolveWithin
        rw [hSlot, hSlot']
      | forward hSlot hRest =>
        rw [resolve_of_forward hSlot hc]
        rcases hs.slot c.node with hSame | ⟨t, m, k, _, _, _, hNew⟩
        · rw [hSlot] at hSame
          exact resolve_of_forward hSame hc
        · exact resolve_of_forward hNew hc
  · have hEndless : ∀ m k, ¬ g.Leads c.node m k :=
      fun m k hLeads => hEnd ⟨m, k, hLeads⟩
    unfold resolve chainBound
    rw [hs.size]
    exact hs.resolveWithin_eq hEndless _

/- Shortening chains keeps the shape. -/
theorem Shortened.sameShape
    (hs : Shortened g h) :
    SameShape g h where
  config := hs.config
  roots := hs.roots
  size := hs.size
  resolve := funext hs.resolve_eq
  occupied := by
    intro id
    rw [Bool.eq_iff_iff]
    exact hs.hasNode_iff
  nodes := by
    intro id
    rcases hs.slot id with hSame | ⟨t, m, k, hOld, _, _, hNew⟩
    · rw [hSame]
    · rw [hOld, hNew]
      rfl

/- So does a change of a node that keeps its own. -/
theorem sameShape_setSlot
    (hSlot : g.slot id = .live n)
    {n' : Node}
    (hShape : n'.shape = n.shape) :
    SameShape g (g.setSlot id (.live n')) := by
  have hLt := lt_size_of_live hSlot
  have hNew := slot_setSlot hLt (.live n')
  have hSlots : ∀ j, (g.setSlot id (.live n')).slot j = g.slot j ∨ ∃ m m', g.slot j = .live m ∧
        (g.setSlot id (.live n')).slot j = .live m' := by
    intro j
    rw [hNew]
    split
    · next hEq =>
      subst hEq
      exact Or.inr ⟨n, n', hSlot, rfl⟩
    · exact Or.inl rfl
  refine ⟨rfl, rfl, slots_size_setSlot, ?_, ?_, ?_⟩
  · funext c
    unfold resolve chainBound
    rw [slots_size_setSlot]
    exact resolveWithin_eq hSlots _ c
  · intro j
    unfold hasNode
    rcases hSlots j with hSame | ⟨m, m', hOld, hLive⟩
    · rw [hSame]
    · rw [hOld, hLive]
      rfl
  · intro j
    rw [hNew]
    split
    · next hEq =>
      subst hEq
      rw [hSlot]
      exact congrArg some hShape
    · rfl

/- A change of a found node that keeps its shape. -/
theorem sameShape_modifyNode
    {f : Node → Node}
    (hRun : g.modifyNode id f = .ok h)
    (hf : ∀ n, (f n).shape = n.shape) :
    SameShape g h := by
  unfold modifyNode at hRun
  rcases Checked.of_bind hRun with ⟨⟨r, g₁⟩, hFind, hRun⟩
  rcases findNode_eq_ok hFind with ⟨k, hLeads, hs⟩
  rcases hLeads.live_end with ⟨n, hLive⟩
  have hSlot := hs.live_iff.mpr hLive
  dsimp only at hRun
  rw [modifyContents_of_live hSlot] at hRun
  cases hRun
  exact hs.sameShape.trans (sameShape_setSlot hSlot (hf n))

-- What Depends On The Shape

/- The contents of a slot, read for their shape. -/
theorem SameShape.bind_contents
    (hgh : SameShape g h)
    {α : Type}
    {F : Node → Checked α}
    (hF : ∀ n, F n.shape = F n)
    (id : NodeId) :
    (h.contents id >>= F) = (g.contents id >>= F) := by
  have hNode := hgh.nodes id
  have hOccupied := hgh.occupied id
  unfold contents
  unfold hasNode at hOccupied
  cases hg : g.slot id with
  | free =>
    cases hh : h.slot id with
    | free => rfl
    | forward t =>
      rw [hg, hh] at hOccupied
      cases hOccupied
    | live n =>
      rw [hg, hh] at hOccupied
      cases hOccupied
  | forward t =>
    cases hh : h.slot id with
    | free =>
      rw [hg, hh] at hOccupied
      cases hOccupied
    | forward t' => rfl
    | live n =>
      rw [hg, hh] at hNode
      cases hNode
  | live n =>
    cases hh : h.slot id with
    | free =>
      rw [hg, hh] at hNode
      cases hNode
    | forward t =>
      rw [hg, hh] at hNode
      cases hNode
    | live n' =>
      rw [hg, hh] at hNode
      have hShape : n'.shape = n.shape := Option.some.inj hNode
      change F n' = F n
      rw [← hF n', hShape, hF n]

theorem SameShape.link?_eq
    (hgh : SameShape g h)
    (c : Cell)
    (type? : Option TypeTag) :
    h.link? c type? = g.link? c type? := by
  unfold link?
  rw [hgh.resolve, hgh.config]
  congr 1
  funext d
  exact hgh.bind_contents (fun _ => rfl) d.node

theorem SameShape.rootCell?_eq
    (hgh : SameShape g h)
    (r : Root) :
    h.rootCell? r = g.rootCell? r := by
  unfold rootCell?
  rw [hgh.resolve, hgh.roots]

theorem SameShape.cell?_eq
    (hgh : SameShape g h)
    (v : ValueId) :
    h.cell? v = g.cell? v := by
  unfold cell?
  rw [hgh.rootCell?_eq, hgh.rootCell?_eq]

theorem SameShape.globalNames_eq
    (hgh : SameShape g h) :
    h.globalNames = g.globalNames := by
  unfold globalNames
  rw [hgh.roots]

/- The numbers of links of the live nodes. -/
theorem SameShape.linkCounts_eq
    (hgh : SameShape g h) :
    (h.liveNodes.map fun (_, n) => n.links.size) =
      g.liveNodes.map fun (_, n) => n.links.size := by
  unfold liveNodes
  rw [hgh.size, List.map_filterMap, List.map_filterMap]
  congr 1
  funext id
  have hNode := congrArg (Option.map fun n : Node => n.links.size) (hgh.nodes id)
  rw [Option.map_map, Option.map_map] at hNode
  rw [Option.map_map, Option.map_map]
  exact hNode

end Graph

end HeapShape
