import HeapShape.Proofs.Graph.WellFormed

/-
  Graphs after merging.

  `Merged g h` says that every chain of `g` goes on to one end in `h`, and
  that the live nodes there stand for those of `g`. Links and addresses are
  told in the later graph, where nodes have come to their ends.

  The parameter `E` says whether a link is followed to its field and
  address, or to its nodes only. The exact form asks that no array changes
  its stride.

  Main declarations:
    * `Graph.Merged`
    * `Graph.SameAddress`
    * `Graph.Linked`
    * `Graph.LinksHold`
-/

-- Nodes After Merging

namespace HeapShape

namespace Graph

/-
  Every chain of `g` has its end in `h` where the chain of its old end has,
  and each live node of `g` has a node of `h` that stands for it.
-/
structure Merged
    (g h : Graph) : Prop where
  config : h.config = g.config
  leads : ∀ id m k, g.Leads id m k →
    ∃ m' k', h.Leads m m' k' ∧ h.Leads id m' (k + k')
  stands : ∀ id n m k n', g.slot id = .live n →
    h.Leads id m k → h.slot m = .live n' → n.StandsFor n' k

variable {g h i : Graph} {id : NodeId} {n : Node}

theorem Merged.refl
    (hg : g.WellFormed) :
    Merged g g where
  config := rfl
  leads := by
    intro id m k hLeads
    rcases hLeads.live_end with ⟨n, hLive⟩
    exact ⟨m, 0, .live hLive, hLeads⟩
  stands := by
    intro id n m k n' hSlot hLeads hLive
    rcases hLeads.eq_of_live hSlot with ⟨rfl, rfl⟩
    rw [hSlot] at hLive
    cases hLive
    exact .refl (hg.nodes m n hSlot).size_lt

/- The node of `h` that stands for a live node of `g`. -/
theorem Merged.live
    (hm : Merged g h)
    (hSlot : g.slot id = .live n) :
    ∃ m k n', h.Leads id m k ∧ h.slot m = .live n' ∧ n.StandsFor n' k := by
  rcases hm.leads id id 0 (.live hSlot) with ⟨m, k, hLeads, _⟩
  rcases hLeads.live_end with ⟨n', hLive⟩
  exact ⟨m, k, n', hLeads, hLive, hm.stands id n m k n' hSlot hLeads hLive⟩

theorem Merged.trans
    (hi : i.WellFormed)
    (hgh : Merged g h)
    (hhi : Merged h i) :
    Merged g i where
  config := hhi.config.trans hgh.config
  leads := by
    intro id m k hLeads
    rcases hgh.leads id m k hLeads with ⟨m₁, k₁, hEnd, hAll⟩
    rcases hhi.leads _ _ _ hAll with ⟨m₂, k₂, hEnd₂, hAll₂⟩
    rcases hhi.leads _ _ _ hEnd with ⟨m₃, k₃, hEnd₃, hAll₃⟩
    rcases hEnd₂.unique hEnd₃ with ⟨rfl, rfl⟩
    refine ⟨m₂, k₁ + k₂, hAll₃, ?_⟩
    rw [← Nat.add_assoc]
    exact hAll₂
  stands := by
    intro id n m k n' hSlot hLeads hLive
    rcases hgh.live hSlot with ⟨m₁, k₁, n₁, hLeads₁, hLive₁, hStands₁⟩
    rcases hhi.leads _ _ _ hLeads₁ with ⟨m₂, k₂, hEnd, hAll⟩
    rcases hLeads.unique hAll with ⟨rfl, rfl⟩
    exact hStands₁.trans (hhi.stands m₁ n₁ m k₂ n' hLive₁ hEnd hLive)
      (hi.nodes m n' hLive).collapsed_not_array

/- Occupied slots stay occupied. -/
theorem Merged.hasNode
    (hg : g.WellFormed)
    (hm : Merged g h)
    (hNode : g.hasNode id = true) :
    h.hasNode id = true := by
  rcases hg.leads hNode with ⟨m, k, hLeads⟩
  rcases hm.leads id m k hLeads with ⟨_, _, _, hAll⟩
  exact hAll.hasNode

theorem Merged.has
    (hg : g.WellFormed)
    (hm : Merged g h)
    {c : Cell}
    (hc : g.Has c) :
    h.Has c :=
  hc.mono fun _ => hm.hasNode hg

-- Strides After Merging

/- If the node of a slot is an array, then of this stride. -/
def StrideAt
    (g : Graph)
    (id : NodeId)
    (stride : Nat) : Prop :=
  ∀ m k n, g.Leads id m k → g.slot m = .live n →
    n.isArray = true → n.size = stride

/- An array of `g` that is an array in `h` has its stride. -/
def SameStrides
    (g h : Graph) : Prop :=
  ∀ id n m k n', g.slot id = .live n → n.isArray = true →
    h.Leads id m k → h.slot m = .live n' →
      n'.isArray = true → n'.size = n.size

/- Every array of `h` stands for an array of `g`. -/
def ArraysFrom
    (g h : Graph) : Prop :=
  ∀ id n, h.slot id = .live n → n.isArray = true →
    ∃ j k n', g.slot j = .live n' ∧ n'.isArray = true ∧
      h.Leads j id k

theorem ArraysFrom.trans
    (hgh : ArraysFrom g h)
    (hhi : ArraysFrom h i)
    (hm : Merged h i) :
    ArraysFrom g i := by
  intro id n hSlot hArray
  rcases hhi id n hSlot hArray with ⟨j, k, n', hSlot', hArray', hLeads⟩
  rcases hgh j n' hSlot' hArray' with ⟨j₁, k₁, n₁, hSlot₁, hArray₁, hLeads₁⟩
  rcases hm.leads _ _ _ hLeads₁ with ⟨m, k₂, hEnd, hAll⟩
  rcases hEnd.unique hLeads with ⟨rfl, rfl⟩
  exact ⟨j₁, _, n₁, hSlot₁, hArray₁, hAll⟩

variable {k : Nat}

/-
  Strides only grow, so a stride that is the same at the end was the same
  all the way.
-/
theorem SameStrides.strideAt
    (hgi : SameStrides g i)
    (hgh : Merged g h)
    (hhi : Merged h i)
    {j : NodeId}
    {n₁ : Node}
    (hOld : g.slot j = .live n₁)
    (hOldArray : n₁.isArray = true)
    (hLeads : h.Leads j id k)
    (hSlot : h.slot id = .live n)
    (hArray : n.isArray = true) :
    i.StrideAt id n.size := by
  intro m k' n' hEnd hLive hArray'
  rcases hhi.leads _ _ _ hLeads with ⟨m₂, k₂, hEnd₂, hAll⟩
  rcases hEnd.unique hEnd₂ with ⟨rfl, rfl⟩
  have hSame := hgi j n₁ m _ n' hOld hOldArray hAll hLive hArray'
  have hGrow := (hgh.stands j n₁ id k n hOld hLeads hSlot).stride hOldArray hArray
  have hGrow' := (hhi.stands id n m k' n' hSlot hEnd hLive).stride hArray hArray'
  omega

theorem SameStrides.of_merged
    (hgi : SameStrides g i)
    (hArrays : ArraysFrom g h)
    (hgh : Merged g h)
    (hhi : Merged h i) :
    SameStrides h i := by
  intro id n m k n' hSlot hArray hLeads hLive hArray'
  rcases hArrays id n hSlot hArray with ⟨j, k₁, n₁, hSlot₁, hArray₁, hLeads₁⟩
  exact hgi.strideAt hgh hhi hSlot₁ hArray₁ hLeads₁ hSlot hArray m k n' hLeads hLive hArray'

-- Addresses

/- Two cells lie in one node. -/
def SameNode
    (g : Graph)
    (c d : Cell) : Prop :=
  ∃ m j k, g.Leads c.node m j ∧ g.Leads d.node m k

/- Two cells lie in one node at one raw offset. -/
def SamePlace
    (g : Graph)
    (c d : Cell) : Prop :=
  ∃ m j k, g.Leads c.node m j ∧ g.Leads d.node m k ∧
    c.offset + j = d.offset + k

/- Two cells lie in one place, or in places that mean one. -/
def SameAddress
    (g : Graph)
    (c d : Cell) : Prop :=
  ∃ m n j k, g.Leads c.node m j ∧ g.Leads d.node m k ∧
    g.slot m = .live n ∧
    (c.offset + j = d.offset + k ∨
      c.offset + j < wordBound ∧ d.offset + k < wordBound ∧
        n.effectiveOffset (c.offset + j) =
          n.effectiveOffset (d.offset + k))

variable {c d e : Cell}

theorem SameNode.symm
    (hcd : g.SameNode c d) :
    g.SameNode d c := by
  rcases hcd with ⟨m, j, k, hc, hd⟩
  exact ⟨m, k, j, hd, hc⟩

theorem SameNode.trans
    (hcd : g.SameNode c d)
    (hde : g.SameNode d e) :
    g.SameNode c e := by
  rcases hcd with ⟨m, j, k, hc, hd⟩
  rcases hde with ⟨m', j', k', hd', he⟩
  rcases hd.unique hd' with ⟨rfl, rfl⟩
  exact ⟨m, j, k', hc, he⟩

theorem SamePlace.symm
    (hcd : g.SamePlace c d) :
    g.SamePlace d c := by
  rcases hcd with ⟨m, j, k, hc, hd, hEq⟩
  exact ⟨m, k, j, hd, hc, hEq.symm⟩

theorem SamePlace.sameNode
    (hcd : g.SamePlace c d) :
    g.SameNode c d := by
  rcases hcd with ⟨m, j, k, hc, hd, _⟩
  exact ⟨m, j, k, hc, hd⟩

theorem SamePlace.sameAddress
    (hcd : g.SamePlace c d) :
    g.SameAddress c d := by
  rcases hcd with ⟨m, j, k, hc, hd, hEq⟩
  rcases hc.live_end with ⟨n, hLive⟩
  exact ⟨m, n, j, k, hc, hd, hLive, Or.inl hEq⟩

theorem SameAddress.symm
    (hcd : g.SameAddress c d) :
    g.SameAddress d c := by
  rcases hcd with ⟨m, n, j, k, hc, hd, hLive, hEq⟩
  refine ⟨m, n, k, j, hd, hc, hLive, ?_⟩
  rcases hEq with hEq | ⟨hj, hk, hEq⟩
  · exact Or.inl hEq.symm
  · exact Or.inr ⟨hk, hj, hEq.symm⟩

theorem SameAddress.trans
    (hcd : g.SameAddress c d)
    (hde : g.SameAddress d e) :
    g.SameAddress c e := by
  rcases hcd with ⟨m, n, j, k, hc, hd, hLive, hEq⟩
  rcases hde with ⟨m', n', j', k', hd', he, hLive', hEq'⟩
  rcases hd.unique hd' with ⟨rfl, rfl⟩
  rw [hLive] at hLive'
  cases hLive'
  refine ⟨m, n, j, k', hc, he, hLive, ?_⟩
  rcases hEq with hEq | ⟨hj, hk, hEq⟩
  · rw [hEq]
    exact hEq'
  · rcases hEq' with hEq' | ⟨_, hk', hEq'⟩
    · rw [← hEq']
      exact Or.inr ⟨hj, hk, hEq⟩
    · exact Or.inr ⟨hj, hk', hEq.trans hEq'⟩

/- A cell of the graph has its own address. -/
theorem SamePlace.refl
    {m : NodeId}
    (hc : g.Leads c.node m k) :
    g.SamePlace c c :=
  ⟨m, k, k, hc, hc, rfl⟩

/- A cell and where it was found stay one place. -/
theorem Merged.samePlace
    (hm : Merged g h)
    (hc : g.Leads c.node d.node k)
    (hOffset : d.offset = c.offset + k) :
    h.SamePlace c d := by
  rcases hm.leads _ _ _ hc with ⟨m, k', hEnd, hAll⟩
  refine ⟨m, k + k', k', hAll, hEnd, ?_⟩
  rw [hOffset, Nat.add_assoc]

/-
  Offsets that mean the same in a live node stay one address, if strides do
  not change.
-/
theorem Merged.sameAddress
    (hm : Merged g h)
    (hStrides : SameStrides g h)
    (hSlot : g.slot id = .live n)
    {a b : Nat}
    (ha : a < wordBound)
    (hb : b < wordBound)
    (hEq : n.effectiveOffset a = n.effectiveOffset b) :
    h.SameAddress { node := id, offset := a } { node := id, offset := b } := by
  rcases hm.live hSlot with ⟨q, k, nq, hLeads, hLive, hStands⟩
  refine ⟨q, nq, k, k, hLeads, hLeads, hLive, ?_⟩
  rcases hStands.toLiesIn.effectiveOffset_eq (fun hArray => hStrides _ _ _ _ _ hSlot hArray hLeads
        hLive) hEq with rfl | ⟨rfl, hSame⟩
  · exact Or.inl rfl
  · exact Or.inr ⟨ha, hb, hSame⟩

-- Links

/-
  The node of a cell has a link into the node of a target, and the cell is
  still a word into it. In the exact form it is the link of the field at the
  cell, and it leads to the address of the target.
-/
def Linked
    (E : Prop)
    (g : Graph)
    (c : Cell)
    (type? : Option TypeTag)
    (t : Cell) : Prop :=
  ∃ m n k f u, g.Leads c.node m k ∧ g.slot m = .live n ∧
    c.offset + k < wordBound ∧
    n.links.get? f = some u ∧ g.SameNode u t ∧
    (E →
      f = n.effectiveField
        (Field.make g.config (c.offset + k) type?) ∧
      g.SameAddress u t)

/- The links of one node are links of a graph. -/
def NodeLinked
    (E : Prop)
    (g : Graph)
    (n : Node)
    (c : Cell) : Prop :=
  ∀ f t, n.links.get? f = some t →
    g.Linked E
      { node := c.node, offset := f.offset + c.offset }
      f.type? t

/- All links of a graph are links of a later graph. -/
def LinksHold
    (E : Prop)
    (g h : Graph) : Prop :=
  ∀ id n, g.slot id = .live n →
    NodeLinked E h n (Cell.start id)

variable {E : Prop} {t u : Cell} {type? : Option TypeTag}

/- A link can be told from any cell of the same place. -/
theorem Linked.of_samePlace
    (hLinked : g.Linked E d type? t)
    (hPlace : g.SamePlace c d) :
    g.Linked E c type? t := by
  rcases hLinked with ⟨m, n, k, f, u, hd, hLive, hWord, hGet, hNode, hExact⟩
  rcases hPlace with ⟨m', j, k', hc, hd', hEq⟩
  rcases hd.unique hd' with ⟨rfl, rfl⟩
  rw [← hEq] at hWord hExact
  exact ⟨m, n, j, f, u, hc, hLive, hWord, hGet, hNode, hExact⟩

/- A link can be told of any target of the same address. -/
theorem Linked.of_sameTarget
    (hLinked : g.Linked E c type? t)
    (hNode : g.SameNode t u)
    (hAddress : E → g.SameAddress t u) :
    g.Linked E c type? u := by
  rcases hLinked with ⟨m, n, k, f, v, hc, hLive, hWord, hGet, hNode', hExact⟩
  refine ⟨m, n, k, f, v, hc, hLive, hWord, hGet, hNode'.trans hNode, ?_⟩
  intro hEx
  rcases hExact hEx with ⟨hField, hAddress'⟩
  exact ⟨hField, hAddress'.trans (hAddress hEx)⟩

/-
  A link under the key that a field means in a node is a link of that field,
  in every later graph.
-/
theorem Linked.of_key
    (hm : Merged g h)
    (hStrides : E → SameStrides g h)
    (hSlot : g.slot c.node = .live n)
    (hc : c.offset < wordBound)
    (hLinked :
      let f := n.effectiveField (Field.make g.config c.offset type?)
      h.Linked E { node := c.node, offset := f.offset } f.type? t) :
    h.Linked E c type? t := by
  rcases hLinked with ⟨m, n', k, f, u, hLeads, hLive, hWord, hGet, hNode, hExact⟩
  have hIn := (hm.stands c.node n m k n' hSlot hLeads hLive).toLiesIn
  have hWord' : c.offset + k < wordBound := by
    cases hPlain : n.isPlain with
    | false =>
      rw [hIn.folded hPlain]
      exact hc
    | true => rwa [Node.effectiveField_of_plain hPlain] at hWord
  refine ⟨m, n', k, f, u, hLeads, hLive, hWord', hGet, hNode, ?_⟩
  intro hEx
  rcases hExact hEx with ⟨hField, hAddress⟩
  refine ⟨?_, hAddress⟩
  rw [hField, hm.config]
  exact hIn.effectiveField_shift (fun hArray hArray' => hStrides hEx c.node n m k n' hSlot
      hArray hLeads hLive hArray') c.offset type?

/- A well-formed graph has its own links. -/
theorem WellFormed.linksHold
    (hg : g.WellFormed) :
    LinksHold E g g := by
  intro id n hSlot f t hGet
  rcases hg.leads (hg.link_has id n f t hSlot hGet).occupied with ⟨m, k, ht⟩
  have hPlace := SamePlace.refl (c := t) ht
  have hn := hg.nodes id n hSlot
  refine ⟨id, n, 0, f, t, .live hSlot, hSlot, hn.link_offset_lt hGet, hGet, hPlace.sameNode,
    fun _ => ⟨?_, hPlace.sameAddress⟩⟩
  exact (hn.links f t hGet).effectiveField_eq.symm

end Graph

end HeapShape
