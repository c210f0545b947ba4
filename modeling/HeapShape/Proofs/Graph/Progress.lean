import HeapShape.Proofs.Graph.Snug
import HeapShape.Proofs.Graph.Update
import HeapShape.Proofs.Lookup

/-
  Merging comes to an end.

  Every absorption takes a live node away, and every collapse a node that is
  not collapsed. The weight of a graph counts both, so it bounds the depth
  of merges inside merges. On the way no freed slot is read, so merging in a
  well-formed graph fails by overflow only.

  In a snug graph merging takes no more bytes than the nodes have: one that
  absorbs another grows by no more than that. So no sum leaves the word
  range if all the bytes together are in it. A proposition `F` tells where
  this is not asked for: with `F` true, overflow is a result like others.

  Main declarations:
    * `Graph.weight`
    * `Graph.lightens_unifyWithin`
    * `Graph.Roomy.yields_unify`
    * `Graph.Roomy.yields_setArray`
-/

-- Weight And Extent

namespace HeapShape

open Checked

namespace Slot

/- Whether the slot holds a live node. -/
def isLive : Slot → Bool
| live _ => true
| _ => false

/- Whether it holds one whose offsets are told apart. -/
def isOpen : Slot → Bool
| live n => !n.isCollapsed
| _ => false

/- How much merging the slot still allows. -/
def weight
    (s : Slot) : Nat :=
  s.isLive.toNat + s.isOpen.toNat

theorem weight_live
    (n : Node) :
    (live n).weight = if n.isCollapsed then 1 else 2 := by
  cases hn : n.isCollapsed <;>
    simp [weight, isLive, isOpen, hn]

theorem weight_live_pos
    (n : Node) :
    0 < (live n).weight := by
  rw [weight_live]
  split <;> decide

/- The bytes of a live node, which takes one at least. -/
def extent : Slot → Nat
| live n => max n.size 1
| _ => 0

/- What some slots amount to. -/
def total
    (w : Slot → Nat) :
    List Slot → Nat
| [] => 0
| s :: rest => w s + total w rest

variable {w : Slot → Nat}

theorem total_set
    {ss : List Slot}
    {i : Nat}
    (hLt : i < ss.length)
    (s : Slot) :
    total w (ss.set i s) + w ss[i] = total w ss + w s := by
  induction ss generalizing i with
  | nil => cases hLt
  | cons t rest ih =>
    cases i with
    | zero =>
      simp only [List.set_cons_zero, total, List.getElem_cons_zero]
      omega
    | succ i =>
      have hRest := ih (Nat.lt_of_succ_lt_succ hLt)
      simp only [List.set_cons_succ, total, List.getElem_cons_succ]
      omega

theorem total_append
    (ss : List Slot)
    (s : Slot) :
    total w (ss ++ [s]) = total w ss + w s := by
  induction ss with
  | nil => exact Nat.add_comm _ _
  | cons t rest ih => rw [List.cons_append, total, ih, total, Nat.add_assoc]

theorem total_map_congr
    {slot slot' : Nat → Slot}
    (hSame : ∀ i, w (slot i) = w (slot' i))
    (is : List Nat) :
    total w (is.map slot) = total w (is.map slot') := by
  induction is with
  | nil => rfl
  | cons i rest ih => rw [List.map_cons, total, hSame, ih, List.map_cons, total]

end Slot

namespace Graph

/-
  The number of live nodes, and of those among them that are not collapsed.
-/
def weight
    (g : Graph) : Nat :=
  g.slots.countP Slot.isLive + g.slots.countP Slot.isOpen

/- The bytes of all live nodes. -/
def extent
    (g : Graph) : Nat :=
  Slot.total Slot.extent g.slots.toList

variable {g h : Graph} {id this other : NodeId} {n n' m : Node} {w : Slot → Nat}

theorem weight_le
    (g : Graph) :
    g.weight ≤ 2 * g.slots.size := by
  have hLive : g.slots.countP Slot.isLive ≤ g.slots.size := Array.countP_le_size
  have hOpen : g.slots.countP Slot.isOpen ≤ g.slots.size := Array.countP_le_size
  unfold weight
  omega

theorem weight_eq_total
    (g : Graph) :
    g.weight = Slot.total Slot.weight g.slots.toList := by
  unfold weight
  rw [← Array.countP_toList, ← Array.countP_toList]
  induction g.slots.toList with
  | nil => rfl
  | cons s rest ih =>
    rw [List.countP_cons, List.countP_cons, Slot.total, ← ih, Slot.weight]
    cases s.isLive <;> cases s.isOpen <;>
      simp only [if_true, if_false, Bool.false_eq_true, Bool.toNat_true, Bool.toNat_false] <;>
      omega

/- A change of a slot changes the total by its own. -/
theorem total_setSlot
    (hLt : id < g.slots.size)
    (s : Slot) :
    Slot.total w (g.setSlot id s).slots.toList + w (g.slot id) =
      Slot.total w g.slots.toList + w s := by
  have hOld : g.slot id = g.slots.toList[id] := by
    simp [slot, hLt]
  rw [hOld, setSlot, Array.toList_setIfInBounds]
  exact Slot.total_set hLt s

theorem weight_setSlot
    (hLt : id < g.slots.size)
    (s : Slot) :
    (g.setSlot id s).weight + (g.slot id).weight = g.weight + s.weight := by
  rw [weight_eq_total, weight_eq_total]
  exact total_setSlot hLt s

theorem weight_setLive
    (hSlot : g.slot id = .live n)
    (hSame : n'.isCollapsed = n.isCollapsed) :
    (g.setSlot id (.live n')).weight = g.weight := by
  have hWeight := weight_setSlot (lt_size_of_live hSlot) (.live n')
  rw [hSlot, Slot.weight_live, Slot.weight_live, hSame] at hWeight
  omega

theorem extent_setLive
    (hSlot : g.slot id = .live n)
    (n' : Node) :
    (g.setSlot id (.live n')).extent + max n.size 1 = g.extent + max n'.size 1 := by
  have hExtent := total_setSlot (w := Slot.extent) (lt_size_of_live hSlot) (.live n')
  rw [hSlot] at hExtent
  exact hExtent

/- The bytes of a node are among those of the graph. -/
theorem extent_setSlot_free
    (hSlot : g.slot id = .live n) :
    (g.setSlot id .free).extent + max n.size 1 = g.extent := by
  have hExtent := total_setSlot (w := Slot.extent) (lt_size_of_live hSlot) .free
  rw [hSlot] at hExtent
  exact hExtent

theorem extent_add_le
    (hThis : g.slot this = .live n)
    (hOther : g.slot other = .live m)
    (hne : this ≠ other) :
    max n.size 1 + max m.size 1 ≤ g.extent := by
  have hFirst := extent_setSlot_free hThis
  have hSecond := extent_setSlot_free ((slot_setSlot_of_ne hThis .free hne.symm).trans hOther)
  omega

theorem toList_slots
    (g : Graph) :
    g.slots.toList = (List.range g.slots.size).map g.slot := by
  apply List.ext_getElem
  · simp
  · intro i hi _
    have hLt : i < g.slots.size := by simpa using hi
    simp [slot, hLt]

/- Only what forwards amount to could change. -/
theorem Shortened.total_eq
    (hs : Shortened g h)
    (hw : ∀ c d, w (.forward c) = w (.forward d)) :
    Slot.total w h.slots.toList = Slot.total w g.slots.toList := by
  rw [toList_slots, toList_slots, hs.size]
  refine Slot.total_map_congr (fun id => ?_) _
  rcases hs.slot id with hSame | ⟨_, _, _, hOld, _, _, hNew⟩
  · rw [hSame]
  · rw [hOld, hNew]
    exact hw _ _

theorem Shortened.weight_eq
    (hs : Shortened g h) :
    h.weight = g.weight := by
  rw [weight_eq_total, weight_eq_total]
  exact hs.total_eq fun _ _ => rfl

theorem Shortened.extent_eq
    (hs : Shortened g h) :
    h.extent = g.extent :=
  hs.total_eq fun _ _ => rfl

/- A fresh node adds its own. -/
theorem WellFormed.total_createNode
    (hg : g.WellFormed)
    (hw : w .free = 0)
    (flags : Flags)
    (size : Nat) :
    Slot.total w (g.createNode flags size).2.slots.toList =
      Slot.total w g.slots.toList + w (.live (freshNode flags size)) := by
  unfold Graph.createNode
  dsimp only
  split
  · next id rest hFree =>
    have hMem : id ∈ g.free := by
      rw [hFree]
      exact List.mem_cons_self
    rcases (hg.mem_free id).mp hMem with ⟨hLt, hSlot⟩
    have hTotal := total_setSlot (w := w) hLt (.live (freshNode flags size))
    rw [hSlot, hw] at hTotal
    exact hTotal
  · rw [Array.toList_push]
    exact Slot.total_append _ _

theorem WellFormed.weight_createNode
    (hg : g.WellFormed)
    (flags : Flags)
    (size : Nat) :
    (g.createNode flags size).2.weight =
      g.weight + (Slot.live (freshNode flags size)).weight := by
  rw [weight_eq_total, weight_eq_total]
  exact hg.total_createNode rfl flags size

theorem WellFormed.extent_createNode
    (hg : g.WellFormed)
    (flags : Flags)
    (size : Nat) :
    (g.createNode flags size).2.extent = g.extent + max size 1 :=
  hg.total_createNode rfl flags size

-- Steps That Add No Weight

/- A cell of the graph, inside its node unless `F`. -/
structure Owns
    (F : Prop)
    (g : Graph)
    (c : Cell) : Prop extends g.Has c where
  inside : ¬ F → g.Inside c

/-
  A well-formed graph. Unless `F`, it is snug and has so many bytes to
  spare.
-/
structure Roomy
    (F : Prop)
    (spare : Nat)
    (g : Graph) : Prop where
  wellFormed : g.WellFormed
  snug : ¬ F → g.Snug
  extent : ¬ F → g.extent + spare < wordBound

/-
  A graph of no more weight than said. Unless `F`, it is snug and has no
  more bytes than said.
-/
structure Slims
    (F : Prop)
    (most bytes : Nat)
    (h : Graph) : Prop where
  weight : h.weight ≤ most
  snug : ¬ F → h.Snug
  extent : ¬ F → h.extent ≤ bytes

/- A step of merging to such a graph. -/
structure Shrinks
    (F : Prop)
    (bytes : Nat)
    (g h : Graph) : Prop extends
      Slims F g.weight bytes h where
  wellFormed : h.WellFormed
  merged : Merged g h

variable {F : Prop} {i : Graph} {c : Cell} {spare bytes : Nat}

/- Without a bound on bytes nothing more is asked for. -/
theorem WellFormed.roomy
    (hg : g.WellFormed) :
    g.Roomy True spare where
  wellFormed := hg
  snug := fun hNot => absurd trivial hNot
  extent := fun hNot => absurd trivial hNot

theorem Has.owns
    (hc : g.Has c) :
    g.Owns True c where
  toHas := hc
  inside := fun hNot => absurd trivial hNot

theorem Owns.merged
    (hc : g.Owns F c)
    (hg : g.WellFormed)
    (hm : Merged g h) :
    h.Owns F c where
  toHas := hm.has hg hc.toHas
  inside := fun hF => (hc.inside hF).merged hm

theorem has_start
    (hNode : g.hasNode id = true) :
    g.Has (Cell.start id) where
  occupied := hNode
  word := by
    change 0 < wordBound
    decide

theorem WellFormed.owns_start
    (hg : g.WellFormed)
    (hNode : g.hasNode id = true) :
    g.Owns F (Cell.start id) where
  toHas := has_start hNode
  inside := fun _ => hg.inside_start hNode

theorem Shrinks.refl
    (hg : g.Roomy F spare) :
    Shrinks F g.extent g g where
  wellFormed := hg.wellFormed
  merged := .refl hg.wellFormed
  weight := Nat.le_refl _
  snug := hg.snug
  extent := fun _ => Nat.le_refl _

theorem Shrinks.trans
    (hgh : Shrinks F g.extent g h)
    (hhi : Shrinks F h.extent h i) :
    Shrinks F g.extent g i where
  wellFormed := hhi.wellFormed
  merged := hgh.merged.trans hhi.wellFormed hhi.merged
  weight := Nat.le_trans hhi.weight hgh.weight
  snug := hhi.snug
  extent := fun hF =>
    Nat.le_trans (hhi.extent hF) (hgh.extent hF)

theorem Shrinks.roomy
    (hgh : Shrinks F g.extent g h)
    (hg : g.Roomy F spare) :
    h.Roomy F spare where
  wellFormed := hgh.wellFormed
  snug := hgh.snug
  extent := fun hF => by
    have hOld := hg.extent hF
    have hNew := hgh.extent hF
    omega

theorem Roomy.shortened
    (hg : g.Roomy F spare)
    (hs : Shortened g h) :
    Shrinks F g.extent g h where
  wellFormed := hg.wellFormed.shortened hs
  merged := (Sound.shortened (E := False) hg.wellFormed hs).merged
  weight := Nat.le_of_eq hs.weight_eq
  snug := fun hF => (hg.snug hF).shortened hg.wellFormed hs
  extent := fun _ => Nat.le_of_eq hs.extent_eq

/- Look-up of a cell of the graph finds a live node. -/
theorem WellFormed.yields_find
    (hg : g.WellFormed)
    (hc : g.Owns F c) :
    YieldsUnless F (g.find c) fun found =>
      Shortened g found.2 ∧ found.1.offset < wordBound ∧
        ∃ n, found.2.slot found.1.node = .live n ∧
          ∀ len, g.Spans c len → n.isPlain = true → found.1.offset + len ≤ n.size := by
  rcases hg.leads hc.occupied with ⟨m, k, hLeads⟩
  rcases hLeads.live_end with ⟨n, hLive⟩
  have hFind := find_of_leads hLeads c.offset
  by_cases hWord : c.offset + k < wordBound
  · rcases hFind.1 hWord with ⟨g', hOk, hs⟩
    refine Or.inr ⟨_, hOk, hs, hWord, n, hs.live_iff.mpr hLive, ?_⟩
    rintro len ⟨m', n', k', hLeads', hLive', _, hEnd⟩
    rcases hLeads.unique hLeads' with ⟨rfl, rfl⟩
    rw [hLive] at hLive'
    cases hLive'
    exact hEnd
  · refine Or.inl ⟨?_, hFind.2 (Nat.le_of_not_lt hWord)⟩
    by_contra hF
    rcases hc.inside hF with ⟨m', n', k', hLeads', _, hIn, _⟩
    rcases hLeads.unique hLeads' with ⟨rfl, rfl⟩
    exact hWord hIn

theorem WellFormed.yields_findNode
    (hg : g.WellFormed)
    (hNode : g.hasNode id = true) :
    YieldsUnless F (g.findNode id) fun found =>
      Shortened g found.2 ∧ ∃ n, found.2.slot found.1 = .live n := by
  unfold findNode
  refine (hg.yields_find (hg.owns_start hNode)).bind ?_
  rintro ⟨d, g₁⟩ ⟨hs, _, n, hLive, _⟩
  exact .ok ⟨hs, n, hLive⟩

/- The offset of a type that is added is that of the cell. -/
theorem Node.types_withTypes
    {raw o : Nat}
    {types ts : TypeSet}
    (hPlain : (n.withTypes raw types).isPlain = true)
    (hGet : (n.withTypes raw types).types.get? o = some ts) :
    n.isPlain = true ∧ (o = raw ∨ ∃ ts', n.types.get? o = some ts') := by
  have hOld : n.isPlain = true := by
    rw [Node.isPlain_iff] at hPlain ⊢
    unfold Node.isCollapsed Node.isArray at hPlain ⊢
    rwa [n.has_withTypes _ _ (by decide), n.has_withTypes _ _ (by decide)] at hPlain
  refine ⟨hOld, ?_⟩
  unfold Node.withTypes at hGet
  rw [(Node.isPlain_iff.mp hOld).1, Bool.false_and, if_neg Bool.false_ne_true] at hGet
  dsimp only at hGet
  rw [OrdMap.get?_insert, Node.effectiveOffset_of_plain hOld] at hGet
  split at hGet
  · next hEq => exact Or.inl hEq
  · exact Or.inr ⟨ts, hGet⟩

theorem Roomy.yields_addTypes
    (hg : g.Roomy F spare)
    (hc : g.Owns F c)
    (types : TypeSet) :
    YieldsUnless F (g.addTypes c types) (Shrinks F g.extent g) := by
  have hRun : YieldsUnless F (g.addTypes c types)
      fun h => h.weight = g.weight ∧ h.extent = g.extent ∧ (¬ F → h.TypesFit) := by
    unfold addTypes
    split
    · exact .ok ⟨rfl, rfl, fun hF => (hg.snug hF).types⟩
    · refine (hg.wellFormed.yields_find hc).bind ?_
      rintro ⟨d, g₁⟩ ⟨hs, _, n, hLive, hEnd⟩
      dsimp only at hs hLive hEnd ⊢
      rw [contents_of_live hLive, ok_bind, setContents_of_live hLive]
      refine .ok ?_
      have hFrame := n.withTypes_frame d.offset types
      have hExtent := extent_setLive hLive (n.withTypes d.offset types)
      rw [hFrame.1] at hExtent
      rw [weight_setLive hLive, ← hs.weight_eq, ← hs.extent_eq]
      · refine ⟨rfl, by omega, fun hF => ?_⟩
        have hFit := (hg.snug hF).types.shortened hs
        refine hFit.setLive hLive fun o ts hGet hPlain => ?_
        rw [hFrame.1]
        rcases Node.types_withTypes hPlain hGet with ⟨hOld, rfl | ⟨ts', hGet'⟩⟩
        · exact hEnd 0 (hc.inside hF) hOld
        · exact hFit _ _ _ _ hLive hGet' hOld
      · exact n.has_withTypes _ _ (by decide)
  refine hRun.imp_eq fun h hOk hh => ?_
  have hSound := Sound.addTypes (E := False) hg.wellFormed hOk
  have hFused := Fused.addTypes (T := fun _ => False) hg.wellFormed.freeListed hOk
  exact ⟨⟨Nat.le_of_eq hh.1, fun hF => (hg.snug hF).of_derived
      hSound.merged hFused.toDerived (hh.2.2 hF),
    fun _ => Nat.le_of_eq hh.2.1⟩, hSound.wellFormed,
    hSound.merged⟩

theorem Roomy.yields_replayTypes
    (hg : g.Roomy F spare)
    (hNode : g.hasNode id = true)
    {offset : Nat}
    {types : OrdMap Nat TypeSet}
    (hSpots : ∀ o ts, types.get? o = some ts → ¬ F →
      g.Inside { node := id, offset := o + offset }) :
    YieldsUnless F (g.replayTypes id offset types) (Shrinks F g.extent g) := by
  unfold replayTypes
  refine Checked.yieldsUnless_foldlM (.refl hg) ?_
  rintro h ⟨o, ts⟩ hMem hgh
  have hSpot := hSpots o ts ((types.get?_eq_some_iff o ts).mpr hMem)
  refine (yieldsUnless_addWord fun hF => (hSpot hF).word).bind ?_
  rintro spot ⟨rfl, hWord⟩
  refine ((hgh.roomy hg).yields_addTypes ⟨⟨hgh.merged.hasNode hg.wellFormed hNode, hWord⟩,
      fun hF => (hSpot hF).merged hgh.merged⟩ ts).imp ?_
  exact fun _ => hgh.trans

end Graph

-- The Parts Of Merging

/-
  What a node has lies inside the node that it lies in, so far as it lies
  inside its own.
-/
theorem Node.LiesIn.spot
    {m n : Node}
    {k o len : Nat}
    (hIn : m.LiesIn n k)
    (hPlain : m.isPlain = true → o + len ≤ m.size)
    (hFolded : m.isPlain = false → o < wordBound) :
    o + k < wordBound ∧ (n.isPlain = true → o + k + len ≤ n.size) := by
  have hWord := hIn.word
  cases hm : m.isPlain with
  | true =>
    have hEnd := hPlain hm
    refine ⟨by omega, fun hn => ?_⟩
    have hRoom := hIn.inside hm hn
    omega
  | false =>
    rw [hIn.folded hm]
    refine ⟨hFolded hm, fun hn => ?_⟩
    rw [hIn.not_plain hm] at hn
    cases hn

namespace Graph

/-
  A merge that adds no weight and fails by overflow only, on graphs below
  some weight.
-/
structure Lightens
    (bound : Nat)
    (merge : Merge) : Prop where
  unites : Unites merge
  derives : Derives merge
  yields : ∀ F g a b, g.Roomy F 0 → g.Owns F a →
    g.Owns F b → g.weight < bound →
      YieldsUnless F (merge g a b)
        (Slims F g.weight g.extent)

variable {F : Prop} {bound spare : Nat} {merge : Merge} {g h : Graph} {a b c t : Cell}
variable {type? : Option TypeTag} {this other id : NodeId} {n m : Node} {offset : Nat}

theorem Lightens.shrinks
    (hMerge : Lightens bound merge)
    (hg : g.Roomy F 0)
    (ha : g.Owns F a)
    (hb : g.Owns F b)
    (hBound : g.weight < bound) :
    YieldsUnless F (merge g a b) (Shrinks F g.extent g) := by
  refine (hMerge.yields F g a b hg ha hb hBound).imp_eq ?_
  intro h hRun hh
  have hSound := hMerge.unites False g a b h hg.wellFormed hRun
  exact ⟨hh, hSound.wellFormed, hSound.merged⟩

/-
  A link takes no bytes if there are enough after its cell, and those of a
  pointer at most.
-/
theorem Lightens.yields_addLinkBy
    (hMerge : Lightens bound merge)
    (hg : g.Roomy F spare)
    (hc : g.Owns F c)
    (ht : g.Owns F t)
    (hEnd : (¬ F → g.Spans c g.config.pointerSize) ∨ g.config.pointerSize ≤ spare)
    (hBound : g.weight < bound) :
    YieldsUnless F (addLinkBy merge g c type? t) (Shrinks F (g.extent + spare) g) := by
  have hRun : YieldsUnless F (addLinkBy merge g c type? t) fun h =>
        h.weight ≤ g.weight ∧ (¬ F → h.TypesFit ∧ h.extent ≤ g.extent + spare) := by
    unfold addLinkBy
    refine (hg.wellFormed.yields_find hc).bind ?_
    rintro ⟨d, g₁⟩ ⟨hs, _, n, hLive, hAt⟩
    dsimp only at hs hLive hAt ⊢
    have hStep := hg.shortened hs
    have hg₁ := hStep.roomy hg
    have ht₁ := ht.merged hg.wellFormed hStep.merged
    rw [contents_of_live hLive, ok_bind]
    split
    · next existing hGet =>
      rw [← hs.weight_eq] at hBound ⊢
      rw [← hs.extent_eq]
      have hOld : g₁.Owns F existing :=
        ⟨hg₁.wellFormed.link_has _ _ _ _ hLive hGet,
          fun hF => (hg₁.snug hF).targets _ ⟨_, _, _, hLive, hGet⟩⟩
      refine (hMerge.yields F g₁ existing t ⟨hg₁.wellFormed, hg₁.snug, fun hF =>
          Nat.lt_of_le_of_lt (Nat.le_add_right _ _) (hg₁.extent hF)⟩ hOld ht₁ hBound).imp ?_
      intro h hh
      exact ⟨hh.weight, fun hF => ⟨(hh.snug hF).types, Nat.le_add_right_of_le (hh.extent hF)⟩⟩
    · refine (hg₁.wellFormed.yields_find ht₁).bind ?_
      rintro ⟨u, g₂⟩ ⟨hs₂, _, _⟩
      dsimp only at hs₂ ⊢
      have hLive₂ := hs₂.live_iff.mpr hLive
      have hExtent : g₂.extent = g.extent := hs₂.extent_eq.trans hs.extent_eq
      -- The bytes of the node, if it has to reach so far.
      have hGrow : ∀ n' : Node, n'.flags = n.flags → n'.types = n.types → n.size ≤ n'.size →
          (¬ F → n'.size ≤ n.size + spare) →
          YieldsUnless F (g₂.setContents d.node n') fun h => h.weight ≤ g.weight ∧
            (¬ F → h.TypesFit ∧ h.extent ≤ g.extent + spare) := by
        intro n' hFlags hTypes hLe hLe'
        rw [setContents_of_live hLive₂, ← hs.weight_eq, ← hs₂.weight_eq]
        refine .ok ⟨Nat.le_of_eq (weight_setLive hLive₂ (by rw [Node.isCollapsed, hFlags]; rfl)),
          fun hF => ⟨?_, ?_⟩⟩
        · have hFit := ((hg.snug hF).types.shortened hs).shortened hs₂
          refine hFit.setLive_of_same hLive₂ hTypes ?_ hLe
          unfold Node.isPlain Node.isCollapsed Node.isArray
          rw [hFlags]
        · have hBytes := extent_setLive hLive₂ n'
          have hMore := hLe' hF
          omega
      rw [contents_of_live hLive₂]
      change YieldsUnless F (if n.isPlain = true
        then _ else _) _
      split
      · next hPlain =>
        rw [Node.effectiveField_of_plain hPlain, hs₂.config, hs.config]
        have hReach : ¬ F → d.offset + g.config.pointerSize ≤ n.size + spare := by
          intro hF
          rcases hEnd with hSpan | hSpare
          · exact Nat.le_add_right_of_le (hAt _ (hSpan hF) hPlain)
          · have hHere := hAt 0 (hc.inside hF) hPlain
            omega
        have hNode := extent_setSlot_free hLive₂
        refine (yieldsUnless_addWord fun hF => ?_).bind ?_
        · have hAll := hg.extent hF
          have hSum := hReach hF
          change d.offset + _ < _
          omega
        · rintro reach ⟨rfl, _⟩
          exact hGrow _ rfl rfl (Nat.le_max_left _ _)
            fun hF => Nat.max_le.mpr ⟨Nat.le_add_right _ _, hReach hF⟩
      · exact hGrow _ rfl rfl (Nat.le_refl _) fun _ => Nat.le_add_right _ _
  refine hRun.imp_eq fun h hOk hh => ?_
  have hSound := Sound.addLinkBy (E := False) hMerge.unites hg.wellFormed hOk
  have hFused := Fused.addLinkBy (T := fun u => u = t)
    hMerge.derives hg.wellFormed.freeListed rfl hOk
  refine ⟨⟨hh.1, fun hF => ?_, fun hF => (hh.2 hF).2⟩, hSound.wellFormed, hSound.merged⟩
  refine ⟨(hg.snug hF).toTight.of_rewired hSound.merged hFused.toRewired ?_, (hh.2 hF).1⟩
  rintro u rfl
  exact (ht.inside hF).merged hSound.merged

theorem Lightens.yields_replayLinks
    (hMerge : Lightens bound merge)
    (hg : g.Roomy F 0)
    (hNode : g.hasNode id = true)
    {links : OrdMap Field Cell}
    (hLinks : ∀ f t, links.get? f = some t → g.Owns F t ∧
      (¬ F → g.Spans { node := id, offset := f.offset + offset } g.config.pointerSize))
    (hBound : g.weight < bound) :
    YieldsUnless F (replayLinks merge g id offset links) (Shrinks F g.extent g) := by
  unfold replayLinks
  refine Checked.yieldsUnless_foldlM (.refl hg) ?_
  rintro h ⟨f, t⟩ hMem hgh
  rcases hLinks f t ((links.get?_eq_some_iff f t).mpr hMem) with ⟨ht, hSpot⟩
  refine (yieldsUnless_addWord fun hF => (hSpot hF).inside.word).bind ?_
  rintro spot ⟨rfl, hWord⟩
  refine (hMerge.yields_addLinkBy (hgh.roomy hg) ⟨⟨hgh.merged.hasNode hg.wellFormed hNode, hWord⟩,
      fun hF => (hSpot hF).inside.merged hgh.merged⟩
    (ht.merged hg.wellFormed hgh.merged)
    (Or.inl fun hF => ?_)
    (Nat.lt_of_le_of_lt hgh.weight hBound)).imp ?_
  · rw [hgh.merged.config]
    exact (hSpot hF).merged hgh.merged
  · exact fun _ => hgh.trans

/- A node that lies in another gives it types and links. -/
theorem Lightens.yields_replay
    (hMerge : Lightens bound merge)
    (hg : g.Roomy F 0)
    (hSlot : g.slot id = .live n)
    (hm : m.WellFormed g.config)
    (hIn : m.LiesIn n offset)
    (hTypes : ∀ o ts, ¬ F → m.types.get? o = some ts → m.isPlain = true → o ≤ m.size)
    (hLinks : ∀ f t, m.links.get? f = some t → g.Owns F t)
    (hBound : g.weight < bound) :
    YieldsUnless F (do
      let g ← g.replayTypes id offset m.types
      replayLinks merge g id offset m.links) (Shrinks F g.extent g) := by
  have hNode := hasNode_of_live hSlot
  have hSpot : ∀ o len, (m.isPlain = true → o + len ≤ m.size) →
      (m.isPlain = false → o < wordBound) → g.Spans { node := id, offset := o + offset } len := by
    intro o len hPlain hFolded
    rcases hIn.spot hPlain hFolded with ⟨hWord, hEnd⟩
    exact ⟨id, n, 0, .live hSlot, hSlot, hWord, hEnd⟩
  -- Offsets in a node without an end are folded or none.
  have hFold : ∀ o, (m.isCollapsed = true → o = 0) → (m.isArray = true → o < m.size) →
      m.isPlain = false → o < wordBound := by
    intro o hCollapsed hArray hPlain
    have hLt := hm.size_lt
    rcases Node.isPlain_eq_false_iff.mp hPlain with hC | hA
    · rw [hCollapsed hC]
      decide
    · exact Nat.lt_trans (hArray hA) hLt
  refine (hg.yields_replayTypes hNode fun o ts hGet hF =>
    ?_).bind ?_
  · have hKey := hm.types o ts hGet
    exact (hSpot o 0 (hTypes o ts hF hGet) (hFold o hKey.collapsed hKey.array)).inside
  · intro g₁ hTyped
    refine (hMerge.yields_replayLinks (hTyped.roomy hg) (hTyped.merged.hasNode hg.wellFormed hNode)
      (fun f t hGet => ?_)
      (Nat.lt_of_le_of_lt hTyped.weight hBound)).imp ?_
    · have hKey := hm.links f t hGet
      refine ⟨(hLinks f t hGet).merged hg.wellFormed hTyped.merged, fun _ => ?_⟩
      rw [hTyped.merged.config]
      refine (hSpot f.offset _ hKey.plain (hFold _ ?_ hKey.array)).merged hTyped.merged
      intro hC
      rw [hKey.collapsed hC]
      rfl
    · exact fun _ => hTyped.trans

/-
  Absorbing a node takes its weight and its bytes away before any link is
  merged.
-/
theorem Lightens.yields_absorb
    (hMerge : Lightens bound merge)
    (hg : g.WellFormed)
    (hSnug : ¬ F → g.Snug)
    (hThis : g.slot this = .live n)
    (hOther : g.slot other = .live m)
    (hne : this ≠ other)
    (hIn : m.LiesIn n offset)
    (hExtent : ¬ F → g.extent < wordBound + max m.size 1)
    (hBound : g.weight < bound + (Slot.live m).weight) :
    YieldsUnless F (absorb merge g this other offset)
      fun h => h.weight + (Slot.live m).weight ≤ g.weight ∧ (¬ F → h.Snug ∧
          h.extent + max m.size 1 ≤ g.extent) := by
  have hTaken := Sound.takenOver (E := False) hg hThis hOther hne hIn
  have hn := hg.nodes _ _ hThis
  have hOther' := slot_setSlot_of_ne hThis (.live (takeOver n m offset)) hne.symm
  rw [hOther] at hOther'
  have hWeight := weight_setSlot (lt_size_of_live hOther')
    (.forward { node := this, offset := offset })
  rw [hOther', weight_setLive hThis (takeOver_kind hIn hn.collapsed_not_array).1] at hWeight
  have hBytes := total_setSlot (w := Slot.extent) (lt_size_of_live hOther')
    (.forward { node := this, offset := offset })
  have hSame := extent_setLive hThis (takeOver n m offset)
  rw [hOther'] at hBytes
  change (g.takenOver this other n m offset).weight + _ = g.weight + 0 at hWeight
  change (g.takenOver this other n m offset).extent + max m.size 1 = Graph.extent _ at hBytes
  change _ + max n.size 1 = _ + max n.size 1 at hSame
  have hRoom : (g.takenOver this other n m offset).Roomy F 0 :=
    ⟨hTaken.wellFormed, fun hF => (hSnug hF).takenOver hg hThis hOther hne hIn, fun hF => by
        have hAll := hExtent hF
        omega⟩
  have hSlot := slot_takenOver (k := offset) hThis hOther this
  rw [if_neg hne, if_pos rfl] at hSlot
  rw [absorb_eq hThis hOther hne]
  refine (hMerge.yields_replay hRoom hSlot (hTaken.merged.config ▸ hg.nodes _ _ hOther)
    (standsFor_takeOver_moved hn hIn).toLiesIn
    (fun o ts hF => (hSnug hF).types _ _ o ts hOther)
    (fun f t hGet => ?_) (by omega)).imp ?_
  · refine Owns.merged ⟨hg.link_has _ _ f t hOther hGet, fun hF => ?_⟩ hg hTaken.merged
    exact (hSnug hF).targets t ⟨_, _, f, hOther, hGet⟩
  · intro h hh
    have hw := hh.weight
    refine ⟨by omega, fun hF => ⟨hh.snug hF, ?_⟩⟩
    have hLess := hh.extent hF
    omega

/- A node that is emptied gets its types and links back. -/
theorem Lightens.yields_rebuild
    (hMerge : Lightens bound merge)
    (hg : g.Roomy F spare)
    (hSlot : g.slot id = .live n)
    {bare : Node}
    {Q : Graph → Prop}
    (hReset : Sound False g (g.setSlot id (.live bare)) Q)
    (hTypes : bare.types = OrdMap.empty)
    (hLinks : bare.links = OrdMap.empty)
    (hSites : bare.allocSites = n.allocSites)
    (hExtent : ¬ F → (g.setSlot id (.live bare)).extent < wordBound)
    (hBound : (g.setSlot id (.live bare)).weight < bound) :
    YieldsUnless F (do
      let g ← (g.setSlot id (.live bare)).replayTypes id 0 n.types
      replayLinks merge g id 0 n.links) (Shrinks F (g.setSlot id (.live bare)).extent
          (g.setSlot id (.live bare))) := by
  have hSlot' := slot_setSlot_self hSlot (.live bare)
  have hEmpty : Derived g (g.setSlot id (.live bare)) fun _ => False := by
    refine .setLive hg.wellFormed.freeListed hSlot hSites ?_
    intro f u hGet
    rw [hLinks] at hGet
    cases hGet
  have hRoom : (g.setSlot id (.live bare)).Roomy F 0 := by
    refine ⟨hReset.wellFormed, fun hF => ?_, hExtent⟩
    refine (hg.snug hF).of_derived hReset.merged hEmpty ((hg.snug hF).types.setLive hSlot ?_)
    intro o ts hGet
    rw [hTypes] at hGet
    cases hGet
  refine hMerge.yields_replay hRoom hSlot' (hg.wellFormed.nodes _ _ hSlot)
    (hReset.merged.stands _ _ _ _ _ hSlot (.live hSlot') hSlot').toLiesIn
    (fun o ts hF => (hg.snug hF).types _ _ o ts hSlot)
    (fun f t hGet => ?_) hBound
  refine Owns.merged ⟨hg.wellFormed.link_has _ _ f t hSlot
    hGet, fun hF => ?_⟩ hg.wellFormed hReset.merged
  exact (hg.snug hF).targets t ⟨_, _, f, hSlot, hGet⟩

/- A collapse that is not idle takes weight away first. -/
theorem Lightens.yields_collapseBy
    (hMerge : Lightens bound merge)
    (hg : g.Roomy F 0)
    {k : Nat}
    (hLeads : g.Leads id this k)
    (hSlot : g.slot this = .live n)
    (hBound : g.weight ≤ bound) :
    YieldsUnless F (collapseBy merge g id) fun found =>
      found.2.weight + (if n.isCollapsed then 0 else 1) ≤
        g.weight ∧ Slims F g.weight g.extent found.2 := by
  unfold collapseBy
  refine (hg.wellFormed.yields_findNode hLeads.hasNode).and_eq.bind ?_
  rintro ⟨r, g₁⟩ ⟨⟨hs, _⟩, hFind⟩
  dsimp only at hs ⊢
  rcases findNode_eq_ok hFind with ⟨_, hEnd, _⟩
  rcases hLeads.unique hEnd with ⟨rfl, rfl⟩
  have hLive := hs.live_iff.mpr hSlot
  have hRoom := (hg.shortened hs).roomy hg
  have hg₁ := hRoom.wellFormed
  rw [← hs.weight_eq] at hBound ⊢
  rw [← hs.extent_eq]
  -- The node is looked up again after its collapse.
  have hAgain : ∀ g₂, g₂.WellFormed → Merged g₁ g₂ → g₂.weight + 1 ≤ g₁.weight → (¬ F → g₂.Snug) →
      (¬ F → g₂.extent ≤ g₁.extent) →
      YieldsUnless F (g₂.findNode this) fun found =>
        found.2.weight + 1 ≤ g₁.weight ∧ Slims F g₁.weight g₁.extent found.2 := by
    intro g₂ hg₂ hm hw hSnug hExtent
    refine (hg₂.yields_findNode (hm.hasNode hg₁ (hasNode_of_live hLive))).imp ?_
    rintro ⟨r', g₃⟩ ⟨hs', _⟩
    rw [← hs'.weight_eq] at hw
    refine ⟨hw, Nat.le_of_succ_le hw, fun hF => (hSnug hF).shortened hg₂ hs', fun hF => ?_⟩
    exact hs'.extent_eq ▸ hExtent hF
  rw [contents_of_live hLive]
  change YieldsUnless F (if n.isCollapsed = true
    then _ else _) _
  split
  · exact .ok ⟨Nat.le_refl _, (Shrinks.refl hRoom).toSlims⟩
  · next hOpen =>
    split
    · next hSmall =>
      have hReset := Sound.resetCollapsed (E := False) hg₁ hLive
      have hWeight := weight_setSlot (lt_size_of_live hLive) (.live (collapsedNode n))
      rw [hLive, Slot.weight_live, Slot.weight_live,
        if_neg hOpen, if_pos (isCollapsed_collapsedNode n)]
        at hWeight
      have hBytes := extent_setLive hLive (collapsedNode n)
      change _ + max n.size 1 = _ + max 1 1 at hBytes
      rw [setContents_of_live hLive, ok_bind, ← bind_assoc]
      refine (hMerge.yields_rebuild hRoom hLive hReset rfl rfl
        rfl (fun hF => ?_) (by omega)).bind ?_
      · have hAll := hRoom.extent hF
        omega
      intro g₂ hh
      have hw := hh.weight
      refine hAgain g₂ hh.wellFormed (hReset.merged.trans
        hh.wellFormed hh.merged) (by omega) hh.snug
        fun hF => ?_
      have hLess := hh.extent hF
      omega
    · have hFresh := hg₁.slot_createNode (Flags.only .offsetCollapsed) 1
      have hMade := Sound.createNode (E := False) hg₁ (Flags.only .offsetCollapsed) 1
        (Node.wellFormed_of_bare (by decide) (fun _ => by decide) (fun _ => rfl)
          (fun _ => by decide) rfl rfl)
        (fun _ => by decide)
      rcases hg₁.freeListed.standIn hLive with ⟨hne, hThis, hOther⟩
      have hMadeWeight := hg₁.weight_createNode (Flags.only .offsetCollapsed) 1
      rw [Slot.weight_live, if_pos (by decide)] at hMadeWeight
      have hMadeBytes := hg₁.extent_createNode (Flags.only .offsetCollapsed) 1
      have hIn : n.LiesIn (freshNode (Flags.only .offsetCollapsed) 1) 0 :=
        .of_collapsed (by decide) (by decide) (hg₁.nodes _ _ hLive).size_lt
      have hTwo : (Slot.live n).weight = 2 := by
        rw [Slot.weight_live, if_neg hOpen]
      refine (hMerge.yields_absorb hMade.wellFormed (fun hF => (hRoom.snug hF).createNode hg₁ _ _
          hMade.merged) hThis hOther hne hIn (fun hF => ?_)
        ?_).and_eq.bind ?_
      · have hAll := hRoom.extent hF
        change Graph.extent _ = _ at hMadeBytes
        omega
      · omega
      · rintro g₂ ⟨⟨hw, hh⟩, hAbsorb⟩
        have hStep := Sound.absorb (E := False) hMerge.unites
          hMade.wellFormed hThis hOther hne hIn hAbsorb
        refine hAgain g₂ hStep.wellFormed (hMade.merged.trans hStep.wellFormed hStep.merged)
          (by omega) (fun hF => (hh hF).1) fun hF => ?_
        have hLess := (hh hF).2
        omega

theorem Lightens.yields_collapseThenMerge
    (hMerge : Lightens bound merge)
    (hg : g.Roomy F 0)
    (hThis : g.slot this = .live n)
    (hOpen : n.isCollapsed = false)
    (hNode : g.hasNode other = true)
    (hBound : g.weight ≤ bound) :
    YieldsUnless F (collapseThenMerge merge g this other) (Slims F g.weight g.extent) := by
  unfold collapseThenMerge
  refine (hMerge.yields_collapseBy hg (.live hThis) hThis hBound).and_eq.bind ?_
  rintro ⟨rep, g₁⟩ ⟨⟨hw, hh⟩, hCollapse⟩
  dsimp only at hw hh
  rw [hOpen] at hw
  simp only [Bool.false_eq_true, if_false] at hw
  rcases Sound.collapseBy_of_live (E := False) hMerge.unites
      hg.wellFormed hThis hCollapse with ⟨hStep, _, hRep⟩
  rcases hRep.live_end with ⟨_, hLive⟩
  have hRoom : g₁.Roomy F 0 :=
    ⟨hStep.wellFormed, hh.snug, fun hF =>
      Nat.lt_of_le_of_lt (hh.extent hF) (hg.extent hF)⟩
  refine (hMerge.yields F g₁ _ _ hRoom (hStep.wellFormed.owns_start (hasNode_of_live hLive))
    (hStep.wellFormed.owns_start (hStep.merged.hasNode hg.wellFormed hNode))
    (by omega)).imp ?_
  intro h hh'
  exact ⟨Nat.le_trans hh'.weight hh.weight, hh'.snug,
    fun hF => Nat.le_trans (hh'.extent hF) (hh.extent hF)⟩

/- A node may grow by the bytes of one that it absorbs. -/
theorem Lightens.yields_resize_absorb
    (hMerge : Lightens bound merge)
    (hg : g.Roomy F 0)
    (hThis : g.slot this = .live n)
    (hOther : g.slot other = .live m)
    (hne : this ≠ other)
    (hOpen : n.isCollapsed = false)
    {size : Nat}
    (hSize : n.size ≤ size)
    (hLt : size < wordBound)
    (hIn : m.LiesIn { n with size := size } offset)
    (hGrow : ¬ F → size ≤ max n.size 1 + max m.size 1)
    (hBound : g.weight ≤ bound) :
    YieldsUnless F (do
        absorb merge (← g.setContents this { n with size := size }) this other offset)
      (Slims F g.weight g.extent) := by
  rw [setContents_of_live hThis, ok_bind]
  rcases Sound.setSize (E := False) hg.wellFormed hThis hOpen hSize hLt with ⟨hGrown, hSame, hHere⟩
  have hWeight : (g.setSlot this (.live { n with size := size })).weight = g.weight :=
    weight_setLive hThis rfl
  have hBytes := extent_setLive hThis { n with size := size }
  dsimp only at hBytes
  have hPos := Slot.weight_live_pos m
  refine (hMerge.yields_absorb hGrown.wellFormed (fun hF => ?_) hHere
    ((hSame other (Ne.symm hne)).trans hOther) hne hIn
    (fun hF => ?_) (by omega)).imp ?_
  · exact (hg.snug hF).of_derived hGrown.merged
      (.setLive_of_same_links hg.wellFormed.freeListed hThis _
        rfl rfl)
      ((hg.snug hF).types.setLive_of_same hThis rfl rfl hSize)
  · have hAll := hg.extent hF
    have hMore := hGrow hF
    omega
  · rintro h ⟨hw, hh⟩
    refine ⟨by omega, fun hF => (hh hF).1, fun hF => ?_⟩
    have hMore := hGrow hF
    have hLess := (hh hF).2
    omega

/- A node absorbs another as it is. -/
theorem Lightens.yields_absorb_le
    (hMerge : Lightens bound merge)
    (hg : g.Roomy F 0)
    (hThis : g.slot this = .live n)
    (hOther : g.slot other = .live m)
    (hne : this ≠ other)
    (hIn : m.LiesIn n offset)
    (hBound : g.weight ≤ bound) :
    YieldsUnless F (absorb merge g this other offset) (Slims F g.weight g.extent) := by
  have hPos := Slot.weight_live_pos m
  refine (hMerge.yields_absorb hg.wellFormed hg.snug hThis
    hOther hne hIn (fun hF => Nat.lt_add_right _ (hg.extent hF)) (by omega)).imp ?_
  rintro h ⟨hw, hh⟩
  exact ⟨by omega, fun hF => (hh hF).1, fun hF => Nat.le_of_add_right_le (hh hF).2⟩

/-
  All ways of laying a node over another, not beyond the end of one that has
  an end.
-/
theorem Lightens.yields_mergeAt
    (hMerge : Lightens bound merge)
    (hg : g.Roomy F 0)
    (hThis : g.slot this = .live n)
    (hOther : g.slot other = .live m)
    (hne : this ≠ other)
    (hOffset : ¬ F → n.isPlain = true → offset ≤ n.size)
    (hBound : g.weight ≤ bound) :
    YieldsUnless F (mergeAt merge g this other offset) (Slims F g.weight g.extent) := by
  have hnW := hg.wellFormed.nodes _ _ hThis
  have hmW := hg.wellFormed.nodes _ _ hOther
  have hNode := hasNode_of_live hOther
  have hBoth := extent_add_le hThis hOther hne
  unfold mergeAt
  rw [mergeable_of_live hThis, mergeable_of_live hOther]
  change YieldsUnless F (if this = other then _
    else _) _
  rw [if_neg hne]
  cases hnC : n.isCollapsed with
  | true =>
    simp only [Bool.not_true, Bool.and_false, Bool.false_eq_true, if_false, if_true]
    exact hMerge.yields_absorb_le hg hThis hOther hne
      (.of_collapsed hnC (hnW.collapsed_not_array hnC) hmW.size_lt) hBound
  | false =>
    have hCollapse := hMerge.yields_collapseThenMerge hg hThis hnC hNode hBound
    cases hmC : m.isCollapsed with
    | true =>
      simp only [Bool.not_false, Bool.and_true, if_true]
      exact hCollapse
    | false =>
      simp only [Bool.false_and, Bool.false_eq_true, if_false]
      cases hnA : n.isArray <;> cases hmA : m.isArray <;>
        dsimp only
      · -- A plain node over a plain node.
        have hPlain := Node.isPlain_iff.mpr ⟨hnC, hnA⟩
        refine (yieldsUnless_addWord fun hF => ?_).bind ?_
        · have hAll := hg.extent hF
          have hAt := hOffset hF hPlain
          omega
        rintro reach ⟨rfl, hReach⟩
        refine hMerge.yields_resize_absorb hg hThis hOther hne hnC (Nat.le_max_left _ _)
          (Nat.max_lt.mpr ⟨hnW.size_lt, hReach⟩)
          (.of_plain (Node.isPlain_iff.mpr ⟨hmC, hmA⟩) hReach fun _ => Nat.le_max_right _ _)
          (fun hF => ?_) hBound
        have hAt := hOffset hF hPlain
        omega
      · -- An array over a plain node.
        split
        · exact hMerge.yields_absorb_le hg hOther hThis (Ne.symm hne)
            (.of_plain (Node.isPlain_iff.mpr ⟨hnC, hnA⟩) hnW.size_lt fun h => by
                rw [Node.isPlain_iff, hmA] at h
                cases h.2) hBound
        · exact hCollapse
      · -- A plain node over an array.
        have hIn : ∀ k, m.size + k < wordBound → m.LiesIn n k := fun k hk =>
          .of_plain (Node.isPlain_iff.mpr ⟨hmC, hmA⟩) hk fun h => by
              rw [Node.isPlain_iff, hnA] at h
              cases h.2
        have hPos := hnW.array_size hnA
        rw [if_neg (Nat.ne_of_gt hPos)]
        have hInner := Nat.mod_lt offset hPos
        generalize offset % n.size = inner at hInner ⊢
        split
        · exact hMerge.yields_absorb_le hg hThis hOther hne (hIn 0 hmW.size_lt) hBound
        · refine (yieldsUnless_addWord fun hF => ?_).bind ?_
          · have hAll := hg.extent hF
            omega
          rintro reach ⟨rfl, hReach⟩
          split
          · exact hCollapse
          · exact hMerge.yields_absorb_le hg hThis hOther hne (hIn inner hReach) hBound
      · -- An array over an array.
        split
        · exact hCollapse
        · split
          · exact hCollapse
          · exact hMerge.yields_resize_absorb hg hThis hOther hne hnC (Nat.le_max_left _ _)
              (Nat.max_lt.mpr ⟨hnW.size_lt, hmW.size_lt⟩)
              { collapsed := fun h => by
                  rw [hmC] at h
                  cases h
                array := fun _ => Or.inl hnA
                stride := fun _ _ => Nat.le_max_right _ _
                folded := fun _ => rfl
                word := hmW.size_lt
                inside := fun h => by
                  rw [Node.isPlain_iff, hmA] at h
                  cases h.2 } (fun _ => by omega) hBound

/- One level of merging allows for one more unit of weight. -/
theorem lightens_unifyBy
    (hMerge : Lightens bound merge) :
    Lightens (bound + 1) (unifyBy merge) where
  unites := unites_unifyBy hMerge.unites
  derives := derives_unifyBy hMerge.derives
  yields := by
    intro F g a b hg ha hb hBound
    have hLe := Nat.le_of_lt_succ hBound
    unfold unifyBy
    refine (hg.wellFormed.yields_find ha).bind ?_
    rintro ⟨a', g₁⟩ ⟨hsA, _, na, hLiveA, hEndA⟩
    dsimp only at hsA hLiveA hEndA ⊢
    have hStepA := hg.shortened hsA
    have hg₁ := hStepA.roomy hg
    have hb₁ := hb.merged hg.wellFormed hStepA.merged
    refine (hg₁.wellFormed.yields_find hb₁).bind ?_
    rintro ⟨b', g₂⟩ ⟨hsB, _, nb, hLiveB, hEndB⟩
    dsimp only at hsB hLiveB hEndB ⊢
    have hg₂ := (hg₁.shortened hsB).roomy hg₁
    have hLiveA₂ := hsB.live_iff.mpr hLiveA
    rw [← hsA.weight_eq, ← hsB.weight_eq] at hLe ⊢
    rw [← hsA.extent_eq, ← hsB.extent_eq]
    rw [contents_of_live hLiveA₂, contents_of_live hLiveB]
    change YieldsUnless F (if a'.node = b'.node then _
      else _) _
    split
    · split
      · exact .ok (Shrinks.refl hg₂).toSlims
      · refine (hMerge.yields_collapseBy hg₂ (.live hLiveA₂) hLiveA₂ hLe).bind ?_
        exact fun _ hh => .ok hh.2
    · next hne =>
      split
      · refine hMerge.yields_mergeAt hg₂ hLiveB hLiveA₂ (Ne.symm hne) (fun hF hPlain => ?_) hLe
        have hAt := hEndB 0 (hb₁.inside hF) hPlain
        rw [Node.effectiveOffset_of_plain hPlain]
        omega
      · refine hMerge.yields_mergeAt hg₂ hLiveA₂ hLiveB hne (fun hF hPlain => ?_) hLe
        have hAt := hEndA 0 (ha.inside hF) hPlain
        rw [Node.effectiveOffset_of_plain hPlain]
        omega

/- The weight bounds the depth of merges. -/
theorem lightens_unifyWithin
    (fuel : Nat) :
    Lightens fuel (unifyWithin fuel) := by
  induction fuel with
  | zero =>
    refine ⟨unites_unifyWithin 0, derives_unifyWithin 0, ?_⟩
    intro F g a b _ _ _ hBound
    exact absurd hBound (Nat.not_lt_zero _)
  | succ fuel ih => exact lightens_unifyBy ih

-- Merging

/- The bound on merges is above the weight. -/
theorem weight_lt_mergeBound
    (g : Graph) :
    g.weight < g.mergeBound := by
  have hLe := g.weight_le
  unfold mergeBound
  omega

theorem Roomy.yields_unify
    (hg : g.Roomy F 0)
    (ha : g.Owns F a)
    (hb : g.Owns F b) :
    YieldsUnless F (g.unify a b) (Shrinks F g.extent g) :=
  (lightens_unifyWithin _).shrinks hg ha hb g.weight_lt_mergeBound

theorem Roomy.yields_addLink
    (hg : g.Roomy F spare)
    (hc : g.Owns F c)
    (ht : g.Owns F t)
    (type? : Option TypeTag)
    (hSpare : g.config.pointerSize ≤ spare) :
    YieldsUnless F (g.addLink c type? t) (Shrinks F (g.extent + spare) g) :=
  (lightens_unifyWithin _).yields_addLinkBy hg hc ht (Or.inr hSpare) g.weight_lt_mergeBound

/- A collapse gives the live node that stands for another. -/
theorem Roomy.yields_collapse
    (hg : g.Roomy F 0)
    (hNode : g.hasNode id = true) :
    YieldsUnless F (g.collapse id) fun found =>
      Shrinks F g.extent g found.2 ∧ ∃ n, found.2.slot found.1 = .live n := by
  rcases hg.wellFormed.leads hNode with ⟨m, k, hLeads⟩
  rcases hLeads.live_end with ⟨n, hLive⟩
  refine ((lightens_unifyWithin _).yields_collapseBy hg hLeads
    hLive (Nat.le_of_lt g.weight_lt_mergeBound)).imp_eq ?_
  rintro ⟨rep, h⟩ hRun ⟨_, hh⟩
  rcases Sound.collapseBy (E := False) (unites_unifyWithin _)
      hg.wellFormed hRun with ⟨hStep, _, _, _, _, hRep⟩
  exact ⟨⟨hh, hStep.wellFormed, hStep.merged⟩, hRep.live_end⟩

/- An array takes the bytes of one more element at most. -/
theorem Roomy.yields_setArray
    {stride : Nat}
    (hg : g.Roomy F stride)
    (hNode : g.hasNode id = true)
    (hStride : stride < wordBound) :
    YieldsUnless F (g.setArray id stride) (Shrinks F (g.extent + stride) g) := by
  have hRun : YieldsUnless F (g.setArray id stride) (Slims F g.weight (g.extent + stride)) := by
    have hMerge := lightens_unifyWithin g.mergeBound
    have hBound := g.weight_lt_mergeBound
    unfold setArray
    refine (hg.wellFormed.yields_findNode hNode).bind ?_
    rintro ⟨r, g₁⟩ ⟨hs, n, hLive⟩
    dsimp only at hs hLive ⊢
    have hg₁ := (hg.shortened hs).roomy hg
    have hStays : Slims F g.weight (g.extent + stride) g₁ :=
      ⟨Nat.le_of_eq hs.weight_eq, hg₁.snug, fun _ =>
        Nat.le_add_right_of_le (Nat.le_of_eq hs.extent_eq)⟩
    rw [← hs.weight_eq] at hBound
    rw [contents_of_live hLive]
    change YieldsUnless F (if _ then _ else _) _
    split
    · exact .ok hStays
    · next hOpen =>
      simp only [Bool.or_eq_true, beq_iff_eq, not_or, Bool.not_eq_true] at hOpen
      split
      · exact .ok hStays
      · split
        · have hNow : g₁.Roomy F 0 := ⟨hg₁.wellFormed, hg₁.snug, fun hF => by
              have hAll := hg₁.extent hF
              omega⟩
          refine (hMerge.yields_collapseBy hNow (.live hLive) hLive (Nat.le_of_lt hBound)).bind ?_
          rintro ⟨rep, h⟩ ⟨_, hh⟩
          exact .ok ⟨hs.weight_eq ▸ hh.weight, hh.snug,
            fun hF => Nat.le_add_right_of_le (hs.extent_eq ▸ hh.extent hF)⟩
        · have hLt := (hg₁.wellFormed.nodes _ _ hLive).size_lt
          have hSize : (if n.isArray = true then
              max n.size stride else stride) ≤ n.size + stride := by
            split <;> omega
          have hReset := Sound.resetArray hg₁.wellFormed hLive hOpen.1
            (if n.isArray then max n.size stride else stride)
            (by split <;> omega) (by split <;> omega)
            (by
              intro h
              rw [if_pos h]
              exact Nat.le_max_left _ _)
          generalize (if n.isArray = true then
            max n.size stride else stride) = size at *
          have hBytes := extent_setLive hLive { n with
            flags := n.flags.insert .array
            size := size
            types := OrdMap.empty
            links := OrdMap.empty }
          have hSame : (g₁.setSlot r (.live { n with
              flags := n.flags.insert .array
              size := size
              types := OrdMap.empty
              links := OrdMap.empty })).weight =
                g₁.weight := by
            apply weight_setLive hLive
            change Flags.has (Flags.insert _ _) _ = _
            rw [Flags.has_insert]
            exact Bool.or_false _
          dsimp only at hBytes
          rw [setContents_of_live hLive, ok_bind]
          refine (hMerge.yields_rebuild hg₁ hLive hReset rfl
            rfl rfl (fun hF => ?_)
            (by rw [hSame]; exact hBound)).imp ?_
          · have hAll := hg₁.extent hF
            omega
          · intro h hh
            have hw := hh.weight
            rw [hSame, hs.weight_eq] at hw
            refine ⟨hw, hh.snug, fun hF => ?_⟩
            have hLess := hh.extent hF
            rw [hs.extent_eq] at hBytes
            omega
  refine hRun.imp_eq fun h hOk hh => ?_
  have hSound := Sound.setArray hg.wellFormed hStride hOk
  exact ⟨hh, hSound.wellFormed, hSound.merged⟩

end Graph

end HeapShape
