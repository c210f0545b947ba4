import HeapShape.Proofs.Graph.Reachable

/-
  Merging is a congruence.

  Cells that mean one address before a merge mean one address after it, and
  a field that led to an address leads to what has become of it. Making an
  array is left out: it changes which fields are one.

  An address that has been moved beyond the word range can no longer be
  computed. Both sides then fail alike.

  Main declarations:
    * `Graph.Coincide`
    * `Graph.PointsTo`
    * `Graph.KeepsStrides`
    * `merging_is_congruence`
-/

-- Addresses

namespace HeapShape

open Checked

namespace Graph

/-
  Two cells have one effective address, or both addresses are beyond the
  word range.
-/
def Coincide
    (g : Graph)
    (c d : Cell) : Prop :=
  (∃ e, g.effective c = .ok e ∧ g.effective d = .ok e) ∨
    (g.effective c = .error .addOverflow ∧
      g.effective d = .error .addOverflow)

/-
  The field at a cell leads to the effective address of a target, or cannot
  be followed because that address is beyond the word range.
-/
def PointsTo
    (g : Graph)
    (c : Cell)
    (type? : Option TypeTag)
    (t : Cell) : Prop :=
  (∃ u e, g.link? c type? = .ok (some u) ∧
    g.effective u = .ok e ∧ g.effective t = .ok e) ∨
    (g.link? c type? = .error .addOverflow ∧
      g.effective t = .error .addOverflow)

variable {g h : Graph} {c d e t : Cell} {type? : Option TypeTag} {m : NodeId} {n : Node} {k : Nat}

/- The address of a cell, told from the end of its chain. -/
theorem effective_of_leads
    (hLeads : g.Leads c.node m k)
    (hLive : g.slot m = .live n)
    (hc : c.offset < wordBound) :
    g.effective c =
      if c.offset + k < wordBound then
        .ok { node := m
              offset := n.effectiveOffset (c.offset + k) }
      else .error .addOverflow := by
  have hResolve : g.resolve c = ({ node := m, offset := c.offset } : Cell).shifted k :=
    resolve_of_leads hLeads hc
  unfold effective
  rw [hResolve, shifted_eq]
  split
  · change (do
      let n ← g.contents m
      return _) = _
    rw [contents_of_live hLive]
    rfl
  · rfl

/- The link at a cell, told from the end of its chain. -/
theorem link?_of_leads
    (hLeads : g.Leads c.node m k)
    (hLive : g.slot m = .live n)
    (hWord : c.offset + k < wordBound) :
    g.link? c type? = (n.links.get? (n.effectiveField (Field.make g.config
        (c.offset + k) type?))).mapM g.resolve := by
  have hResolve : g.resolve c = ({ node := m, offset := c.offset } : Cell).shifted k :=
    resolve_of_leads hLeads (by omega)
  unfold link?
  rw [hResolve, shifted_eq, if_pos hWord]
  change (do
    let n ← g.contents m
    _) = _
  rw [contents_of_live hLive]
  rfl

/- An effective address was read at the end of a chain. -/
theorem effective_eq_ok
    (hc : c.offset < wordBound)
    (hEffective : g.effective c = .ok e) :
    ∃ k n, g.Leads c.node e.node k ∧ g.slot e.node = .live n ∧ c.offset + k < wordBound ∧
      e.offset = n.effectiveOffset (c.offset + k) := by
  unfold effective at hEffective
  rcases of_bind hEffective with ⟨d, hResolve, hEffective⟩
  rcases of_bind hEffective with ⟨n', hContents, hEffective⟩
  cases hEffective
  rcases resolve_eq_ok hc hResolve with ⟨k, n, hLeads, hLive, hOffset, hWord⟩
  rcases eq_of_contents hLive hContents with rfl
  rw [hOffset] at hWord
  exact ⟨k, n', hLeads, hLive, hWord, by rw [hOffset]⟩

/- A link was read at the end of a chain and resolved. -/
theorem link?_eq_ok
    (hc : c.offset < wordBound)
    (hLink : g.link? c type? = .ok (some t)) :
    ∃ m k n u, g.Leads c.node m k ∧ g.slot m = .live n ∧ c.offset + k < wordBound ∧
      n.links.get? (n.effectiveField (Field.make g.config (c.offset + k) type?)) = some u ∧
      g.resolve u = .ok t := by
  unfold link? at hLink
  rcases of_bind hLink with ⟨d, hResolve, hLink⟩
  rcases of_bind hLink with ⟨n', hContents, hLink⟩
  rcases resolve_eq_ok hc hResolve with ⟨k, n, hLeads, hLive, hOffset, hWord⟩
  rcases eq_of_contents hLive hContents with rfl
  rw [hOffset] at hWord hLink
  refine ⟨d.node, k, n', ?_⟩
  dsimp only at hLink
  generalize n'.links.get? _ = u? at hLink ⊢
  cases u? with
  | none => cases hLink
  | some u =>
    refine ⟨u, hLeads, hLive, hWord, rfl, ?_⟩
    rw [Option.mapM_some] at hLink
    cases hTarget : g.resolve u with
    | error fault => rw [hTarget] at hLink; cases hLink
    | ok y => rw [hTarget] at hLink; cases hLink; rfl

/- Places that mean one address have one outcome. -/
theorem SameAddress.coincide
    (hSame : g.SameAddress c d)
    (hc : c.offset < wordBound)
    (hd : d.offset < wordBound) :
    g.Coincide c d := by
  rcases hSame with ⟨m, n, j, k, hLeads, hLeads', hLive, hEq⟩
  unfold Coincide
  rw [effective_of_leads hLeads hLive hc, effective_of_leads hLeads' hLive hd]
  rcases hEq with hEq | ⟨hj, hk, hEq⟩
  · rw [hEq]
    split
    · exact Or.inl ⟨_, rfl, rfl⟩
    · exact Or.inr ⟨rfl, rfl⟩
  · rw [if_pos hj, if_pos hk, hEq]
    exact Or.inl ⟨_, rfl, rfl⟩

/- A resolved cell has the address it was resolved from. -/
theorem effective_resolve
    (hc : c.offset < wordBound)
    (hResolve : g.resolve c = .ok d) :
    g.effective d = g.effective c := by
  rcases resolve_eq_ok hc hResolve with ⟨k, n, hLeads, hLive, hOffset, hWord⟩
  rw [effective_of_leads hLeads hLive hc, effective_of_leads (.live hLive) hLive hWord,
    Nat.add_zero, hOffset]

/- A link of a field is found by following the field. -/
theorem Linked.pointsTo
    (hg : g.WellFormed)
    (hLinked : g.Linked True c type? t)
    (ht : t.offset < wordBound) :
    g.PointsTo c type? t := by
  rcases hLinked with ⟨m, n, k, f, u, hLeads, hLive, hWord, hGet, _, hExact⟩
  rcases hExact trivial with ⟨rfl, hSame⟩
  have hu := (hg.link_has _ _ _ u hLive hGet).word
  have hLink : g.link? c type? = (do return some (← g.resolve u)) := by
    rw [link?_of_leads hLeads hLive hWord, hGet]
    rfl
  unfold PointsTo
  rw [hLink]
  rcases hSame.coincide hu ht with ⟨e, hUe, hTe⟩ | ⟨hUe, hTe⟩
  · cases hResolve : g.resolve u with
    | error fault =>
      unfold effective at hUe
      rw [hResolve] at hUe
      cases hUe
    | ok y =>
      left
      refine ⟨y, e, rfl, ?_, hTe⟩
      rw [effective_resolve hu hResolve]
      exact hUe
  · right
    rcases hSame with ⟨m', n', j, _, hLeads', _, hLive', _⟩
    have hResolve : g.resolve u = ({ node := m', offset := u.offset } : Cell).shifted
          j :=
      resolve_of_leads hLeads' hu
    rw [effective_of_leads hLeads' hLive' hu] at hUe
    split at hUe
    · cases hUe
    · next hOver =>
      refine ⟨?_, hTe⟩
      rw [hResolve, shifted_eq, if_neg hOver]
      rfl

-- Strides

/-
  Every array of `g` lies in an array of the same stride in `h`, or in a
  collapsed node.
-/
def KeepsStrides
    (g h : Graph) : Prop :=
  ∀ id n, g.slot id = .live n → n.isArray = true →
    ∃ n', h.nodeOf (Cell.start id) = .ok n' ∧
      (n'.isCollapsed = true ∨
        n'.isArray = true ∧ n'.size = n.size)

/- The node of a slot is collapsed, or an array of a stride. -/
def StrideKept
    (h : Graph)
    (id : NodeId)
    (stride : Nat) : Prop :=
  ∃ n', h.nodeOf (Cell.start id) = .ok n' ∧
    (n'.isCollapsed = true ∨
      n'.isArray = true ∧ n'.size = stride)

variable {id : NodeId}

/- The live nodes are those of the live slots. -/
theorem mem_liveNodes :
    (id, n) ∈ g.liveNodes ↔ g.slot id = .live n := by
  unfold liveNodes
  simp only [List.mem_filterMap, List.mem_range, Option.map_eq_some_iff, Prod.mk.injEq]
  constructor
  · rintro ⟨i, _, m, hNode, rfl, rfl⟩
    cases hSlot : g.slot i with
    | free => rw [hSlot] at hNode; cases hNode
    | forward t => rw [hSlot] at hNode; cases hNode
    | live m' => rw [hSlot] at hNode; cases hNode; rfl
  · intro hSlot
    refine ⟨id, ?_, n, ?_, rfl, rfl⟩
    · apply lt_size_of_slot_ne_free
      rw [hSlot]
      exact Slot.noConfusion
    · rw [hSlot]
      rfl

/- A stride that is kept is the stride of an array. -/
theorem StrideKept.strideAt
    {stride : Nat}
    (hKept : h.StrideKept id stride)
    (hh : h.WellFormed) :
    h.StrideAt id stride := by
  intro m k n' hLeads hLive hArray
  rcases hKept with ⟨n₁, hNode, hKind⟩
  unfold nodeOf at hNode
  rcases of_bind hNode with ⟨d, hResolve, hContents⟩
  rcases leads_of_resolve hResolve with ⟨j, hLeads', _⟩
  rcases hLeads.unique hLeads' with ⟨hm, _⟩
  rw [← hm] at hContents
  rcases eq_of_contents hLive hContents with rfl
  rcases hKind with hCollapsed | ⟨_, hSize⟩
  · have hNot := (hh.nodes m n₁ hLive).collapsed_not_array hCollapsed
    rw [hArray] at hNot
    cases hNot
  · exact hSize

theorem KeepsStrides.sameStrides
    (hKeeps : KeepsStrides g h)
    (hh : h.WellFormed) :
    SameStrides g h := by
  intro id n m k n' hSlot hArray hLeads hLive hArray'
  have hKept : h.StrideKept id n.size := hKeeps id n hSlot hArray
  exact hKept.strideAt hh m k n' hLeads hLive hArray'

instance
    (h : Graph)
    (id : NodeId)
    (stride : Nat) : Decidable (h.StrideKept id stride) :=
  decidable_of_iff
    ((h.nodeOf (Cell.start id)).toOption.any (fun n' =>
      n'.isCollapsed ||
        n'.isArray && n'.size == stride) = true) <| by
    unfold StrideKept
    cases h.nodeOf (Cell.start id) with
    | error fault => simp [Except.toOption]
    | ok n' => simp [Except.toOption]

instance
    (g h : Graph) : Decidable (KeepsStrides g h) :=
  decidable_of_iff
    (∀ p ∈ g.liveNodes, p.2.isArray = true →
      h.StrideKept p.1 p.2.size) <| by
    constructor
    · intro hAll id n hSlot hArray
      exact hAll (id, n) (mem_liveNodes.mpr hSlot) hArray
    · rintro hKeeps ⟨id, n⟩ hMem hArray
      exact hKeeps id n (mem_liveNodes.mp hMem) hArray

-- Congruence

/- One address stays one address. -/
theorem Merged.sameAddress_of_effective
    (hm : Merged g h)
    (hStrides : SameStrides g h)
    (hc : c.offset < wordBound)
    (hd : d.offset < wordBound)
    (hce : g.effective c = .ok e)
    (hde : g.effective d = .ok e) :
    h.SameAddress c d := by
  rcases effective_eq_ok hc hce with ⟨j, n, hLeads, hLive, hj, hOffset⟩
  rcases effective_eq_ok hd hde with ⟨k, n', hLeads', hLive', hk, hOffset'⟩
  rw [hLive] at hLive'
  cases hLive'
  have hSame := hm.sameAddress hStrides hLive hj hk (hOffset.symm.trans hOffset')
  have hcj : h.SamePlace c { node := e.node, offset := c.offset + j } := hm.samePlace hLeads rfl
  have hdk : h.SamePlace d { node := e.node, offset := d.offset + k } := hm.samePlace hLeads' rfl
  exact (hcj.sameAddress.trans hSame).trans hdk.symm.sameAddress

/- A link that was followed is a link of a later graph. -/
theorem Linked.of_link?
    {E : Prop}
    (hm : Merged g h)
    (hStrides : E → SameStrides g h)
    (hLinks : LinksHold E g h)
    (hc : c.offset < wordBound)
    (hLink : g.link? c type? = .ok (some t)) :
    h.Linked E c type? t := by
  rcases link?_eq_ok hc hLink with ⟨m, k, n, u, hLeads, hLive, hWord, hGet, hTarget⟩
  rcases leads_of_resolve hTarget with ⟨j, hLeadsT, hOffsetT⟩
  have hPlace : h.SamePlace u t := hm.samePlace hLeadsT hOffsetT
  have hOld := hLinks m n hLive _ u hGet
  simp only [Cell.start, Nat.add_zero] at hOld
  have hEnd : h.Linked E { node := m, offset := c.offset + k } type? u :=
    Linked.of_key hm hStrides hLive hWord hOld
  have hHere : h.Linked E c type? u := hEnd.of_samePlace (hm.samePlace hLeads rfl)
  exact hHere.of_sameTarget hPlace.sameNode fun _ => hPlace.sameAddress

/- A field that led to a target still leads to it. -/
theorem Merged.linked_of_link?
    (hm : Merged g h)
    (hStrides : SameStrides g h)
    (hLinks : LinksHold True g h)
    (hg : g.WellFormed)
    (hc : c.offset < wordBound)
    (hLink : g.link? c type? = .ok (some t)) :
    t.offset < wordBound ∧ h.Linked True c type? t := by
  rcases link?_eq_ok hc hLink with ⟨m, k, n, u, _, hLive, _, hGet, hTarget⟩
  rcases resolve_eq_ok (hg.link_has _ _ _ u hLive hGet).word hTarget with ⟨_, _, _, _, _, ht⟩
  exact ⟨ht, .of_link? hm (fun _ => hStrides) hLinks hc hLink⟩

end Graph

open HeapShape.Graph in
/-
  A merging operation that keeps fields and strides keeps what means one
  address and where fields lead. Unified cells mean one address, and an
  added link leads to its target.
-/
theorem merging_is_congruence
    {op : Merging}
    (hOp : op.KeepsFields)
    {g h : Graph}
    (hg : g.WellFormed)
    (hRun : op.run g = .ok h)
    (hStrides : KeepsStrides g h) :
    (∀ c d e, c.offset < wordBound → d.offset < wordBound →
      g.effective c = .ok e → g.effective d = .ok e →
        h.Coincide c d) ∧
    (∀ c type? t, c.offset < wordBound →
      g.link? c type? = .ok (some t) →
        h.PointsTo c type? t) ∧
    (∀ a b, op = .unify a b →
      a.offset < wordBound → b.offset < wordBound →
        h.Coincide a b) ∧
    ∀ c type? t, op = .addLink c type? t →
      t.offset < wordBound → h.PointsTo c type? t := by
  have hSound := op.sound (E := True) hOp.admissible
    (fun _ => hOp) hg hRun
  have hh := hSound.wellFormed
  have hSame := hStrides.sameStrides hh
  have hLinks := hSound.here fun _ => hSame
  refine ⟨?_, ?_, ?_, ?_⟩
  · intro c d e hc hd hce hde
    have hAddress := hSound.merged.sameAddress_of_effective
      hSame hc hd hce hde
    exact hAddress.coincide hc hd
  · intro c type? t hc hLink
    rcases hSound.merged.linked_of_link?
        hSame hLinks hg hc hLink with
      ⟨ht, hLinked⟩
    exact hLinked.pointsTo hh ht
  · rintro a b rfl ha hb
    have hUnited := (Sound.unify (E := True) hg hRun).here
      fun _ => hSame
    exact (hUnited.2.2 trivial).coincide ha hb
  · rintro c type? t rfl ht
    have hAdded := (Sound.addLink (E := True) hg hRun).here
      fun _ => hSame
    exact hAdded.2.pointsTo hh ht

/-
  Two rings with typed fields, one of them through an array.
-/
def typedRings : List Update :=
  [.createNode Flags.empty 16, .createNode Flags.empty 8,
    .createNode Flags.empty 8, .createNode Flags.empty 24,
    .merge (.setArray 1 8),
    .merge (.addLink ⟨0, 0⟩ (some "ptr") ⟨1, 16⟩),
    .merge (.addLink ⟨1, 8⟩ (some "int") ⟨0, 8⟩),
    .merge (.addLink ⟨2, 0⟩ (some "int") ⟨3, 16⟩),
    .merge (.addLink ⟨3, 8⟩ (some "ptr") ⟨2, 0⟩)]

/-
  A link to the second ring from an occupied field merges the rings. The
  elements of the array are still one, the field at the start of the first
  ring leads to the array, and it leads to its new target.
-/
theorem merging_is_congruence_of_typedRings :
    ∃ g h,
      Update.runAll
        { config := { typeAwareFields := true } }
        typedRings = .ok g ∧
      (Merging.addLink ⟨0, 0⟩ (some "ptr") ⟨2, 0⟩).run g =
        .ok h ∧
      g.KeepsStrides h ∧ g.liveCount = 4 ∧ h.liveCount = 2 ∧
      h.resolve ⟨0, 0⟩ = .ok ⟨3, 8⟩ ∧
      h.Coincide ⟨1, 0⟩ ⟨1, 24⟩ ∧
      h.PointsTo ⟨0, 0⟩ (some "ptr") ⟨1, 16⟩ ∧
      h.PointsTo ⟨0, 0⟩ (some "ptr") ⟨2, 0⟩ := by
  rcases Update.exists_run { typeAwareFields := true }
      typedRings (.addLink ⟨0, 0⟩ (some "ptr") ⟨2, 0⟩)
      (P := fun g h => g.KeepsStrides h ∧
        g.liveCount = 4 ∧ h.liveCount = 2 ∧
        h.resolve ⟨0, 0⟩ = .ok ⟨3, 8⟩ ∧
        g.effective ⟨1, 0⟩ = .ok ⟨1, 0⟩ ∧
        g.effective ⟨1, 24⟩ = .ok ⟨1, 0⟩ ∧
        g.link? ⟨0, 0⟩ (some "ptr") = .ok (some ⟨1, 16⟩))
      (by decide) (by decide +kernel) with
    ⟨g, h, hBuild, hg, hAdd, hStrides, hBefore, hAfter,
      hResolve, hFirst, hLast, hLink⟩
  rcases merging_is_congruence (by trivial) hg hAdd hStrides
    with ⟨hSame, hPoints, _, hNew⟩
  exact ⟨g, h, hBuild, hAdd, hStrides, hBefore, hAfter,
    hResolve,
    hSame _ _ _ (by decide) (by decide) hFirst hLast,
    hPoints _ _ _ (by decide) hLink,
    hNew _ _ _ rfl (by decide)⟩

/- A field that leads to the last word of a node. -/
def farLink : List Update :=
  [.createNode Flags.empty 16, .createNode Flags.empty 16,
    .createNode Flags.empty 16,
    .merge (.addLink ⟨0, 0⟩ none ⟨1, 4294967295⟩)]

/-
  Once that node lies inside another, the target is beyond the word range,
  and the field cannot be followed.
-/
theorem no_link_beyond_word_range :
    ∃ g h,
      Update.runAll {} farLink = .ok g ∧
      g.WellFormed ∧
      (Merging.unify ⟨2, 8⟩ ⟨1, 0⟩).run g = .ok h ∧
      g.KeepsStrides h ∧
      g.link? ⟨0, 0⟩ none = .ok (some ⟨1, 4294967295⟩) ∧
      ∀ u, h.link? ⟨0, 0⟩ none ≠ .ok (some u) := by
  rcases Update.exists_run {} farLink (.unify ⟨2, 8⟩ ⟨1, 0⟩)
      (P := fun g h => g.KeepsStrides h ∧
        g.link? ⟨0, 0⟩ none = .ok (some ⟨1, 4294967295⟩) ∧
        h.link? ⟨0, 0⟩ none = .error .addOverflow)
      (by decide) (by decide +kernel) with
    ⟨g, h, hBuild, hg, hUnify, hStrides, hBefore, hAfter⟩
  refine ⟨g, h, hBuild, hg, hUnify, hStrides, hBefore, ?_⟩
  intro u hLink
  rw [hAfter] at hLink
  cases hLink

end HeapShape
