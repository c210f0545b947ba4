import HeapShape.Proofs.Propagation.BottomUp
import HeapShape.Proofs.Simulation.Exact

/-
  Where copies are placed.

  A copy lies in a node from some offset on. So the caller simulates a
  callee that was copied into it: each callee node is placed where its copy
  lies. Offsets of the callee are then read in the caller as the test of the
  call reads them, provided that no array has changed its stride.

  Main declarations:
    * `Node.LiesIn.baseAt`
    * `Copier.placement`
    * `Copier.aligned_placement`
    * `Copier.JoinedUp.isSimulation`
-/

-- Offsets In A Copy

namespace HeapShape

namespace Node

open Simulation

variable {n m : Node} {config : GraphConfig} {k : Nat}

/- A summand may be read first. -/
theorem effectiveOffset_add
    (n : Node)
    (a b : Nat) :
    n.effectiveOffset (n.effectiveOffset a + b) = n.effectiveOffset (a + b) := by
  by_cases hCollapsed : n.isCollapsed = true
  · simp only [effectiveOffset_of_collapsed hCollapsed]
  · by_cases hArray : n.isArray = true
    · simp only [effectiveOffset_of_array (Bool.eq_false_iff.mpr hCollapsed) hArray,
        Nat.mod_add_mod]
    · have hPlain : n.isPlain = true := by
        simp [isPlain_iff, hCollapsed, hArray]
      simp only [effectiveOffset_of_plain hPlain]

/- Offsets that mean one give one link key. -/
theorem effectiveField_congr
    {a b : Nat}
    (hEq : n.effectiveOffset a = n.effectiveOffset b)
    (type? : Option TypeTag) :
    n.effectiveField (Field.make config a type?) =
      n.effectiveField (Field.make config b type?) := by
  unfold effectiveField Field.make
  simp only [hEq]

/-
  A node that lies in another from `k` on is placed there:
  its offsets, read in it, are laid on its offsets, read in the other.
-/
theorem LiesIn.baseAt
    (h : n.LiesIn m k)
    (hStride : n.isArray = true → m.isArray = true → m.size = n.size)
    (o : Nat) :
    BaseAt m (n.effectiveOffset o) (m.effectiveOffset (o + k)) (m.effectiveOffset k) := by
  unfold BaseAt
  by_cases hCollapsed : m.isCollapsed = true
  · rw [if_pos hCollapsed]
    exact effectiveOffset_of_collapsed hCollapsed k
  rw [if_neg hCollapsed]
  have hOpen := Bool.eq_false_iff.mpr hCollapsed
  have hOpen' : n.isCollapsed = false := by
    rw [Bool.eq_false_iff]
    exact fun hn => hCollapsed (h.collapsed hn)
  by_cases hArray : m.isArray = true
  · rw [if_pos hArray, effectiveOffset_of_array hOpen hArray, effectiveOffset_of_array hOpen hArray]
    by_cases hArray' : n.isArray = true
    · have hZero : k = 0 := h.folded (by simp [isPlain, hArray'])
      rw [effectiveOffset_of_array hOpen' hArray', hStride hArray' hArray, hZero]
      simp
    · have hPlain : n.isPlain = true := by
        simp [isPlain, hOpen', hArray']
      rw [effectiveOffset_of_plain hPlain]
      push_cast
      rw [Int.emod_sub_emod]
      congr 1
      omega
  · have hPlain : m.isPlain = true := by
      simp [isPlain, hOpen, hArray]
    rw [if_neg hArray, effectiveOffset_of_plain hPlain, effectiveOffset_of_plain hPlain,
      effectiveOffset_of_plain (h.plain_of_plain hPlain)]

/-
  Conversely, if the start of `m` is placed in `n` so that one address of
  the copy is laid on where it comes from, then the copy of that place is
  the start of `m`.
-/
theorem LiesIn.start_of_baseAt
    (h : n.LiesIn m k)
    (hStride : n.isArray = true → m.isArray = true → m.size = n.size)
    {o off base : Nat}
    (hOffset : m.effectiveOffset off = m.effectiveOffset (o + k))
    (hBase : BaseAt n (m.effectiveOffset off) (n.effectiveOffset o) base) :
    m.effectiveOffset (base + k) = 0 := by
  unfold BaseAt at hBase
  by_cases hCollapsed : m.isCollapsed = true
  · exact effectiveOffset_of_collapsed hCollapsed _
  have hOpen := Bool.eq_false_iff.mpr hCollapsed
  rw [hOffset, if_neg fun hn => hCollapsed (h.collapsed hn)] at hBase
  have hOpen' : n.isCollapsed = false := by
    rw [Bool.eq_false_iff]
    exact fun hn => hCollapsed (h.collapsed hn)
  by_cases hArray : m.isArray = true
  · rw [effectiveOffset_of_array hOpen hArray] at hBase ⊢
    by_cases hArray' : n.isArray = true
    · have hZero : k = 0 := h.folded (by simp [isPlain, hArray'])
      rw [if_pos hArray', effectiveOffset_of_array hOpen' hArray',
        hStride hArray' hArray, hZero, Nat.add_zero,
        Int.sub_self, Int.zero_emod] at hBase
      have hStart : base = 0 := by omega
      simp [hStart, hZero]
    · have hPlain : n.isPlain = true := by
        simp [isPlain, hOpen', hArray']
      rw [if_neg hArray', effectiveOffset_of_plain hPlain] at hBase
      have hDiv := Nat.div_add_mod (o + k) m.size
      have hSum : base + k = m.size * ((o + k) / m.size) := by
        omega
      rw [hSum, Nat.mul_mod_right]
  · have hPlain : m.isPlain = true := by
      simp [isPlain, hOpen, hArray]
    have hPlain' := h.plain_of_plain hPlain
    have hArray' : ¬ n.isArray = true := by
      simp [(isPlain_iff.mp hPlain').2]
    rw [if_neg hArray', effectiveOffset_of_plain hPlain', effectiveOffset_of_plain hPlain] at hBase
    rw [effectiveOffset_of_plain hPlain]
    omega

end Node

-- Placing Copies

namespace Copier

open Graph Simulation

/- The copy of a node lies in another node from `j` on. -/
structure LiesAt
    (k : Copier)
    (src m : NodeId)
    (n n' : Node)
    (j : Nat) : Prop where
  source : k.source.slot src = .live n
  dest : k.dest.slot m = .live n'
  copy : ∃ c, k.copies.get? src = some c ∧
    k.dest.Leads c m j
  liesIn : n.LiesIn n' j

/- Each copied node is placed where its copy starts. -/
def placement
    (k : Copier) : Placement :=
  fun src => (k.copies.get? src).bind fun c =>
    (k.dest.effective (Cell.start c)).toOption

variable {k : Copier} {h : Graph} {src m copy : NodeId} {n n' : Node} {j : Nat}

theorem Pictured.liesAt
    (hk : k.Pictured)
    (hCopy : k.copies.get? src = some copy) :
    ∃ n m n' j, k.LiesAt src m n n' j ∧ k.dest.Leads copy m j := by
  rcases hk.copies src copy hCopy with ⟨n, hLive, m, j, n', hLeads, hLive', hIn⟩
  exact ⟨n, m, n', j, ⟨hLive, hLive', ⟨copy, hCopy, hLeads⟩, hIn.toLiesIn⟩, hLeads⟩

/- An address of a copy is read where the copy lies. -/
theorem Pictured.liesAt_of_sameAddress
    (hk : k.Pictured)
    {d x y : Cell}
    (hCopy : k.copies.get? d.node = some copy)
    (hSame : k.dest.SameAddress x
      { node := copy, offset := d.offset })
    (hy : k.dest.resolve x = .ok y) :
    ∃ n n' j, k.LiesAt d.node y.node n n' j ∧ n'.effectiveOffset y.offset =
        n'.effectiveOffset (d.offset + j) := by
  rcases hk.liesAt hCopy with ⟨n, m, n', j, hAt, hLeads⟩
  rcases leads_of_resolve hy with ⟨i, hxLeads, hOffset⟩
  rcases hSame with ⟨m', l', i', j', hxEnd, hCopyEnd, hLive, hEq⟩
  rcases hxLeads.unique hxEnd with ⟨hNode, rfl⟩
  rcases hLeads.unique hCopyEnd with ⟨rfl, rfl⟩
  rw [hAt.dest] at hLive
  cases hLive
  rw [hNode, hOffset]
  refine ⟨n, n', j, hAt, ?_⟩
  rcases hEq with hEq | ⟨_, _, hEq⟩
  · rw [hEq]
  · exact hEq

/- An array has kept its stride in the copy. -/
theorem LiesAt.stride
    (hAt : k.LiesAt src m n n' j)
    (hStrides : k.Strides k.dest)
    (hArray : n.isArray = true)
    (hArray' : n'.isArray = true) :
    n'.size = n.size := by
  rcases hAt.copy with ⟨c, hCopy, hLeads⟩
  exact hStrides src c n hCopy hAt.source hArray m j n' hLeads hAt.dest hArray'

theorem LiesAt.placement_eq
    (hAt : k.LiesAt src m n n' j) :
    k.placement src = some { node := m, offset := n'.effectiveOffset j } := by
  rcases hAt.copy with ⟨c, hCopy, hLeads⟩
  have hWord : j < wordBound := by
    have hFits := hAt.liesIn.word
    omega
  have hStart : (Cell.start c).offset < wordBound := by
    have hZero : (Cell.start c).offset = 0 := rfl
    omega
  unfold placement
  rw [hCopy, Option.bind_some, effective_of_leads (c := Cell.start c) hLeads hAt.dest hStart]
  have hSum : (Cell.start c).offset + j = j := Nat.zero_add j
  rw [hSum, if_pos hWord]
  rfl

/- Only copied nodes are placed. -/
theorem exists_of_placement
    (hk : k.Pictured)
    {place : Cell}
    (hPlace : k.placement src = some place) :
    ∃ n n' j, k.LiesAt src place.node n n' j ∧ place.offset = n'.effectiveOffset j := by
  cases hCopy : k.copies.get? src with
  | none =>
    unfold placement at hPlace
    rw [hCopy] at hPlace
    cases hPlace
  | some c =>
    rcases hk.liesAt hCopy with ⟨n, m, n', j, hAt, _⟩
    rw [hAt.placement_eq] at hPlace
    cases hPlace
    exact ⟨n, n', j, hAt, rfl⟩

/- What is known of bases depends on the layout only. -/
theorem baseAt_of_sameFacts
    {l l' : Node}
    (hLayout : l.SameFacts l')
    {o1 o2 base : Nat}
    (hBase : BaseAt l o1 o2 base) :
    BaseAt l' o1 o2 base := by
  unfold BaseAt at hBase ⊢
  rw [hLayout.collapsed, hLayout.array, hLayout.size]
  exact hBase

/-
  A cell is laid on the live cell of an address where its image is.
-/
theorem aligned_placement
    (hk : k.Pictured)
    (hStrides : k.Strides k.dest)
    (hh : Compressed k.dest h)
    {c d x y : Cell}
    (hResolve : k.source.resolve c = .ok d)
    (hCopy : k.copies.get? d.node = some copy)
    (hSame : k.dest.SameAddress x
      { node := copy, offset := d.offset })
    (hy : k.dest.resolve x = .ok y) :
    Aligned k.source h k.placement c y := by
  rcases hk.liesAt_of_sameAddress hCopy hSame hy with ⟨n, n', j, hAt, hRead⟩
  rcases hh.live _ n' hAt.dest with ⟨links, hSlot, _⟩
  refine ⟨d.node, _, ?_, hAt.placement_eq⟩
  refine ⟨n.effectiveOffset d.offset, n'.effectiveOffset y.offset, n,
    { n' with links := links }, ?_, ?_, hAt.source, hSlot,
    hAt.liesIn.collapsed, ?_⟩
  · exact effective_of_resolve hResolve hAt.source
  · rw [effective_of_resolve (resolve_of_live hSlot) hSlot]
    rfl
  · rw [hRead]
    exact baseAt_of_sameFacts (.of_links _ _) (hAt.liesIn.baseAt (hAt.stride hStrides) d.offset)

/- The caller has the links that placed nodes ask for. -/
theorem closed_placement
    (hk : k.Pictured)
    (hStrides : k.Strides k.dest)
    (hLinked : ∀ x c, k.copies.get? x = some c → k.LinksCopied True k.dest x)
    (hh : Compressed k.dest h) :
    Closed k.source h k.placement := by
  intro node place l field target hPlace hLive hGet
  rcases exists_of_placement hk hPlace with ⟨n, n', j, hAt, hBase⟩
  rw [hAt.source] at hLive
  cases hLive
  rcases hAt.copy with ⟨c, hCopy, hLeads⟩
  rcases hLinked node c hCopy with ⟨n₁, c₁, hLive₁, hCopy₁, hAll⟩
  rw [hAt.source] at hLive₁
  cases hLive₁
  rw [hCopy] at hCopy₁
  cases hCopy₁
  rcases hAll (field, target) ((OrdMap.get?_eq_some_iff _ _ _).mp hGet) with
    ⟨u, targetCopy, hResolve, hTarget, hLink⟩
  rcases hLink with ⟨m₁, l, i, f, w, hEnd, hSlot, _, hFound, _, hExact⟩
  rcases hLeads.unique hEnd with ⟨rfl, rfl⟩
  rw [hAt.dest] at hSlot
  cases hSlot
  rcases hExact trivial with ⟨hField, hSame⟩
  rcases hh.exists_link hAt.dest hFound with ⟨n'', w', hSlot, hLayout, hFound', hTo⟩
  -- The key is the one under which the link was copied.
  have hKey : n''.effectiveField (Field.make h.config
      (place.offset + field.offset) field.type?) = f := by
    rw [hLayout.effectiveField_eq, hh.config, hField, hBase]
    apply Node.effectiveField_congr
    rw [Node.effectiveOffset_add, Nat.add_comm]
  refine ⟨w', ?_, aligned_placement hk hStrides hh hResolve hTarget hSame hTo⟩
  have hThere := hh.resolve_eq (hh.wellFormed.link_has _ _ _ w' hSlot hFound')
  rw [link?_of_live (c := ⟨place.node, place.offset + field.offset⟩) hSlot,
    hKey, hFound', Option.mapM_some, hThere]
  rfl

/- A root where a cell meets the destination is laid on. -/
theorem Meets.aligned
    (hk : k.Pictured)
    (hStrides : k.Strides k.dest)
    (hh : Compressed k.dest h)
    {force : Bool}
    {c x y : Cell}
    {P : Cell → Graph → Prop}
    (hMeets : k.Meets True k.dest force c P)
    (hPlace : ∀ place, P place k.dest → k.dest.SamePlace x place)
    (hResolve : k.dest.resolve x = .ok y) :
    Aligned k.source h k.placement c y := by
  rcases hMeets with ⟨d, copy, place, hc, hCopy, _, hP, _, hSame⟩
  exact aligned_placement hk hStrides hh hc hCopy
    ((hPlace place hP).sameAddress.trans (hSame trivial))
    hResolve

end Copier

/- A value that is bound once is found where it is. -/
theorem Graph.Collected.cell?_of_valueAt
    {g h : Graph}
    (hgh : Collected g h)
    (hApart : g.Apart)
    {v : ValueId}
    {c : Cell}
    (hAt : g.ValueAt v c) :
    ∃ x y, g.SamePlace x c ∧ g.resolve x = .ok y ∧ h.cell? v = .ok (some y) := by
  rcases hAt with ⟨r, hr, x, hRoot, hPlace⟩
  rcases hgh.exists_root hRoot with ⟨y, hResolve, _, hCell⟩
  refine ⟨x, y, hPlace, hResolve, ?_⟩
  unfold cell?
  rcases hr with rfl | rfl
  · have hNone : h.rootCell? (.scalar v) = .ok none := by
      rw [hgh.rootCell?_eq]
      unfold rootCell?
      rw [hApart v x hRoot]
      rfl
    rw [hNone]
    exact hCell
  · rw [hCell]
    rfl

open Graph Simulation in
/-
  A caller simulates the callee that was copied into it if no stride has
  changed and no value is bound twice.
-/
theorem Copier.JoinedUp.isSimulation
    {k : Copier}
    {h : Graph}
    {cs : CallSite}
    {callee : FunctionDef}
    {cells : CallSiteCells}
    (hk : k.JoinedUp True cs callee cells)
    (hStrides : k.Strides k.dest)
    (hApart : k.dest.Apart)
    (hh : Compressed k.dest h) :
    IsSimulation cs callee k.source h k.placement := by
  refine ⟨?_, ?_, ?_, closed_placement hk.pictured hStrides hk.linked hh⟩
  · intro v c hCell
    have hMeets := hk.globals v c hCell
    rcases hMeets with ⟨_, _, _, _, _, _, ⟨x, hRoot, _⟩, _⟩
    rcases hh.exists_root hRoot with ⟨y, hResolve, _, hNew⟩
    refine ⟨y, hNew, (hk.globals v c hCell).aligned hk.pictured hStrides hh ?_ hResolve⟩
    rintro place ⟨x', hRoot', hPlace⟩
    rw [hRoot] at hRoot'
    cases hRoot'
    exact hPlace
  · intro v c hResult hCell
    rcases hk.call.exists_result hResult with ⟨place, hPlace, hAt⟩
    rcases hh.cell?_of_valueAt hApart hAt with ⟨x, y, hSame, hResolve, hNew⟩
    refine ⟨y, hNew, (hk.result c hCell (by
      rw [hPlace]
      rfl)).aligned hk.pictured hStrides hh ?_ hResolve⟩
    intro place' hPlace'
    rw [hPlace] at hPlace'
    cases hPlace'
    exact hSame
  · intro formal v c hActual hPointer hCell
    rcases hk.call.exists_pair hActual hPointer with ⟨place, hPair, hAt⟩
    rcases hh.cell?_of_valueAt hApart hAt with ⟨x, y, hSame, hResolve, hNew⟩
    refine ⟨y, hNew, (hk.actuals _ hPair c hCell).aligned hk.pictured hStrides hh ?_ hResolve⟩
    rintro place' rfl
    exact hSame

end HeapShape
