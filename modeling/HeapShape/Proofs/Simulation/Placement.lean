import HeapShape.Simulation
import HeapShape.Proofs.Lookup

/-
  Places of callee nodes in a caller.

  A caller simulates a callee at a call if there is a place for every callee
  node that the call reaches: the roots that the call joins are aligned, and
  the links of a placed node are matched at its place.

  The loop of the test takes pairs from a stack. One step places a node or
  fails, and it fails only if there is no simulation to find.

  Main declarations:
    * `Simulation.Lays`
    * `Simulation.Pending.step`
    * `Simulation.Step.below`
    * `Simulation.yields_insertWithin`
-/

-- Places

namespace HeapShape

open Checked

/- Where the starts of callee nodes lie in a caller. -/
abbrev Placement :=
  NodeId → Option Cell

/- Every place of the first is a place of the second. -/
def Placement.Below
    (phi psi : Placement) : Prop :=
  ∀ node place, phi node = some place →
    psi node = some place

namespace Simulation

/-
  The base that a callee node gets in a caller node when its offset `o1` is
  laid on the offset `o2`.
-/
def BaseAt
    (caller : Node)
    (o1 o2 base : Nat) : Prop :=
  if caller.isCollapsed then base = 0
  else if caller.isArray then
    (base : Int) = ((o2 : Int) - o1) % caller.size
  else o1 + base = o2

/-
  Laying a callee cell on a caller cell puts a callee node at a place. A
  collapsed node fits a collapsed node only.
-/
def Lays
    (callee caller : Graph)
    (c1 c2 : Cell)
    (node : NodeId)
    (place : Cell) : Prop :=
  ∃ o1 o2 n1 n2,
    callee.effective c1 = .ok { node := node, offset := o1 } ∧
    caller.effective c2 =
      .ok { node := place.node, offset := o2 } ∧
    callee.slot node = .live n1 ∧
    caller.slot place.node = .live n2 ∧
    (n1.isCollapsed = true → n2.isCollapsed = true) ∧
    BaseAt n2 o1 o2 place.offset

/- Cells that lie on each other where nodes are placed so. -/
def Aligned
    (callee caller : Graph)
    (phi : Placement)
    (c1 c2 : Cell) : Prop :=
  ∃ node place, Lays callee caller c1 c2 node place ∧
    phi node = some place

/- The caller has what the links of placed nodes ask for. -/
def Closed
    (callee caller : Graph)
    (phi : Placement) : Prop :=
  ∀ node place n field target,
    phi node = some place → callee.slot node = .live n →
    n.links.get? field = some target →
    ∃ image,
      caller.link?
        { node := place.node
          offset := place.offset + field.offset }
        field.type? = .ok (some image) ∧
      Aligned callee caller phi target image

/-
  The caller has a cell for every global of the callee, for the result and
  for every pointer actual that is bound to a formal, they lie on each
  other, and links are matched.
-/
structure IsSimulation
    (cs : CallSite)
    (f : FunctionDef)
    (callee caller : Graph)
    (phi : Placement) : Prop where
  globals : ∀ v c1,
    callee.rootCell? (.global v) = .ok (some c1) →
    ∃ c2, caller.rootCell? (.global v) = .ok (some c2) ∧
      Aligned callee caller phi c1 c2
  result : ∀ v c1, cs.result? = some v →
    callee.rootCell? (.result f.id) = .ok (some c1) →
    ∃ c2, caller.cell? v = .ok (some c2) ∧
      Aligned callee caller phi c1 c2
  formals : ∀ formal v c1,
    (formal, some v) ∈ f.formals.zip cs.actuals →
    formal.isPointer = true →
    callee.rootCell? (.formal formal.value) =
      .ok (some c1) →
    ∃ c2, caller.cell? v = .ok (some c2) ∧
      Aligned callee caller phi c1 c2
  links : Closed callee caller phi

variable {callee caller : Graph} {phi psi : Placement} {c1 c2 : Cell} {node : NodeId} {place : Cell}

theorem Aligned.mono
    (hAligned : Aligned callee caller phi c1 c2)
    (hBelow : phi.Below psi) :
    Aligned callee caller psi c1 c2 := by
  rcases hAligned with ⟨node, place, hLays, hPhi⟩
  exact ⟨node, place, hLays, hBelow node place hPhi⟩

-- Alignment

variable {o1 o2 : Nat}

/- The computed base is the base, if there is one. -/
theorem base?_eq_ok
    {n : Node}
    (hArray : n.isArray = true → 0 < n.size)
    {found? : Option Nat}
    (hRun : base? n o1 o2 = .ok found?)
    (base : Nat) :
    BaseAt n o1 o2 base ↔ found? = some base := by
  unfold base? at hRun
  unfold BaseAt
  by_cases hCollapsed : n.isCollapsed = true
  · rw [if_pos hCollapsed] at hRun ⊢
    cases hRun
    simp [eq_comm]
  rw [if_neg hCollapsed] at hRun ⊢
  by_cases hKind : n.isArray = true
  · have hSize := hArray hKind
    rw [if_pos (by simp [hKind, hSize]), bind_eq_ok_iff] at hRun
    rcases hRun with ⟨sum, hSum, hRun⟩
    rw [addWord_eq_ok_iff] at hSum
    rcases hSum with ⟨rfl, _⟩
    cases hRun
    rw [if_pos hKind, Option.some.injEq]
    have hLt := Nat.mod_lt o1 hSize
    have hSub : ((o2 + n.size - o1 % n.size : Nat) : Int) = (o2 : Int) - o1 +
          n.size * (1 + (o1 : Int) / n.size) := by
      have hDiv := Int.mul_ediv_add_emod (o1 : Int) n.size
      rw [Int.ofNat_sub (by omega)]
      push_cast
      rw [Int.mul_add, Int.mul_one]
      omega
    have hMod : (((o2 + n.size - o1 % n.size) % n.size :
        Nat) : Int) = ((o2 : Int) - o1) % n.size := by
      rw [Int.natCast_emod, hSub, Int.add_mul_emod_self_left]
    omega
  · rw [if_neg hKind]
    rw [if_neg (by simp [hKind])] at hRun
    split at hRun
    · cases hRun
      simp only [reduceCtorEq, iff_false]
      omega
    · cases hRun
      rw [Option.some.injEq]
      omega

theorem BaseAt.unique
    {n : Node}
    {base base' : Nat}
    (hBase : BaseAt n o1 o2 base)
    (hBase' : BaseAt n o1 o2 base') :
    base = base' := by
  unfold BaseAt at hBase hBase'
  split_ifs at hBase hBase' <;> omega

/- A cell is laid on a cell in one way only. -/
theorem Lays.unique
    {node' : NodeId}
    {place' : Cell}
    (hLays : Lays callee caller c1 c2 node place)
    (hLays' : Lays callee caller c1 c2 node' place') :
    node = node' ∧ place = place' := by
  rcases hLays with ⟨o1, o2, n1, n2, hOne, hTwo, _, hSlot, _, hBase⟩
  rcases hLays' with ⟨o1', o2', m1, m2, hOne', hTwo', _, hSlot', _, hBase'⟩
  rw [hOne] at hOne'
  rw [hTwo] at hTwo'
  cases hOne'
  injection hTwo' with hTwo'
  injection hTwo' with hNode hOffset
  rw [← hNode, hSlot] at hSlot'
  cases hSlot'
  rw [← hOffset] at hBase'
  have hBases := hBase.unique hBase'
  cases place
  cases place'
  simp_all

/-
  What `align` finds is where the cell is laid. If it finds nothing, the
  cell cannot be laid.
-/
theorem align_eq_ok
    (hCaller : caller.WellFormed)
    {found? : Option (NodeId × NodeImage)}
    (hRun : align callee caller c1 c2 = .ok found?) :
    (∀ node place, Lays callee caller c1 c2 node place →
        ∃ img, found? = some (node, img) ∧
        place = { node := img.node, offset := img.base }) ∧
    ∀ node img, found? = some (node, img) → Lays callee caller c1 c2 node
        { node := img.node, offset := img.base } ∧
      ∃ n1 n2, callee.slot node = .live n1 ∧ caller.slot img.node = .live n2 ∧
        img = NodeImage.of n1 n2 img.node img.base := by
  unfold align at hRun
  rcases of_bind hRun with ⟨d1, hResolve1, hRun⟩
  rcases of_bind hRun with ⟨d2, hResolve2, hRun⟩
  rcases Graph.leads_of_resolve hResolve1 with ⟨_, hLeads1, _⟩
  rcases Graph.leads_of_resolve hResolve2 with ⟨_, hLeads2, _⟩
  rcases hLeads1.live_end with ⟨n1, hLive1⟩
  rcases hLeads2.live_end with ⟨n2, hLive2⟩
  have hAddress1 := Graph.effective_of_resolve hResolve1 hLive1
  have hAddress2 := Graph.effective_of_resolve hResolve2 hLive2
  have hArray := (hCaller.nodes _ n2 hLive2).array_size
  rw [Graph.contents_of_live hLive1, Graph.contents_of_live hLive2] at hRun
  change (if n1.isCollapsed && !n2.isCollapsed then _
    else _) = _ at hRun
  -- Whatever lays the cell lays these two nodes.
  have hUnique : ∀ node place, Lays callee caller c1 c2 node place →
      node = d1.node ∧ place.node = d2.node ∧ (n1.isCollapsed = true → n2.isCollapsed = true) ∧
        BaseAt n2 (n1.effectiveOffset d1.offset) (n2.effectiveOffset d2.offset) place.offset := by
    rintro node place ⟨o1, o2, m1, m2, hOne, hTwo, hSlot1, hSlot2, hFits, hBase⟩
    rw [hAddress1] at hOne
    rw [hAddress2] at hTwo
    cases hOne
    injection hTwo with hTwo
    injection hTwo with hNode hOffset
    rw [← hNode, hLive2] at hSlot2
    rw [hLive1] at hSlot1
    cases hSlot1
    cases hSlot2
    rw [← hOffset] at hBase
    exact ⟨rfl, hNode.symm, hFits, hBase⟩
  split at hRun
  · next hMisfit =>
    cases hRun
    simp only [Bool.and_eq_true, Bool.not_eq_true'] at hMisfit
    refine ⟨?_, fun _ _ hNone => by cases hNone⟩
    intro node place hLays
    rcases hUnique node place hLays with ⟨_, _, hFits, _⟩
    rw [hFits hMisfit.1] at hMisfit
    cases hMisfit.2
  · next hFit =>
    rcases of_bind hRun with ⟨base?, hBase, hRun⟩
    have hSpec := base?_eq_ok hArray hBase
    cases base? with
    | none =>
      cases hRun
      refine ⟨?_, fun _ _ hNone => by cases hNone⟩
      intro node place hLays
      rcases hUnique node place hLays with ⟨_, _, _, hAt⟩
      cases (hSpec _).mp hAt
    | some base =>
      cases hRun
      constructor
      · intro node place hLays
        rcases hUnique node place hLays with ⟨rfl, hNode, _, hAt⟩
        have hOffset := Option.some.inj ((hSpec _).mp hAt)
        refine ⟨_, rfl, ?_⟩
        cases place
        simp only [NodeImage.of] at hNode hOffset ⊢
        rw [hNode, hOffset]
      · intro node img hFound
        cases hFound
        refine ⟨⟨_, _, n1, n2, hAddress1, hAddress2, hLive1,
          hLive2, ?_, (hSpec base).mpr rfl⟩, n1, n2, hLive1,
          hLive2, rfl⟩
        simpa [Bool.and_eq_true] using hFit

-- Links Of A Placed Node

/-
  A stack with the pairs that the links of a node at a place ask for, on top
  of an older stack.
-/
structure Asked
    (caller : Graph)
    (place : Cell)
    (links : List (Field × Cell))
    (work work' : List (Cell × Cell)) : Prop where
  old : ∀ pair ∈ work, pair ∈ work'
  new : ∀ field target, (field, target) ∈ links →
    ∃ image,
      caller.link?
        { node := place.node
          offset := place.offset + field.offset }
        field.type? = .ok (some image) ∧
      (target, image) ∈ work'
  only : ∀ pair ∈ work', pair ∈ work ∨
    ∃ field, (field, pair.1) ∈ links ∧
      caller.link?
        { node := place.node
          offset := place.offset + field.offset }
        field.type? = .ok (some pair.2)
  length : work'.length = work.length + links.length

theorem linkPairs_eq_ok
    (place : Cell)
    {links : List (Field × Cell)}
    {work : List (Cell × Cell)}
    {found? : Option (List (Cell × Cell))}
    (hRun : linkPairs caller place.node place.offset links work = .ok found?) :
    (∃ work', found? = some work' ∧ Asked caller place links work work') ∨
    (found? = none ∧ ∃ field target, (field, target) ∈ links ∧
        caller.link? { node := place.node, offset := place.offset + field.offset }
          field.type? = .ok none) := by
  induction links generalizing work with
  | nil =>
    cases hRun
    exact Or.inl ⟨work, rfl, fun _ hMem => hMem, fun _ _ hMem => absurd hMem List.not_mem_nil,
      fun _ hMem => Or.inl hMem, rfl⟩
  | cons link rest ih =>
    rcases link with ⟨field, target⟩
    unfold linkPairs at hRun
    rcases of_bind hRun with ⟨offset, hOffset, hRun⟩
    rw [addWord_eq_ok_iff] at hOffset
    rcases hOffset with ⟨rfl, _⟩
    rcases of_bind hRun with ⟨image?, hLink, hRun⟩
    cases image? with
    | none =>
      cases hRun
      exact Or.inr ⟨rfl, field, target, List.mem_cons_self, hLink⟩
    | some image =>
      rcases ih hRun with
        ⟨work', hFound, hAsked⟩ |
        ⟨hNone, field', target', hMem, hLack⟩
      · refine Or.inl ⟨work', hFound, ?_, ?_, ?_, ?_⟩
        · intro pair hMem
          exact hAsked.old pair (List.mem_cons_of_mem _ hMem)
        · intro field' target' hMem
          rcases List.mem_cons.mp hMem with hHead | hTail
          · cases hHead
            exact ⟨image, hLink, hAsked.old _ List.mem_cons_self⟩
          · exact hAsked.new field' target' hTail
        · intro pair hMem
          rcases hAsked.only pair hMem with hOld | ⟨field', hIn, hFollow⟩
          · rcases List.mem_cons.mp hOld with hHead | hTail
            · subst hHead
              exact Or.inr ⟨field, List.mem_cons_self, hLink⟩
            · exact Or.inl hTail
          · exact Or.inr ⟨field', List.mem_cons_of_mem _ hIn, hFollow⟩
        · rw [hAsked.length, List.length_cons, List.length_cons]
          omega
      · exact Or.inr ⟨hNone, field', target', List.mem_cons_of_mem _ hMem, hLack⟩

-- One Pair

/- The places that a simulation records. -/
def places
    (s : Simulation) : Placement :=
  fun node => (s.image? node).map fun img =>
    { node := img.node, offset := img.base }

variable {s s' : Simulation} {img : NodeImage} {work : List (Cell × Cell)} {fuel : Nat}

theorem places_of_image?
    (hImage : s.image? node = some img) :
    s.places node = some { node := img.node, offset := img.base } := by
  unfold places
  rw [hImage]
  rfl

theorem image?_record
    (other : NodeId) :
    (s.record node img).image? other = if other =
      node then some img else s.image? other :=
  OrdMap.get?_insert _ _ _ _

/- A new place is added to the others. -/
theorem places_record
    (other : NodeId) :
    (s.record node img).places other =
      if other = node then
        some { node := img.node, offset := img.base }
      else s.places other := by
  unfold places
  rw [image?_record]
  split <;> rfl

theorem below_record
    (hNew : s.image? node = none)
    (img : NodeImage) :
    s.places.Below (s.record node img).places := by
  intro other place hPlace
  rw [places_record]
  split
  · next hEq =>
    subst hEq
    unfold places at hPlace
    rw [hNew] at hPlace
    cases hPlace
  · exact hPlace

/-
  What can become of the pair on top of a stack. Either it cannot be laid as
  the places so far demand, or it is laid already, or it places one more
  node, whose links may lack a match.
-/
inductive Step
    (callee caller : Graph)
    (s : Simulation)
    (c1 c2 : Cell)
    (work : List (Cell × Cell)) :
    Simulation → List (Cell × Cell) → Prop
| unlaid
    (hUnlaid : ∀ node place,
      ¬ Lays callee caller c1 c2 node place) :
    Step callee caller s c1 c2 work s.fail []
| elsewhere
    {node : NodeId} {place other : Cell} (hLays : Lays callee caller c1 c2 node place)
    (hPlace : s.places node = some other)
    (hOther : other ≠ place) :
    Step callee caller s c1 c2 work s.fail []
| known
    {node : NodeId} {place : Cell} (hLays : Lays callee caller c1 c2 node place)
    (hPlace : s.places node = some place) :
    Step callee caller s c1 c2 work s work
| placed
    {node : NodeId} {img : NodeImage} {n1 n2 : Node} {work' : List (Cell × Cell)}
    (hLays : Lays callee caller c1 c2 node
      { node := img.node, offset := img.base })
    (hNew : s.image? node = none)
    (hLive : callee.slot node = .live n1)
    (hImage : caller.slot img.node = .live n2)
    (hImg : img = NodeImage.of n1 n2 img.node img.base)
    (hAsked : Asked caller
      { node := img.node, offset := img.base }
      n1.links.entries work work') :
    Step callee caller s c1 c2 work (s.record node img) work'
| unmatched
    {node : NodeId} {img : NodeImage} {n1 : Node} {field : Field} {target : Cell}
    (hLays : Lays callee caller c1 c2 node
      { node := img.node, offset := img.base })
    (hLive : callee.slot node = .live n1)
    (hLink : n1.links.get? field = some target)
    (hLack : caller.link?
      { node := img.node
        offset := img.base + field.offset }
      field.type? = .ok none) :
    Step callee caller s c1 c2 work
      (s.record node img).fail []

/- The loop takes one such step and goes on. -/
theorem insertWithin_cases
    (hCaller : caller.WellFormed)
    (hRun : insertWithin callee caller (fuel + 1) ((c1, c2) :: work) s = .ok s') :
    ∃ next work', Step callee caller s c1 c2 work next work' ∧
      insertWithin callee caller fuel work' next = .ok s' := by
  have hEnd : ∀ t : Simulation, insertWithin callee caller fuel [] t = .ok t := by
    intro t
    unfold insertWithin
    rfl
  unfold insertWithin at hRun
  rcases of_bind hRun with ⟨found?, hAlign, hRun⟩
  rcases align_eq_ok hCaller hAlign with ⟨hUnlaid, hLaid⟩
  cases found? with
  | none =>
    cases hRun
    refine ⟨_, _, .unlaid ?_, hEnd _⟩
    intro node place hLays
    rcases hUnlaid node place hLays with ⟨_, hNone, _⟩
    cases hNone
  | some found =>
    rcases found with ⟨node, img⟩
    rcases hLaid node img rfl with ⟨hLays, n1, n2, hLive, hImage, hImg⟩
    dsimp only at hRun
    cases hOld : s.image? node with
    | some old =>
      rw [hOld] at hRun
      have hPlace := places_of_image? hOld
      dsimp only at hRun
      split at hRun
      · next hSame =>
        rw [hSame.1, hSame.2] at hPlace
        exact ⟨_, _, .known hLays hPlace, hRun⟩
      · next hDiffer =>
        cases hRun
        refine ⟨_, _, .elsewhere hLays hPlace ?_, hEnd _⟩
        intro hEq
        injection hEq with hNode hBase
        exact hDiffer ⟨hNode, hBase⟩
    | none =>
      rw [hOld] at hRun
      dsimp only at hRun
      rcases of_bind hRun with ⟨n, hContents, hRun⟩
      rcases Graph.eq_of_contents hLive hContents with rfl
      rcases of_bind hRun with ⟨work?, hPairs, hRun⟩
      rcases linkPairs_eq_ok ⟨img.node, img.base⟩ hPairs with
        ⟨work', rfl, hAsked⟩ |
        ⟨rfl, field, target, hMem, hLack⟩
      · exact ⟨_, _, .placed hLays hOld hLive hImage hImg hAsked, hRun⟩
      · cases hRun
        exact ⟨_, _, .unmatched hLays hLive ((OrdMap.get?_eq_some_iff _ _ _).mpr hMem) hLack,
          hEnd _⟩

-- The Stack Of Pairs

/-
  The invariant of the loop: every recorded image is that of a live node,
  and every link of a placed node is matched, or its match waits on the
  stack.
-/
structure Pending
    (callee caller : Graph)
    (work : List (Cell × Cell))
    (s : Simulation) : Prop where
  images : ∀ node img, s.image? node = some img →
    ∃ n1 n2, callee.slot node = .live n1 ∧
      caller.slot img.node = .live n2 ∧
      img = NodeImage.of n1 n2 img.node img.base
  links : ∀ node place n field target,
    s.places node = some place →
    callee.slot node = .live n →
    n.links.get? field = some target →
    ∃ image,
      caller.link?
        { node := place.node
          offset := place.offset + field.offset }
        field.type? = .ok (some image) ∧
      (Aligned callee caller s.places target image ∨
        (target, image) ∈ work)

variable {work' : List (Cell × Cell)}

/- With an empty stack every link is matched. -/
theorem Pending.closed
    (hs : Pending callee caller [] s) :
    Closed callee caller s.places := by
  intro node place n field target hPlace hLive hLink
  rcases hs.links node place n field target hPlace hLive hLink
    with ⟨image, hFollow, hAligned | hWaiting⟩
  · exact ⟨image, hFollow, hAligned⟩
  · exact absurd hWaiting List.not_mem_nil

/- A step keeps the invariant, unless it fails. -/
theorem Pending.step
    (hs : Pending callee caller ((c1, c2) :: work) s)
    (hStep : Step callee caller s c1 c2 work s' work')
    (hFunction : s'.failed = false) :
    Pending callee caller work' s' ∧ s.places.Below s'.places ∧
      Aligned callee caller s'.places c1 c2 ∧
      ∀ pair ∈ work, pair ∈ work' := by
  cases hStep with
  | unlaid _ => cases hFunction
  | elsewhere _ _ _ => cases hFunction
  | unmatched _ _ _ _ => cases hFunction
  | known hLays hPlace =>
    have hHead : Aligned callee caller s.places c1 c2 := ⟨_, _, hLays, hPlace⟩
    refine ⟨⟨hs.images, ?_⟩, fun _ _ h => h, hHead, fun _ h => h⟩
    intro node place n field target hPlace hLive hLink
    rcases hs.links node place n field target hPlace hLive hLink with
      ⟨image, hFollow, hAligned | hWaiting⟩
    · exact ⟨image, hFollow, Or.inl hAligned⟩
    · refine ⟨image, hFollow, ?_⟩
      rcases List.mem_cons.mp hWaiting with hEq | hWaiting
      · cases hEq
        exact Or.inl hHead
      · exact Or.inr hWaiting
  | @placed fresh img n1 n2 _ hLays hNew hLive hImage hImg
      hAsked =>
      have hBelow := below_record hNew img
      have hHead : Aligned callee caller (s.record fresh img).places c1 c2 := by
        refine ⟨fresh, _, hLays, ?_⟩
        rw [places_record, if_pos rfl]
      refine ⟨⟨?_, ?_⟩, hBelow, hHead, hAsked.old⟩
      · intro node img' hGet
        rw [image?_record] at hGet
        split at hGet
        · next hEq =>
          cases hGet
          subst hEq
          exact ⟨n1, n2, hLive, hImage, hImg⟩
        · exact hs.images node img' hGet
      · intro node place n field target hPlace hSlot hLink
        rw [places_record] at hPlace
        split at hPlace
        · next hEq =>
          -- The links of the new node were put on the stack.
          cases hPlace
          subst hEq
          rw [hLive] at hSlot
          cases hSlot
          rcases hAsked.new field target ((OrdMap.get?_eq_some_iff _ _ _).mp hLink) with
            ⟨image, hFollow, hWaiting⟩
          exact ⟨image, hFollow, Or.inr hWaiting⟩
        · rcases hs.links node place n field target hPlace hSlot hLink with
            ⟨image, hFollow, hAligned | hWaiting⟩
          · exact ⟨image, hFollow, Or.inl (hAligned.mono hBelow)⟩
          · refine ⟨image, hFollow, ?_⟩
            rcases List.mem_cons.mp hWaiting with hEq | hMem
            · cases hEq
              exact Or.inl hHead
            · exact Or.inr (hAsked.old _ hMem)

/- A step fails only if there is no simulation to find. -/
theorem Step.below
    (hStep : Step callee caller s c1 c2 work s' work')
    (hFunction : s.failed = false)
    (hClosed : Closed callee caller phi)
    (hHead : Aligned callee caller phi c1 c2)
    (hWork : ∀ pair ∈ work, Aligned callee caller phi pair.1 pair.2)
    (hBelow : s.places.Below phi) :
    s'.failed = false ∧ s'.places.Below phi ∧ ∀ pair ∈ work',
        Aligned callee caller phi pair.1 pair.2 := by
  rcases hHead with ⟨node, place, hHead, hPhi⟩
  cases hStep with
  | unlaid hUnlaid => exact absurd hHead (hUnlaid node place)
  | elsewhere hLays hPlace hOther =>
    rcases hLays.unique hHead with ⟨rfl, rfl⟩
    have hEq := hBelow _ _ hPlace
    rw [hPhi] at hEq
    exact absurd (Option.some.inj hEq).symm hOther
  | known _ _ => exact ⟨hFunction, hBelow, hWork⟩
  | placed hLays hNew hLive _ _ hAsked =>
    rcases hLays.unique hHead with ⟨rfl, rfl⟩
    refine ⟨hFunction, ?_, ?_⟩
    · intro other place hPlace
      rw [places_record] at hPlace
      split at hPlace
      · next hEq =>
        rw [hEq, hPhi]
        exact hPlace
      · exact hBelow other place hPlace
    · intro pair hMem
      rcases hAsked.only pair hMem with hOld | ⟨field, hLink, hFollow⟩
      · exact hWork pair hOld
      · rcases hClosed _ _ _ field pair.1 hPhi hLive
            ((OrdMap.get?_eq_some_iff _ _ _).mpr hLink) with
          ⟨image, hFollow', hAligned⟩
        rw [hFollow] at hFollow'
        cases hFollow'
        exact hAligned
  | unmatched hLays hLive hLink hLack =>
    rcases hLays.unique hHead with ⟨rfl, rfl⟩
    rcases hClosed _ _ _ _ _ hPhi hLive hLink with ⟨image, hFollow, _⟩
    rw [hLack] at hFollow
    cases hFollow

/- A failure is never undone. -/
theorem failed_of_insertWithin
    (hCaller : caller.WellFormed)
    (hRun : insertWithin callee caller fuel work s = .ok s')
    (hFailed : s.failed = true) :
    s'.failed = true := by
  induction fuel generalizing work s with
  | zero =>
    cases work with
    | nil => cases hRun; exact hFailed
    | cons pair rest => cases hRun
  | succ fuel ih =>
    cases work with
    | nil => cases hRun; exact hFailed
    | cons pair rest =>
      rcases insertWithin_cases hCaller hRun with ⟨next, work', hStep, hRest⟩
      apply ih hRest
      cases hStep with
      | unlaid _ => rfl
      | elsewhere _ _ _ => rfl
      | unmatched _ _ _ _ => rfl
      | known _ _ => exact hFailed
      | placed _ _ _ _ _ _ => exact hFailed

/- What the loop finds is closed, unless it fails. -/
theorem Pending.of_insertWithin
    (hCaller : caller.WellFormed)
    (hs : Pending callee caller work s)
    (hRun : insertWithin callee caller fuel work s = .ok s')
    (hFunction : s'.failed = false) :
    Pending callee caller [] s' ∧ s.places.Below s'.places ∧ ∀ pair ∈ work,
        Aligned callee caller s'.places pair.1 pair.2 := by
  induction fuel generalizing work s with
  | zero =>
    cases work with
    | nil =>
      cases hRun
      exact ⟨hs, fun _ _ h => h, fun _ hMem => absurd hMem List.not_mem_nil⟩
    | cons pair rest => cases hRun
  | succ fuel ih =>
    cases work with
    | nil =>
      cases hRun
      exact ⟨hs, fun _ _ h => h, fun _ hMem => absurd hMem List.not_mem_nil⟩
    | cons pair rest =>
      rcases insertWithin_cases hCaller hRun with ⟨next, work', hStep, hRest⟩
      have hNext : next.failed = false := by
        apply Bool.eq_false_of_not_eq_true
        intro hFailed
        rw [failed_of_insertWithin hCaller hRest hFailed] at hFunction
        cases hFunction
      rcases hs.step hStep hNext with ⟨hPending, hBelow, hHead, hOld⟩
      rcases ih hPending hRest with ⟨hPending', hBelow', hAll⟩
      refine ⟨hPending', ?_, ?_⟩
      · intro node place hPlace
        exact hBelow' _ _ (hBelow _ _ hPlace)
      · intro other hMem
        rcases List.mem_cons.mp hMem with rfl | hMem
        · exact hHead.mono hBelow'
        · exact hAll other (hOld other hMem)

/- The loop fails only if there is no simulation to find. -/
theorem insertWithin_below
    (hCaller : caller.WellFormed)
    (hRun : insertWithin callee caller fuel work s = .ok s')
    (hFunction : s.failed = false)
    (hClosed : Closed callee caller phi)
    (hWork : ∀ pair ∈ work, Aligned callee caller phi pair.1 pair.2)
    (hBelow : s.places.Below phi) :
    s'.failed = false ∧ s'.places.Below phi := by
  induction fuel generalizing work s with
  | zero =>
    cases work with
    | nil =>
      cases hRun
      exact ⟨hFunction, hBelow⟩
    | cons pair rest => cases hRun
  | succ fuel ih =>
    cases work with
    | nil =>
      cases hRun
      exact ⟨hFunction, hBelow⟩
    | cons pair rest =>
      rcases insertWithin_cases hCaller hRun with ⟨next, work', hStep, hRest⟩
      rcases hStep.below hFunction hClosed (hWork pair List.mem_cons_self) (fun other hMem =>
            hWork other (List.mem_cons_of_mem _ hMem))
          hBelow with
        ⟨hNext, hBelow', hWork'⟩
      exact ih hRest hNext hWork' hBelow'

-- The Bound Of The Loop

/-
  How many links the nodes of a list have that are not yet placed. No more
  pairs than that are still to come.
-/
def linksLeft
    (s : Simulation)
    (nodes : List (NodeId × Node)) : Nat :=
  Graph.weightLeft (fun n => n.links.size)
    (fun id => (s.image? id).isSome) nodes

variable {n : Node}

theorem linksLeft_le_total
    (nodes : List (NodeId × Node)) :
    s.linksLeft nodes ≤ (nodes.map fun p => p.2.links.size).foldl (· + ·) 0 := by
  have hAll := Graph.weightLeft_le (w := fun n => n.links.size)
    (d := fun id => (s.image? id).isSome) nodes 0
  rwa [Nat.zero_add] at hAll

/- Placing a node takes its links from those left. -/
theorem linksLeft_record
    {nodes : List (NodeId × Node)}
    (hDistinct : nodes.Pairwise fun p q => p.1 ≠ q.1)
    (hMem : (node, n) ∈ nodes)
    (hNew : s.image? node = none)
    (img : NodeImage) :
    (s.record node img).linksLeft nodes + n.links.size = s.linksLeft nodes := by
  refine Graph.weightLeft_mark (w := fun n => n.links.size) hDistinct hMem ?_ ?_
  · rw [hNew]
    rfl
  · intro x
    rw [image?_record]
    split <;> rfl

theorem yields_base?
    (n : Node)
    (o1 o2 : Nat) :
    Yields (base? n o1 o2) fun _ => True := by
  unfold base?
  split
  · exact .ok trivial
  · split
    · exact (yields_addWord _ _).bind fun _ _ =>
        .ok trivial
    · split <;> exact .ok trivial

theorem yields_align
    (hCallee : callee.WellFormed)
    (hCaller : caller.WellFormed)
    (h1 : callee.Has c1)
    (h2 : caller.Has c2) :
    Yields (align callee caller c1 c2) fun _ => True := by
  unfold align
  refine (hCallee.yields_resolve h1).bind ?_
  rintro d1 ⟨_, n1, hLive1⟩
  refine (hCaller.yields_resolve h2).bind ?_
  rintro d2 ⟨_, n2, hLive2⟩
  rw [Graph.contents_of_live hLive1, Graph.contents_of_live hLive2]
  change Yields (if _ then _ else _) _
  split
  · exact .ok trivial
  · refine (yields_base? _ _ _).bind ?_
    intro base? _
    cases base? with
    | none => exact .ok trivial
    | some base => exact .ok trivial

theorem yields_linkPairs
    (hCaller : caller.WellFormed)
    (hLive : caller.slot node = .live n)
    (base : Nat)
    (links : List (Field × Cell)) :
    Yields (linkPairs caller node base links work) fun _ => True := by
  induction links generalizing work with
  | nil => exact .ok trivial
  | cons link rest ih =>
    unfold linkPairs
    refine (yields_addWord _ _).bind ?_
    rintro offset ⟨rfl, hWord⟩
    refine (hCaller.yields_link? ⟨Graph.hasNode_of_live hLive, hWord⟩).bind ?_
    intro image? _
    cases image? with
    | none => exact .ok trivial
    | some image => exact ih

/-
  The loop never runs out of fuel. Each round takes a pair from the stack,
  and a round that adds pairs places a node and takes its links from those
  left.
-/
theorem yields_insertWithin
    (hCallee : callee.WellFormed)
    (hCaller : caller.WellFormed)
    (hWork : ∀ pair ∈ work, callee.Has pair.1 ∧ caller.Has pair.2)
    (hFuel : work.length + s.linksLeft callee.liveNodes ≤ fuel) :
    Yields (insertWithin callee caller fuel work s) fun _ => True := by
  induction fuel generalizing work s with
  | zero =>
    cases work with
    | nil => exact .ok trivial
    | cons pair rest =>
      rw [List.length_cons] at hFuel
      omega
  | succ fuel ih =>
    cases work with
    | nil => exact .ok trivial
    | cons pair rest =>
      rw [List.length_cons] at hFuel
      rcases hWork pair List.mem_cons_self with ⟨h1, h2⟩
      have hRest : ∀ other ∈ rest, callee.Has other.1 ∧ caller.Has other.2 := fun other hMem =>
        hWork other (List.mem_cons_of_mem _ hMem)
      unfold insertWithin
      refine (yields_align hCallee hCaller h1 h2).and_eq.bind ?_
      rintro found? ⟨_, hAlign⟩
      cases found? with
      | none => exact .ok trivial
      | some found =>
        rcases found with ⟨node, img⟩
        rcases (align_eq_ok hCaller hAlign).2 node img
            rfl with
          ⟨_, n1, n2, hLive, hImage, _⟩
        dsimp only
        split
        · split
          · exact ih hRest (by omega)
          · exact .ok trivial
        · next hNew =>
          rw [Graph.contents_of_live hLive]
          refine (yields_linkPairs hCaller hImage img.base n1.links.entries).and_eq.bind ?_
          rintro work? ⟨_, hPairs⟩
          rcases linkPairs_eq_ok ⟨img.node, img.base⟩ hPairs with ⟨work', rfl, hAsked⟩ | ⟨rfl, _⟩
          · have hLeft := linksLeft_record (Graph.pairwise_liveNodes callee)
              (Graph.mem_liveNodes.mpr hLive) hNew img
            have hLength := hAsked.length
            apply ih
            · intro other hMem
              rcases hAsked.only other hMem with hOld | ⟨field, hIn, hFollow⟩
              · exact hRest other hOld
              · refine ⟨?_, hCaller.has_of_link? hFollow⟩
                exact hCallee.link_has _ _ field _ hLive ((OrdMap.get?_eq_some_iff _ _ _).mpr hIn)
            · unfold OrdMap.size at hLeft
              omega
          · exact .ok trivial

end Simulation

end HeapShape
