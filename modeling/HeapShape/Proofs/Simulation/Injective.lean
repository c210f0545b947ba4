import HeapShape.Proofs.Simulation.Exact

/-
  What holds of every placed node.

  The simulation of a call is the least one. So what holds of the nodes that
  are laid at the roots of the call, and goes on along links, holds of every
  node that is placed. If no caller node holds two callee nodes, then the
  test for injectivity finds no overlap.

  Main declarations:
    * `Simulation.Passes`
    * `Simulation.places_induction`
    * `Simulation.isInjective_of_apart`
    * `Simulation.yields_isInjective`
-/

-- Induction Over A Simulation

namespace HeapShape

open Checked

namespace Simulation

/- The cells that a caller passes for roots of the callee. -/
inductive Passes
    (cs : CallSite)
    (f : FunctionDef)
    (caller : Graph) :
    Root → Cell → Prop
  | global {v : GlobalId} {c : Cell}
      (hCell : caller.rootCell? (.global v) = .ok (some c)) :
      Passes cs f caller (.global v) c
  | result {v : ValueId} {c : Cell}
      (hResult : cs.result? = some v)
      (hCell : caller.cell? v = .ok (some c)) :
      Passes cs f caller (.result f.id) c
  | formal {formal : Formal} {v : ValueId} {c : Cell}
      (hActual :
        (formal, some v) ∈ f.formals.zip cs.actuals)
      (hPointer : formal.isPointer = true)
      (hCell : caller.cell? v = .ok (some c)) :
      Passes cs f caller (.formal formal.value) c

variable {callee caller : Graph} {cs : CallSite} {f : FunctionDef} {s : Simulation}

/-
  What holds where the roots are laid, and is kept along the links of placed
  nodes, holds of every placed node.
-/
theorem places_induction
    (hCaller : caller.WellFormed)
    (hRun : ofCall cs f callee caller = .ok s)
    (hFunction : s.isFunction = true)
    {P : NodeId → Cell → Prop}
    (hRoots : ∀ r c1 c2 node place,
      callee.rootCell? r = .ok (some c1) →
      Passes cs f caller r c2 →
      Lays callee caller c1 c2 node place → P node place)
    (hLinks : ∀ node place n field target image next place',
      P node place → callee.slot node = .live n →
      n.links.get? field = some target →
      caller.link? { node := place.node, offset := place.offset + field.offset }
        field.type? = .ok (some image) →
      Lays callee caller target image next place' → P next place')
    {node : NodeId}
    {place : Cell}
    (hPlace : s.places node = some place) :
    P node place := by
  classical
  have hSim := isSimulation_places hCaller hRun hFunction
  -- The places where `P` holds make up a simulation.
  let phi : Placement := fun node =>
    (s.places node).filter fun place => P node place
  have hPhi : ∀ node place, phi node = some place ↔ s.places node = some place ∧ P node place := by
    intro node place
    simp only [phi, Option.filter_eq_some_iff, decide_eq_true_eq]
  have hKeep : ∀ c1 c2, Aligned callee caller s.places c1 c2 →
      (∀ node place, Lays callee caller c1 c2 node place → P node place) →
      Aligned callee caller phi c1 c2 := by
    rintro c1 c2 ⟨node, place, hLays, hPlace⟩ hHolds
    exact ⟨node, place, hLays, (hPhi node place).mpr ⟨hPlace, hHolds _ _ hLays⟩⟩
  have hSim' : IsSimulation cs f callee caller phi := by
    refine ⟨?_, ?_, ?_, ?_⟩
    · intro v c1 hCell
      rcases hSim.globals v c1 hCell with ⟨c2, hCell', hAligned⟩
      exact ⟨c2, hCell', hKeep _ _ hAligned fun _ _ =>
        hRoots _ _ _ _ _ hCell (.global hCell')⟩
    · intro v c1 hResult hCell
      rcases hSim.result v c1 hResult hCell with ⟨c2, hCell', hAligned⟩
      exact ⟨c2, hCell', hKeep _ _ hAligned fun _ _ =>
        hRoots _ _ _ _ _ hCell (.result hResult hCell')⟩
    · intro formal v c1 hActual hPointer hCell
      rcases hSim.formals formal v c1 hActual hPointer hCell with ⟨c2, hCell', hAligned⟩
      exact ⟨c2, hCell', hKeep _ _ hAligned fun _ _ =>
        hRoots _ _ _ _ _ hCell (.formal hActual hPointer hCell')⟩
    · intro node place n field target hPlaced hLive hGet
      rcases (hPhi node place).mp hPlaced with ⟨hOld, hHolds⟩
      rcases hSim.links node place n field target hOld hLive hGet with ⟨image, hLink, hAligned⟩
      exact ⟨image, hLink, hKeep _ _ hAligned fun _ _ =>
        hLinks _ _ _ _ _ _ _ _ hHolds hLive hGet hLink⟩
  have hBelow := (places_below hCaller hRun hSim').2
  exact ((hPhi node place).mp (hBelow node place hPlace)).2

end Simulation

-- Nodes That Stay Apart

/- No caller node holds two callee nodes. -/
def Placement.Apart
    (phi : Placement) : Prop :=
  ∀ node node' place place', phi node = some place →
    phi node' = some place' → place.node = place'.node →
      node = node'

namespace Simulation

variable {s : Simulation} {α : Type}

theorem pairs_eq_nil
    {members : List α}
    (hFew : members.length ≤ 1) :
    pairs members = [] := by
  rcases members with _ | ⟨a, _ | ⟨b, rest⟩⟩
  · rfl
  · rfl
  · simp at hFew

/- A caller node that holds one callee node at most. -/
theorem length_imagesIn_le
    (hApart : s.places.Apart)
    (node : NodeId) :
    (s.imagesIn node).length ≤ 1 := by
  have hNodes : (s.imagesIn node).Pairwise fun a b => a.node ≠ b.node := by
    apply List.Pairwise.filter
    unfold OrdMap.values
    rw [List.pairwise_map]
    have hKeys := List.pairwise_map.mp s.images.increasing
    refine hKeys.imp_of_mem ?_
    intro p q hp hq hLt hSame
    have hEntry : ∀ e ∈ s.images.entries, s.places e.1 =
        some { node := e.2.node, offset := e.2.base } :=
      fun e he => places_of_image? ((OrdMap.get?_eq_some_iff _ _ _).mpr he)
    rw [hApart _ _ _ _ (hEntry p hp) (hEntry q hq) hSame, Std.ReflOrd.compare_self] at hLt
    cases hLt
  have hHere : ∀ img ∈ s.imagesIn node, img.node = node := by
    intro img hMem
    exact eq_of_beq (List.mem_filter.mp hMem).2
  generalize s.imagesIn node = members at hNodes hHere
  rcases members with _ | ⟨a, _ | ⟨b, rest⟩⟩
  · exact Nat.zero_le _
  · exact Nat.le_refl _
  · have hNe := (List.pairwise_cons.mp hNodes).1 b List.mem_cons_self
    rw [hHere a List.mem_cons_self, hHere b (by simp)] at hNe
    exact absurd rfl hNe

/- Nodes in different caller nodes do not overlap. -/
theorem isInjective_of_apart
    (hApart : s.places.Apart)
    (only : Bool) :
    s.isInjective only = .ok true := by
  have hNone : ((s.groups only).map pairs).flatten = [] := by
    rw [List.flatten_eq_nil_iff]
    intro members hMem
    rcases List.mem_map.mp hMem with ⟨group, hGroup, rfl⟩
    rcases List.mem_map.mp (List.mem_filter.mp hGroup).1 with ⟨node, _, rfl⟩
    exact pairs_eq_nil (length_imagesIn_le hApart node)
  unfold isInjective
  rw [hNone]
  rfl

theorem yields_overlap
    (a b : NodeImage) :
    Yields (overlap a b) fun _ => True := by
  unfold overlap
  split
  · exact .ok trivial
  · refine (yields_addWord _ _).bind fun _ _ => ?_
    exact (yields_addWord _ _).bind fun _ _ =>
      .ok trivial

theorem yields_nonePass
    {test : α → Checked Bool}
    (hTest : ∀ a, Yields (test a) fun _ => True)
    (xs : List α) :
    Yields (nonePass test xs) fun _ => True := by
  induction xs with
  | nil => exact .ok trivial
  | cons a rest ih =>
    unfold nonePass
    refine (hTest a).bind fun passes _ => ?_
    cases passes with
    | true => exact .ok trivial
    | false => exact ih

/- The test for injectivity fails by overflow only. -/
theorem yields_isInjective
    (s : Simulation)
    (only : Bool) :
    Yields (s.isInjective only) fun _ => True := by
  unfold isInjective
  refine yields_nonePass ?_ _
  intro p
  exact yields_overlap p.1 p.2

end Simulation

end HeapShape
