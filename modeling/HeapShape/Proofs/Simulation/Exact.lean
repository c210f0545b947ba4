import HeapShape.Proofs.Simulation.Placement

/-
  The simulation test is exact.

  The test of a call maps the roots that the call joins, one pair after the
  other. It succeeds exactly if the caller simulates the callee, and it
  records the least simulation.

  Main declarations:
    * `Simulation.isSimulation_iff`
    * `Simulation.addPairs_perm`
    * `Simulation.yields_ofCall`
    * `simulation_test_is_exact`
-/

-- The Roots Of A Call

namespace HeapShape

open Checked

namespace Simulation

/- Both cells of a pair are there and lie on each other. -/
def Met
    (callee caller : Graph)
    (phi : Placement)
    (pair : RootPair) : Prop :=
  ∀ c1 image, pair.callee = .ok (some c1) →
    pair.caller? = some image →
    ∃ c2, image = .ok (some c2) ∧
      Aligned callee caller phi c1 c2

variable {callee caller : Graph} {phi psi : Placement}
variable {cs : CallSite} {f : FunctionDef} {s s' : Simulation}
variable {pair : RootPair} {pairs : List RootPair}

theorem Met.mono
    (hMet : Met callee caller phi pair)
    (hBelow : phi.Below psi) :
    Met callee caller psi pair := by
  intro c1 image hCallee hImage
  rcases hMet c1 image hCallee hImage with ⟨c2, hCaller, hAligned⟩
  exact ⟨c2, hCaller, hAligned.mono hBelow⟩

/- A simulation meets the pairs of the call, and is closed. -/
theorem isSimulation_iff :
    IsSimulation cs f callee caller phi ↔
      (∀ pair ∈ rootPairs cs f callee caller, Met callee caller phi pair) ∧
      Closed callee caller phi := by
  unfold rootPairs
  simp only [List.forall_mem_append, List.forall_mem_map, List.forall_mem_singleton]
  constructor
  · intro hSim
    refine ⟨⟨⟨?_, ?_⟩, ?_⟩, hSim.links⟩
    · intro v _ c1 image hCallee hImage
      cases hImage
      exact hSim.globals v c1 hCallee
    · intro c1 image hCallee hImage
      rcases Option.map_eq_some_iff.mp hImage with ⟨v, hResult, rfl⟩
      exact hSim.result v c1 hResult hCallee
    · intro bound hBound c1 image hCallee hImage
      cases hImage
      rcases FunctionDef.mem_pointerPairs.mp hBound with ⟨formal, hZip, hPointer, hValue⟩
      rw [← hValue] at hCallee
      exact hSim.formals formal bound.2 c1 hZip hPointer hCallee
  · rintro ⟨⟨⟨hGlobals, hResult⟩, hFormals⟩, hLinks⟩
    refine ⟨?_, ?_, ?_, hLinks⟩
    · intro v c1 hCallee
      rcases Graph.root_of_rootCell? hCallee with ⟨c, hRoot, _⟩
      exact hGlobals v (Graph.mem_globalNames.mpr ⟨c, hRoot⟩) c1 _ hCallee rfl
    · intro v c1 hValue hCallee
      refine hResult c1 _ hCallee ?_
      dsimp only
      rw [hValue]
      rfl
    · intro formal v c1 hZip hPointer hCallee
      exact hFormals (formal.value, v) (FunctionDef.mem_pointerPairs.mpr
          ⟨formal, hZip, hPointer, rfl⟩)
        c1 _ hCallee rfl

/-
  What can become of a pair of roots: it asks for nothing, the caller has no
  cell for it, or its cells are mapped.
-/
theorem addPair_cases
    (hRun : addPair callee caller s pair = .ok s')
    (hFunction : s.failed = false) :
    (s' = s ∧ ∀ phi, Met callee caller phi pair) ∨
    (s' = s.fail ∧ ∀ phi, ¬ Met callee caller phi pair) ∨
    ∃ c1 c2 fuel, pair.callee = .ok (some c1) ∧ pair.caller? = some (.ok (some c2)) ∧
      insertWithin callee caller fuel [(c1, c2)] s = .ok s' := by
  unfold addPair at hRun
  rw [if_neg (by simp [hFunction]), bind_eq_ok_iff] at hRun
  rcases hRun with ⟨c1?, hCallee, hRun⟩
  cases c1? with
  | none =>
    cases hRun
    refine Or.inl ⟨rfl, ?_⟩
    intro phi c1 image hSome
    rw [hCallee] at hSome
    cases hSome
  | some c1 =>
    cases hImage : pair.caller? with
    | none =>
      rw [hImage] at hRun
      cases hRun
      refine Or.inl ⟨rfl, ?_⟩
      intro phi c1 image _ hSome
      rw [hImage] at hSome
      cases hSome
    | some image =>
      rw [hImage] at hRun
      dsimp only at hRun
      rcases of_bind hRun with ⟨c2?, rfl, hRest⟩
      cases c2? with
      | none =>
        cases hRest
        refine Or.inr (Or.inl ⟨rfl, ?_⟩)
        intro phi hMet
        rcases hMet c1 _ hCallee hImage with ⟨c2, hSome, _⟩
        cases hSome
      | some c2 =>
        dsimp only at hRest
        unfold insert at hRest
        rw [if_neg (by simp [hFunction])] at hRest
        exact Or.inr (Or.inr ⟨c1, c2, _, hCallee, rfl, hRest⟩)

/- A pair of a failed simulation is passed over. -/
theorem addPair_of_failed
    (hFailed : s.failed = true)
    (hRun : addPair callee caller s pair = .ok s') :
    s' = s := by
  unfold addPair at hRun
  rw [if_pos hFailed] at hRun
  cases hRun
  rfl

/- A pair is met by what is found, unless it fails. -/
theorem Pending.of_addPair
    (hCaller : caller.WellFormed)
    (hs : Pending callee caller [] s)
    (hRun : addPair callee caller s pair = .ok s')
    (hFunction : s'.failed = false) :
    Pending callee caller [] s' ∧ s.places.Below s'.places ∧
      Met callee caller s'.places pair := by
  have hOld : s.failed = false := by
    apply Bool.eq_false_of_not_eq_true
    intro hFailed
    rw [addPair_of_failed hFailed hRun, hFailed] at hFunction
    cases hFunction
  rcases addPair_cases hRun hOld with
    ⟨rfl, hMet⟩ | ⟨rfl, _⟩ |
    ⟨c1, c2, fuel, hCallee, hImage, hInsert⟩
  · exact ⟨hs, fun _ _ h => h, hMet _⟩
  · cases hFunction
  · have hStart : Pending callee caller [(c1, c2)] s := by
      refine ⟨hs.images, ?_⟩
      intro node place n field target hPlace hLive hLink
      rcases hs.closed node place n field target hPlace hLive hLink with ⟨image, hFollow, hAligned⟩
      exact ⟨image, hFollow, Or.inl hAligned⟩
    rcases hStart.of_insertWithin hCaller hInsert hFunction with ⟨hPending, hBelow, hAligned⟩
    refine ⟨hPending, hBelow, ?_⟩
    intro d1 image hCell hSome
    rw [hCallee] at hCell
    rw [hImage] at hSome
    cases hCell
    cases hSome
    exact ⟨c2, rfl, hAligned _ List.mem_cons_self⟩

/- A pair fails only if there is no simulation to find. -/
theorem addPair_below
    (hCaller : caller.WellFormed)
    (hRun : addPair callee caller s pair = .ok s')
    (hFunction : s.failed = false)
    (hClosed : Closed callee caller phi)
    (hMet : Met callee caller phi pair)
    (hBelow : s.places.Below phi) :
    s'.failed = false ∧ s'.places.Below phi := by
  rcases addPair_cases hRun hFunction with
    ⟨rfl, _⟩ | ⟨_, hUnmet⟩ |
    ⟨c1, c2, fuel, hCallee, hImage, hInsert⟩
  · exact ⟨hFunction, hBelow⟩
  · exact absurd hMet (hUnmet phi)
  · rcases hMet c1 _ hCallee hImage with ⟨c2', hSome, hAligned⟩
    cases hSome
    refine insertWithin_below hCaller hInsert hFunction hClosed ?_ hBelow
    intro other hMem
    rw [List.mem_singleton.mp hMem]
    exact hAligned

/- All pairs are met by what is found, unless one fails. -/
theorem Pending.of_addPairs
    (hCaller : caller.WellFormed)
    (hs : Pending callee caller [] s)
    (hRun : pairs.foldlM (addPair callee caller) s = .ok s')
    (hFunction : s'.failed = false) :
    Pending callee caller [] s' ∧ s.places.Below s'.places ∧
      ∀ pair ∈ pairs, Met callee caller s'.places pair := by
  induction pairs generalizing s with
  | nil =>
    cases hRun
    exact ⟨hs, fun _ _ h => h, fun _ hMem => absurd hMem List.not_mem_nil⟩
  | cons pair rest ih =>
    rw [List.foldlM_cons] at hRun
    rcases of_bind hRun with ⟨next, hNext, hRest⟩
    have hOk : next.failed = false := by
      apply Bool.eq_false_of_not_eq_true
      intro hFailed
      have hKept := foldlM_induction (P := fun t => t.failed = true) (fun t other _ u hT hStep =>
          addPair_of_failed hT hStep ▸ hT)
        hFailed hRest
      rw [hKept] at hFunction
      cases hFunction
    rcases hs.of_addPair hCaller hNext hOk with ⟨hPending, hBelow, hMet⟩
    rcases ih hPending hRest with ⟨hPending', hBelow', hAll⟩
    refine ⟨hPending', ?_, ?_⟩
    · intro node place hPlace
      exact hBelow' _ _ (hBelow _ _ hPlace)
    · intro other hMem
      rcases List.mem_cons.mp hMem with rfl | hMem
      · exact hMet.mono hBelow'
      · exact hAll other hMem

/- Pairs fail only if there is no simulation to find. -/
theorem addPairs_below
    (hCaller : caller.WellFormed)
    (hRun : pairs.foldlM (addPair callee caller) s = .ok s')
    (hFunction : s.failed = false)
    (hClosed : Closed callee caller phi)
    (hMet : ∀ pair ∈ pairs, Met callee caller phi pair)
    (hBelow : s.places.Below phi) :
    s'.failed = false ∧ s'.places.Below phi :=
  foldlM_induction (P := fun t => t.failed = false ∧ t.places.Below phi)
    (fun _ pair hMem _ hT hStep =>
      addPair_below hCaller hStep hT.1 hClosed (hMet pair hMem) hT.2)
    ⟨hFunction, hBelow⟩ hRun

-- Exactness

variable {pairs' : List RootPair}

theorem pending_empty :
    Pending callee caller [] {} where
  images := fun _ _ hImage => by cases hImage
  links := fun _ _ _ _ _ hPlace => by cases hPlace

/-
  Pairs mapped from the start: there is no failure exactly if some placement
  meets them and is closed, and the places found are the least such
  placement.
-/
theorem addPairs_exact
    (hCaller : caller.WellFormed)
    (hRun : pairs.foldlM (addPair callee caller) {} = .ok s) :
    (s.failed = false → Pending callee caller [] s ∧
      ∀ pair ∈ pairs, Met callee caller s.places pair) ∧
    ∀ phi, Closed callee caller phi → (∀ pair ∈ pairs, Met callee caller phi pair) →
      s.failed = false ∧ s.places.Below phi := by
  constructor
  · intro hFunction
    rcases pending_empty.of_addPairs hCaller hRun hFunction with ⟨hPending, _, hMet⟩
    exact ⟨hPending, hMet⟩
  · intro phi hClosed hMet
    exact addPairs_below hCaller hRun rfl hClosed hMet fun _ _ hPlace => by cases hPlace

/- Places determine what is recorded of them. -/
theorem Pending.image?_of_below
    (hs : Pending callee caller [] s)
    (hs' : Pending callee caller [] s')
    (hBelow : s.places.Below s'.places)
    {node : NodeId}
    {img : NodeImage}
    (hImage : s.image? node = some img) :
    s'.image? node = some img := by
  have hPlace := hBelow _ _ (places_of_image? hImage)
  unfold places at hPlace
  rcases Option.map_eq_some_iff.mp hPlace with ⟨img', hImage', hSame⟩
  rw [hImage']
  rcases hs.images node img hImage with ⟨n1, n2, hSlot1, hSlot2, hEq⟩
  rcases hs'.images node img' hImage' with ⟨m1, m2, hSlot1', hSlot2', hEq'⟩
  injection hSame with hNode hBase
  rw [hSlot1] at hSlot1'
  rw [hNode, hSlot2] at hSlot2'
  cases hSlot1'
  cases hSlot2'
  rw [hEq, hEq', hNode, hBase]

/- The order in which pairs are mapped does not matter. -/
theorem addPairs_perm
    (hCaller : caller.WellFormed)
    (hPerm : pairs'.Perm pairs)
    (hRun : pairs.foldlM (addPair callee caller) {} = .ok s)
    (hRun' : pairs'.foldlM (addPair callee caller) {} = .ok s') :
    s'.isFunction = s.isFunction ∧ (s.isFunction = true → s' = s) := by
  rcases addPairs_exact hCaller hRun with ⟨hFound, hLeast⟩
  rcases addPairs_exact hCaller hRun' with ⟨hFound', hLeast'⟩
  have hFrom : s.failed = false → s'.failed = false ∧ s'.places.Below s.places := by
    intro hFunction
    rcases hFound hFunction with ⟨hPending, hMet⟩
    exact hLeast' _ hPending.closed fun pair hMem =>
      hMet pair (hPerm.mem_iff.mp hMem)
  have hTo : s'.failed = false → s.failed = false ∧ s.places.Below s'.places := by
    intro hFunction
    rcases hFound' hFunction with ⟨hPending, hMet⟩
    exact hLeast _ hPending.closed fun pair hMem =>
      hMet pair (hPerm.mem_iff.mpr hMem)
  unfold isFunction
  constructor
  · cases hs : s.failed with
    | false => rw [(hFrom hs).1]
    | true =>
      cases hs' : s'.failed with
      | false =>
        have hBoth := (hTo hs').1
        rw [hs] at hBoth
        cases hBoth
      | true => rfl
  · intro hFunction
    have hs : s.failed = false := by simpa using hFunction
    rcases hFrom hs with ⟨hs', hBelow'⟩
    rcases hTo hs' with ⟨_, hBelow⟩
    have hImages : s'.images = s.images := by
      apply OrdMap.ext_get?
      intro node
      apply Option.ext
      intro img
      constructor
      · exact (hFound' hs').1.image?_of_below (hFound hs).1 hBelow'
      · exact (hFound hs).1.image?_of_below (hFound' hs').1 hBelow
    cases s
    cases s'
    cases hs
    cases hs'
    cases hImages
    rfl

/- Mapping a pair fails by overflow only. -/
theorem yields_addPair
    (hCallee : callee.WellFormed)
    (hCaller : caller.WellFormed)
    (hOne : Yields pair.callee fun c? => ∀ c, c? = some c → callee.Has c)
    (hTwo : ∀ image, pair.caller? = some image →
      Yields image fun c? =>
        ∀ c, c? = some c → caller.Has c) :
    Yields (addPair callee caller s pair) fun _ => True := by
  unfold addPair
  split
  · exact .ok trivial
  · next hFunction =>
    refine hOne.bind ?_
    intro c1? hHas1
    cases c1? with
    | none => exact .ok trivial
    | some c1 =>
      cases hImage : pair.caller? with
      | none => exact .ok trivial
      | some image =>
        refine (hTwo image hImage).bind ?_
        intro c2? hHas2
        cases c2? with
        | none => exact .ok trivial
        | some c2 =>
          dsimp only
          unfold insert
          rw [if_neg hFunction]
          apply yields_insertWithin hCallee hCaller
          · intro other hMem
            rw [List.mem_singleton.mp hMem]
            exact ⟨hHas1 c1 rfl, hHas2 c2 rfl⟩
          · rw [List.length_singleton, Nat.add_comm]
            exact Nat.add_le_add_right (linksLeft_le_total _) 1

/- So does the test of a call. -/
theorem yields_ofCall
    (hCallee : callee.WellFormed)
    (hCaller : caller.WellFormed)
    (cs : CallSite)
    (f : FunctionDef) :
    Yields (ofCall cs f callee caller) fun _ => True := by
  refine yields_foldlM trivial ?_
  intro s pair hMem _
  unfold rootPairs at hMem
  simp only [List.mem_append, List.mem_map, List.mem_singleton] at hMem
  rcases hMem with (⟨v, _, rfl⟩ | rfl) | ⟨bound, _, rfl⟩
  · refine yields_addPair hCallee hCaller (hCallee.yields_rootCell? _) ?_
    intro image hImage
    cases hImage
    exact hCaller.yields_rootCell? _
  · refine yields_addPair hCallee hCaller (hCallee.yields_rootCell? _) ?_
    intro image hImage
    rcases Option.map_eq_some_iff.mp hImage with ⟨v, _, rfl⟩
    exact hCaller.yields_cell? v
  · refine yields_addPair hCallee hCaller (hCallee.yields_rootCell? _) ?_
    intro image hImage
    cases hImage
    exact hCaller.yields_cell? _

/- A test without failure found the least simulation. -/
theorem isSimulation_places
    (hCaller : caller.WellFormed)
    (hRun : ofCall cs f callee caller = .ok s)
    (hFunction : s.isFunction = true) :
    IsSimulation cs f callee caller s.places := by
  rcases (addPairs_exact hCaller hRun).1 (by simpa [isFunction] using hFunction) with
    ⟨hPending, hMet⟩
  exact isSimulation_iff.mpr ⟨hMet, hPending.closed⟩

theorem places_below
    (hCaller : caller.WellFormed)
    (hRun : ofCall cs f callee caller = .ok s)
    (hSim : IsSimulation cs f callee caller phi) :
    s.isFunction = true ∧ s.places.Below phi := by
  rcases isSimulation_iff.mp hSim with ⟨hMet, hClosed⟩
  rcases (addPairs_exact hCaller hRun).2 phi hClosed hMet with ⟨hFunction, hBelow⟩
  exact ⟨by simp [isFunction, hFunction], hBelow⟩

end Simulation

open HeapShape.Simulation in
/-
  The test of a call on well-formed graphs, unless it overflows: it answers
  that the caller simulates the callee exactly if there is a simulation, and
  what it records is then the least simulation, whatever the order in which
  the roots of the call are mapped.
-/
theorem simulation_test_is_exact
    {callee caller : Graph}
    (hCallee : callee.WellFormed)
    (hCaller : caller.WellFormed)
    (cs : CallSite)
    (f : FunctionDef)
    (hRun : ofCall cs f callee caller ≠
      .error .addOverflow) :
    ∃ s, ofCall cs f callee caller = .ok s ∧
      (s.isFunction = true ↔
        ∃ phi, IsSimulation cs f callee caller phi) ∧
      (s.isFunction = true →
        IsSimulation cs f callee caller s.places ∧
        ∀ phi, IsSimulation cs f callee caller phi →
          s.places.Below phi) ∧
      ∀ (pairs : List RootPair) (s' : Simulation),
        pairs.Perm (rootPairs cs f callee caller) →
        pairs.foldlM (addPair callee caller) {} = .ok s' →
        s'.isFunction = s.isFunction ∧
          (s.isFunction = true → s' = s) := by
  rcases yields_ofCall hCallee hCaller cs f with
    hOver | ⟨s, hOk, _⟩
  · exact absurd hOver hRun
  refine ⟨s, hOk, ⟨?_, ?_⟩, ?_, ?_⟩
  · intro hFunction
    exact ⟨s.places,
      isSimulation_places hCaller hOk hFunction⟩
  · rintro ⟨phi, hSim⟩
    exact (places_below hCaller hOk hSim).1
  · intro hFunction
    exact ⟨isSimulation_places hCaller hOk hFunction,
      fun phi hSim => (places_below hCaller hOk hSim).2⟩
  · intro pairs s' hPerm hFold
    exact addPairs_perm hCaller hPerm hOk hFold

/- A ring of two nodes, one of them a global. -/
def ringCallee : List Update :=
  [.createNode Flags.empty 16, .createNode Flags.empty 8,
    .merge (.addLink ⟨0, 8⟩ none ⟨1, 0⟩),
    .merge (.addLink ⟨1, 0⟩ none ⟨0, 8⟩),
    .merge (.bindRoot (.formal 0) (some ⟨0, 0⟩)),
    .merge (.bindRoot (.global 0) (some ⟨1, 0⟩))]

/- A ring through an array, entered inside a node. -/
def arrayCaller : List Update :=
  [.createNode Flags.empty 24, .createNode Flags.empty 8,
    .merge (.setArray 1 8),
    .merge (.addLink ⟨0, 16⟩ none ⟨1, 8⟩),
    .merge (.addLink ⟨1, 0⟩ none ⟨0, 16⟩),
    .merge (.bindRoot (.scalar 7) (some ⟨0, 8⟩)),
    .merge (.bindRoot (.global 0) (some ⟨1, 0⟩))]

/- A call that passes the entry of the second ring. -/
def ringCall : CallSite :=
  { id := 0, caller := 1, target := .direct 0
    actuals := [some 7] }

def ringFunction : FunctionDef :=
  { id := 0, name := "walk"
    formals := [{ value := 0, isPointer := true }] }

open HeapShape.Simulation in
/-
  The second ring simulates the first, eight bytes on, and its array holds
  the global.
-/
theorem simulation_test_is_exact_of_rings :
    ∃ callee caller s,
      Update.runAll {} ringCallee = .ok callee ∧
      Update.runAll {} arrayCaller = .ok caller ∧
      callee.WellFormed ∧ caller.WellFormed ∧
      ofCall ringCall ringFunction callee caller = .ok s ∧
      s.places 0 = some ⟨0, 8⟩ ∧
      s.places 1 = some ⟨1, 0⟩ ∧
      IsSimulation ringCall ringFunction callee caller
        s.places ∧
      ∀ phi, IsSimulation ringCall ringFunction callee caller
        phi → s.places.Below phi := by
  rcases Update.exists_runs {} ringCallee arrayCaller
      (P := fun g h =>
        (ofCall ringCall ringFunction g h).map
          (fun s => (s.isFunction, s.places 0, s.places 1)) =
        .ok (true, some ⟨0, 8⟩, some ⟨1, 0⟩))
      (by decide) (by decide +kernel) with
    ⟨callee, caller, hBuild, hBuild', hCallee, hCaller, hEval⟩
  have hRun : ofCall ringCall ringFunction callee caller ≠
      .error .addOverflow := by
    intro hOver
    rw [hOver] at hEval
    cases hEval
  rcases simulation_test_is_exact hCallee hCaller ringCall
      ringFunction hRun with
    ⟨s, hOk, _, hLeast, _⟩
  rw [hOk] at hEval
  injection hEval with hEval
  simp only [Prod.mk.injEq] at hEval
  rcases hEval with ⟨hFunction, hFirst, hSecond⟩
  exact ⟨callee, caller, s, hBuild, hBuild', hCallee, hCaller,
    hOk, hFirst, hSecond, hLeast hFunction⟩

end HeapShape
