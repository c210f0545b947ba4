import HeapShape.Proofs.Graph.Transfer
import HeapShape.Proofs.Propagation.Joined

/-
  Propagation ends well.

  The cells of a call lie in nodes of roots, so they can be recorded. A
  junction merges the copy of a cell with a cell of the destination. Where
  the copy was forced the latter is the cell of a global, so sites that are
  stripped reach nodes of globals only.

  Main declarations:
    * `Graph.Evolves.callSiteCells`
    * `Copier.Carrying.yields_joinAll`
    * `Graph.Kept.yields_bottomUpCopy`
    * `Graph.Kept.yields_topDownCopy`
-/

-- Calls Inside One Graph

namespace HeapShape

open Checked

namespace Graph

variable (P : AllocSite → Prop) (X : NodeId → Prop)
variable {g h : Graph} {cs : CallSite} {callee : FunctionDef}

/- The cell of a value lies in the node of a root. -/
theorem Evolves.anchoredCell
    (hg : g.WellFormed)
    (v : ValueId) :
    Yields (g.valueCell v) fun found => Evolves P X g found.2 ∧
      found.2.Anchored found.1 := by
  refine (Evolves.cell_of_spends (Spends.valueCell
    (hg.admits (P := P) (X := X) (s := 1)) (.inr trivial)
    (Nat.le_refl 1))).imp_eq ?_
  rintro ⟨c, h⟩ hRun ⟨hStep, hHas⟩
  have hAt := (Carries.valueCell (E := False) hg hRun).here fun hE => hE.elim
  exact ⟨hStep, hAt.2.anchored hHas.word⟩

theorem Evolves.valueCells
    (hg : g.WellFormed)
    (values : List (Option ValueId)) :
    Yields (valueCells g values) fun found =>
      Evolves P X g found.2 ∧ ∀ c, some c ∈ found.1 → found.2.Anchored c := by
  induction values generalizing g with
  | nil =>
    refine .ok ⟨.refl hg, ?_⟩
    intro c hMem
    cases hMem
  | cons v? rest ih =>
    cases v? with
    | none =>
      refine (ih hg).bind ?_
      rintro ⟨cells, h⟩ ⟨hStep, hCells⟩
      refine .ok ⟨hStep, ?_⟩
      intro c hMem
      rcases List.mem_cons.mp hMem with hEq | hMem
      · cases hEq
      · exact hCells c hMem
    | some v =>
      refine (Evolves.anchoredCell P X hg v).bind ?_
      rintro ⟨d, h⟩ ⟨hFirst, hd⟩
      refine (ih hFirst.wellFormed).bind ?_
      rintro ⟨cells, i⟩ ⟨hRest, hCells⟩
      refine .ok ⟨hFirst.trans hRest, ?_⟩
      intro c hMem
      rcases List.mem_cons.mp hMem with hEq | hMem
      · cases hEq
        exact hd.later hRest.toLater
      · exact hCells c hMem

/- So do the cells of a call. -/
theorem Evolves.callSiteCells
    (hg : g.WellFormed)
    (cs : CallSite) :
    Yields (callSiteCells g cs) fun found =>
      Evolves P X g found.2 ∧ ∀ c ∈ found.1.cells, found.2.Anchored c := by
  unfold HeapShape.callSiteCells
  refine (Evolves.valueCells P X hg cs.actuals).bind ?_
  rintro ⟨actuals, h⟩ ⟨hFirst, hActuals⟩
  dsimp only at hFirst hActuals ⊢
  split
  · refine .ok ⟨hFirst, ?_⟩
    intro c hMem
    rcases List.mem_append.mp hMem with hMem | hMem
    · rcases List.mem_filterMap.mp hMem with ⟨_, hMem, rfl⟩
      exact hActuals c hMem
    · cases hMem
  · next v _ =>
    refine (Evolves.anchoredCell P X hFirst.wellFormed v).bind ?_
    rintro ⟨d, i⟩ ⟨hNext, hd⟩
    refine .ok ⟨hFirst.trans hNext, ?_⟩
    intro c hMem
    rcases List.mem_append.mp hMem with hMem | hMem
    · rcases List.mem_filterMap.mp hMem with ⟨_, hMem, rfl⟩
      exact (hActuals c hMem).later hNext.toLater
    · rcases List.mem_singleton.mp hMem with rfl
      exact hd

variable {cells : CallSiteCells} {c : Cell}

/- What a callee is passed is among the cells of a call. -/
theorem mem_cells_of_pointerPairs
    {f : FunctionDef}
    {pair : ValueId × Cell}
    (hMem : pair ∈ f.pointerPairs cells.actuals) :
    pair.2 ∈ cells.cells := by
  rcases FunctionDef.mem_pointerPairs.mp hMem with ⟨formal, hZip, _⟩
  have hActual := (List.of_mem_zip hZip).2
  exact List.mem_append_left _ (List.mem_filterMap.mpr ⟨_, hActual, rfl⟩)

/- So is the cell of its result. -/
theorem mem_cells_of_result
    (hResult : cells.result? = some c) :
    c ∈ cells.cells :=
  List.mem_append_right _ (Option.mem_toList.mpr hResult)

/- The cell of a root is merged with a cell. -/
theorem Evolves.bindAndUnify
    (hg : g.WellFormed)
    (r : Root)
    (hc : g.Has c) :
    Yields (do
      let found ← g.bindRoot r none
      found.2.unify found.1 c) (Evolves P X g) := by
  have hInit : ∀ i, none = some i → g.Has i := by
    intro i hNone
    cases hNone
  refine (Evolves.bindRoot P X hg hInit).bind ?_
  rintro ⟨d, h⟩ ⟨hBound, hd⟩
  exact (Evolves.unify P X hBound.wellFormed hd
    (hBound.has hg hc)).imp fun _ hLast => hBound.trans hLast

theorem Evolves.resolveInPlace
    (hg : g.WellFormed)
    (cs : CallSite)
    (callee : FunctionDef) :
    Yields (resolveInPlace g cs callee) (Evolves P X g) := by
  unfold HeapShape.resolveInPlace
  refine (Evolves.callSiteCells P X hg cs).bind ?_
  rintro ⟨cells, h⟩ ⟨hFirst, hCells⟩
  dsimp only at hFirst hCells ⊢
  have hHas : ∀ h', Evolves P X h h' → ∀ c ∈ cells.cells, h'.Has c :=
    fun h' hNext c hc => ((hCells c hc).later hNext.toLater).has
  have hActuals : ∀ h', Evolves P X h h' → Yields
      ((callee.pointerPairs cells.actuals).foldlM (fun g pair => do
          let found ← g.formalCell pair.1
          found.2.unify found.1 pair.2) h')
      (Evolves P X g) := by
    intro h' hNext
    refine Yields.imp (P := Evolves P X h) ?_ fun _ hLast => hFirst.trans hLast
    refine yields_foldlM hNext ?_
    intro h₁ pair hMem hStep
    have hActual := hHas h₁ hStep pair.2 (mem_cells_of_pointerPairs hMem)
    exact (Evolves.bindAndUnify P X hStep.wellFormed (.formal pair.1) hActual).imp
      fun _ hLast => hStep.trans hLast
  split
  · next result _ hResult =>
    have hThere := hHas h (.refl hFirst.wellFormed) result (mem_cells_of_result hResult)
    have hBoth := (Evolves.bindAndUnify P X hFirst.wellFormed
      (.result callee.id) hThere).bind hActuals
    rw [bind_assoc] at hBoth
    exact hBoth
  · rw [pure_bind]
    exact hActuals h (.refl hFirst.wellFormed)

/-
  What is reached from a call is live, and it stays so while it is marked.
-/
theorem Evolves.markExternal
    (hg : g.WellFormed)
    (cs : CallSite) :
    Yields (markExternal g cs) (Evolves P X g) := by
  unfold HeapShape.markExternal
  refine (Evolves.callSiteCells P X hg cs).bind ?_
  rintro ⟨cells, h⟩ ⟨hFirst, hCells⟩
  dsimp only at hFirst hCells ⊢
  refine (hFirst.wellFormed.yields_reachable ?_).bind ?_
  · intro id hMem
    rcases List.mem_map.mp hMem with ⟨c, hc, rfl⟩
    exact (hCells c hc).has.occupied
  · intro nodes hLive
    have hMarked : Yields (nodes.toList.foldlM (fun g id => g.addFlags id
          (Flags.ofList [.external, .incomplete])) h)
        (Evolves P X h) := by
      refine yields_foldlM (.refl hFirst.wellFormed) ?_
      intro g₁ id hMem hStep
      rw [OrdSet.mem_toList_iff] at hMem
      rcases hLive id hMem with ⟨n, hn⟩
      exact (Evolves.of_spends (Spends.addFlags (hStep.wellFormed.admits (s := 0))
        (hStep.merged.hasNode hFirst.wellFormed (hasNode_of_live hn)) _)).imp
        fun _ hLast => hStep.trans hLast
    exact hMarked.imp fun _ hLast => hFirst.trans hLast

end Graph

-- Junctions

open Graph

/-
  A junction of a source graph and of what becomes of a graph. Forced copies
  meet globals.
-/
structure Junction.Fits
    (P : AllocSite → Prop)
    (source start : Graph)
    (j : Junction) : Prop where
  cell : Yields j.cell fun c? =>
    ∀ c, c? = some c → source.Has c
  place : ∀ own, j.place? = some own →
    ∀ g, Later start g → Yields (own g) fun found =>
      Evolves P (fun _ => False) g found.2 ∧
        found.2.Has found.1 ∧
        (j.force = true →
          ∃ v, found.2.RootAt (.global v) found.1)

/- A copier between junctions. -/
structure Copier.Carrying
    (P : AllocSite → Prop)
    (source start : Graph)
    (k : Copier) : Prop where
  working : k.Working
  source : k.source = source
  strips : k.Strips P
  kept : k.dest.Kept P
  later : Later start k.dest
  functions : k.dest.functions = start.functions

variable {P : AllocSite → Prop} {source start : Graph} {cell : Checked (Option Cell)} {force : Bool}

/- A cell that is given, in the node of a root. -/
theorem Junction.fits_given
    (hCell : Yields cell fun c? => ∀ c, c? = some c → source.Has c)
    {d : Cell}
    (hd : start.Anchored d) :
    Junction.Fits P source start
      { cell := cell, force := false, place? := some fun g => .ok (d, g) } where
  cell := hCell
  place := by
    intro own hOwn g hLater
    cases hOwn
    exact .ok ⟨.refl hLater.wellFormed, (hd.later hLater).has, nofun⟩

/- The cell of a root. -/
theorem Junction.fits_root
    (hCell : Yields cell fun c? => ∀ c, c? = some c → source.Has c)
    {r : Root}
    (hForce : force = true → ∃ v, r = .global v) :
    Junction.Fits P source start
      { cell := cell, force := force, place? := some fun g => g.bindRoot r none } where
  cell := hCell
  place := by
    intro own hOwn g hLater
    cases hOwn
    have hg := hLater.wellFormed
    have hInit : ∀ i, none = some i → g.Has i := by
      intro i hNone
      cases hNone
    refine (Evolves.bindRoot P (fun _ => False) hg hInit).imp_eq ?_
    rintro ⟨c, h⟩ hRun ⟨hStep, hc⟩
    refine ⟨hStep, hc, ?_⟩
    intro hForced
    rcases hForce hForced with ⟨v, rfl⟩
    exact ⟨v, ((Carries.bindRoot (E := False) hg hRun).here fun hE => hE.elim).2.1⟩

namespace Copier

variable {k : Copier} {j : Junction}

/-
  The copy is merged with its place. If it was forced the sites it took
  along are in the node of a global now.
-/
theorem Carrying.yields_merge
    {k₁ : Copier}
    {image : Cell}
    {own : Graph → Checked (Cell × Graph)}
    (hk : k.Carrying P source start)
    (hj : j.Fits P source start)
    (hPlace : j.place? = some own)
    (hMade : Advances P (fun x => j.force = true ∧
        k₁.dest.SameNode (Cell.start x) image) k k₁)
    (hImage : k₁.dest.Has image) :
    Yields (do
      let found ← own k₁.dest
      found.2.unify found.1 image) fun dest =>
        Carrying P source start { k₁ with dest := dest } := by
  have hLater := hk.later.trans hMade.evolves.toLater
  refine (hj.place own hPlace _ hLater).bind ?_
  rintro ⟨place, g⟩ ⟨hFound, hThere, hGlobal⟩
  dsimp only at hFound hThere hGlobal ⊢
  have hg := hFound.wellFormed
  refine (Evolves.unify P (fun _ => False) hg hThere
    (hFound.has hMade.working.dest hImage)).imp_eq ?_
  intro dest hRun hUnited
  have hSame := ((Carries.unify (E := False) hg hRun).here fun hE => hE.elim).2.1
  have hBoth := hFound.trans hUnited
  have hNext := hMade.trans ((hMade.working.setDest hBoth).widen fun x hx => hx.elim)
  have hAll := hNext.evolves
  refine ⟨hNext.working, ?_, hk.strips.of_extends hNext.extension,
    hk.kept.evolves hAll ?_, hk.later.trans hAll.toLater,
    hAll.functions.trans hk.functions⟩
  · exact hMade.extension.source.trans hk.source
  · rintro x ⟨hForce, hx⟩
    rcases hGlobal hForce with ⟨v, d, hRoot, hAt⟩
    have hLast := hUnited.merged
    rcases ((hAt.sameNode.merged hLast).trans hSame).trans (hx.merged hBoth.merged).symm with
      ⟨m, i, l, hd, hCopy⟩
    exact ⟨v, d, m, i, l, hUnited.roots _ _ hRoot, hd, hCopy⟩

theorem Carrying.yields_join
    (hk : k.Carrying P source start)
    (hj : j.Fits P source start) :
    Yields (k.join j) (Carrying P source start) := by
  unfold join
  refine hj.cell.bind ?_
  intro c? hHas
  cases c? with
  | none => exact .ok hk
  | some c =>
    cases hPlace : j.place? with
    | none => exact .ok hk
    | some own =>
      have hc : k.source.Has c := by
        rw [hk.source]
        exact hHas c rfl
      refine (hk.working.yields_copyCell hk.strips hc).bind ?_
      rintro ⟨image, k₁⟩ ⟨hMade, hImage⟩
      refine (hk.yields_merge hj hPlace hMade hImage).bind ?_
      intro dest hDone
      exact .ok hDone

/- One junction after the other. -/
theorem Carrying.yields_joinAll
    {js : List Junction}
    (hk : k.Carrying P source start)
    (hjs : ∀ j ∈ js, j.Fits P source start) :
    Yields (js.foldlM Copier.join k) (Carrying P source start) :=
  yields_foldlM hk fun _ j hMem hNext =>
    hNext.yields_join (hjs j hMem)

/- A copier that has copied nothing. -/
theorem Carrying.initial
    (hSource : source.WellFormed)
    (hStart : start.Kept P)
    {options : CopyOptions}
    (hStrips : ∀ s, P s → options.stripAllocas = true ∧ s.isStack = true) :
    Carrying P source start { source := source, dest := start, options := options }
    where
  working := ⟨hSource, hStart.wellFormed, nofun⟩
  source := rfl
  strips := hStrips
  kept := hStart
  later := .refl hStart.wellFormed
  functions := rfl

end Copier

-- Calls Between Graphs

namespace Graph

open Copier

variable {config : Config} {cs : CallSite} {callee : FunctionDef} {calleeGraph callerGraph : Graph}
variable {cells : CallSiteCells}

theorem fits_bottomUpJunctions
    (hCallee : calleeGraph.WellFormed)
    (hCells : ∀ c ∈ cells.cells, start.Anchored c) :
    ∀ j ∈ bottomUpJunctions callee calleeGraph cells, j.Fits P calleeGraph start := by
  intro j hMem
  rcases List.mem_append.mp hMem with hMem | hMem
  · rcases List.mem_append.mp hMem with hMem | hMem
    · rcases List.mem_map.mp hMem with ⟨v, _, rfl⟩
      exact Junction.fits_root (hCallee.yields_rootCell? _) fun _ => ⟨v, rfl⟩
    · rcases List.mem_singleton.mp hMem with rfl
      have hCell := hCallee.yields_rootCell? (.result callee.id)
      cases hResult : cells.result? with
      | none => exact ⟨hCell, nofun⟩
      | some c => exact Junction.fits_given hCell (hCells c (mem_cells_of_result hResult))
  · rcases List.mem_map.mp hMem with ⟨pair, hPair, rfl⟩
    exact Junction.fits_given (hCallee.yields_rootCell? _)
      (hCells pair.2 (mem_cells_of_pointerPairs hPair))

/- Copying a callee keeps the caller in order. -/
theorem Kept.yields_bottomUpCopy
    (hCallee : calleeGraph.WellFormed)
    (hCaller : callerGraph.Kept P)
    (hStrips : ∀ s, P s → config.cloning.stripAllocas = true ∧ s.isStack = true)
    (cs : CallSite)
    (callee : FunctionDef) :
    Yields (bottomUpCopy config cs callee calleeGraph callerGraph) fun k =>
        k.dest.Kept P ∧ k.dest.functions = callerGraph.functions := by
  unfold bottomUpCopy
  refine (Evolves.callSiteCells P (fun _ => False) hCaller.wellFormed cs).bind ?_
  rintro ⟨cells, g⟩ ⟨hFirst, hCells⟩
  dsimp only at hFirst hCells ⊢
  have hRecorded := (hCaller.step hFirst).recordCallSite cs.id hCells
  have hThere := hRecorded.anchored cs.id cells ((OrdMap.get?_insert _ _ _ _).trans (if_pos rfl))
  refine ((Carrying.initial hCallee hRecorded hStrips).yields_joinAll
    (fits_bottomUpJunctions hCallee hThere)).imp ?_
  intro k hk
  exact ⟨hk.kept, hk.functions.trans hFirst.functions⟩

theorem fits_topDownJunctions
    (hCaller : callerGraph.WellFormed)
    (policy : CloningPolicy) :
    ∀ j ∈ topDownJunctions policy cs callee callerGraph
      calleeGraph, j.Fits P callerGraph start := by
  intro j hMem
  rcases List.mem_append.mp hMem with hMem | hMem
  · rcases List.mem_append.mp hMem with hMem | hMem
    · rcases List.mem_map.mp hMem with ⟨v, _, rfl⟩
      exact Junction.fits_root (hCaller.yields_rootCell? _) fun _ => ⟨v, rfl⟩
    · rcases List.mem_map.mp hMem with ⟨v, _, rfl⟩
      exact Junction.fits_root (hCaller.yields_cell? v) nofun
  · rcases List.mem_map.mp hMem with ⟨pair, _, rfl⟩
    exact Junction.fits_root (hCaller.yields_cell? _) nofun

/- Copying a caller keeps the callee in order. -/
theorem Kept.yields_topDownCopy
    (hCaller : callerGraph.WellFormed)
    (hCallee : calleeGraph.Kept P)
    {policy : CloningPolicy}
    (hStrips : ∀ s, P s → policy.noEscape = true ∧ s.isStack = true)
    (cs : CallSite)
    (callee : FunctionDef) :
    Yields (topDownCopy policy cs callee callerGraph calleeGraph) fun k =>
        k.dest.Kept P ∧ k.dest.functions = calleeGraph.functions := by
  refine ((Carrying.initial hCaller hCallee hStrips).yields_joinAll
    (fits_topDownJunctions hCaller policy)).imp ?_
  intro k hk
  exact ⟨hk.kept, hk.functions⟩

end Graph

end HeapShape
