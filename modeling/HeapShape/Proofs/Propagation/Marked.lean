import HeapShape.Proofs.Graph.Marked
import HeapShape.Proofs.Propagation.BottomUp
import HeapShape.Proofs.Propagation.Progress

/-
  How calls are marked.

  Marking a call seals it. To look up the cells of a call or to mark it
  leaves the links of a graph alone, so sealed calls stay sealed. To connect
  a call with a callee may add links, but marked calls stay marked.

  Main declarations:
    * `Graph.Rests`
    * `Graph.Rests.markExternal`
    * `Graph.Proceeds`
    * `Graph.Handed`
    * `Graph.Outlives.resolveInPlace`
    * `Graph.Outlives.bottomUpCopy`
-/

-- The Cells Of A Call

namespace HeapShape

open Checked

namespace Graph

/- A call finds a value in the node of a cell. -/
def FindsIn
    (g : Graph)
    (v : ValueId)
    (c : Cell) : Prop :=
  ∃ d, g.roots.get? (g.callRoot v) = some d ∧
    g.SameNode d c

/- A step that adds no links, and what stays bound. -/
structure Rests
    (g h : Graph) : Prop where
  calm : Calm g h
  later : Outlives g h

variable {g h i : Graph} {c : Cell} {v : ValueId} {id : NodeId}

theorem Rests.refl
    (hg : g.WellFormed) :
    Rests g g :=
  ⟨.refl g, .refl hg⟩

theorem Rests.trans
    (hgh : Rests g h)
    (hhi : Rests h i) :
    Rests g i :=
  ⟨hgh.calm.trans hhi.calm, hgh.later.trans hhi.later⟩

/- Notes that are neither nodes nor roots. -/
theorem Rests.of_same
    (hg : g.WellFormed)
    (hConfig : h.config = g.config)
    (hSlots : h.slots = g.slots)
    (hFree : h.free = g.free)
    (hRoots : h.roots = g.roots) :
    Rests g h := by
  have hh := hg.congr hConfig hSlots hFree hRoots
  have hSound : Sound False g h (fun last => LinksHold False g last) :=
    .of_same_slots hg hh hConfig hSlots
  refine ⟨.of_sameSlots hSlots, hh, hSound.merged, ?_, ?_⟩
  · intro r c hRoot
    rw [hRoots, hRoot]
  · intro v hNone
    rw [hRoots, hNone]

theorem FindsIn.outlives
    (hFinds : g.FindsIn v c)
    (hgh : Outlives g h) :
    h.FindsIn v c := by
  rcases hFinds with ⟨d, hRoot, hNode⟩
  refine ⟨d, ?_, hNode.merged hgh.merged⟩
  rw [hgh.callRoot_eq]
  exact hgh.roots _ d hRoot

variable {d : Cell} {r : Root} {n : Node}

theorem Calm.find
    (hRun : g.find c = .ok (d, h)) :
    Calm g h := by
  rcases find_eq_ok hRun with ⟨_, _, _, _, hShort⟩
  exact .shortened hShort

/- The cell of a root is found, or it is a fresh one. -/
theorem Calm.rootTarget
    (hg : g.WellFormed)
    (hRun : g.rootTarget r none = .ok (c, h)) :
    Calm g h := by
  unfold Graph.rootTarget at hRun
  cases hRoot : g.roots.get? r with
  | some d =>
    rw [hRoot] at hRun
    exact .find hRun
  | none =>
    rw [hRoot] at hRun
    cases hRun
    exact (Calm.createBlank hg).trans (.of_sameSlots rfl)

theorem Calm.noteUniqueScalar
    (hSlot : g.slot c.node = .live n)
    (hRun : g.noteUniqueScalar v c = .ok h) :
    Calm g h := by
  unfold Graph.noteUniqueScalar at hRun
  rw [modifyContents_of_live hSlot] at hRun
  cases hRun
  exact .setLive hSlot rfl fun hn => hn

theorem Calm.bindRoot
    (hg : g.WellFormed)
    (hRun : g.bindRoot r none = .ok (c, h)) :
    Calm g h := by
  rcases of_bindRoot hRun with ⟨g₁, hTarget, hNote⟩
  have hFound := Calm.rootTarget hg hTarget
  rcases Sound.rootTarget (E := False) hg hTarget with ⟨_, n, hSlot⟩
  rcases hNote with rfl | ⟨v, hNote⟩
  · exact hFound
  · exact hFound.trans (.noteUniqueScalar hSlot hNote)

/- A call looks a value up at its root. -/
theorem Rests.valueCell
    (hg : g.WellFormed)
    (hRun : g.valueCell v = .ok (c, h)) :
    Rests g h ∧ h.FindsIn v c := by
  unfold Graph.valueCell at hRun
  split at hRun
  · next d hRoot =>
    rcases find_eq_ok hRun with ⟨k, hLeads, _, _, hShort⟩
    have hLater := Outlives.of_sameRoots (Carries.find (E := False) hg hRun).later hShort.roots
    refine ⟨⟨.shortened hShort, hLater⟩, d, ?_, ?_⟩
    · unfold callRoot
      rw [hShort.roots, hRoot]
      exact hRoot
    · have hEnd := hShort.leads hLeads
      rcases hEnd.live_end with ⟨n, hLive⟩
      exact ⟨c.node, k, 0, hEnd, .live hLive⟩
  · next hNone =>
    have hBound := Carries.bindRoot (E := False) hg hRun
    have hFormals : ∀ w, h.roots.get? (.formal w) = g.roots.get? (.formal w) :=
      fun w => get?_bindRoot_of_ne hg hRun nofun
    refine ⟨⟨.bindRoot hg hRun, .of_later hBound.later fun w hw => (hFormals w).trans hw⟩, ?_⟩
    rcases (hBound.here nofun).2.1 with ⟨d, hRoot, hPlace⟩
    refine ⟨d, ?_, hPlace.sameNode⟩
    unfold callRoot
    rw [hFormals v, hNone]
    exact hRoot

theorem Rests.valueCells
    (hg : g.WellFormed)
    {values : List (Option ValueId)}
    {cells : List (Option Cell)}
    (hRun : valueCells g values = .ok (cells, h)) :
    Rests g h ∧ ∀ v, some v ∈ values → ∃ c, some c ∈ cells ∧ h.FindsIn v c := by
  induction values generalizing g cells with
  | nil =>
    cases hRun
    exact ⟨.refl hg, nofun⟩
  | cons value? rest ih =>
    cases value? with
    | none =>
      unfold HeapShape.valueCells at hRun
      rcases of_bind hRun with ⟨⟨others, g₁⟩, hRest, hRun⟩
      cases hRun
      rcases ih hg hRest with ⟨hRests, hFinds⟩
      refine ⟨hRests, ?_⟩
      intro v hv
      rcases hFinds v (by simpa using hv) with ⟨c, hc, hAt⟩
      exact ⟨c, List.mem_cons_of_mem _ hc, hAt⟩
    | some w =>
      unfold HeapShape.valueCells at hRun
      rcases of_bind hRun with ⟨⟨c, g₁⟩, hFirst, hRun⟩
      rcases of_bind hRun with ⟨⟨others, g₂⟩, hRest, hRun⟩
      cases hRun
      rcases Rests.valueCell hg hFirst with ⟨hRests, hFound⟩
      rcases ih hRests.later.wellFormed hRest with ⟨hMore, hFinds⟩
      refine ⟨hRests.trans hMore, ?_⟩
      intro v hv
      rcases List.mem_cons.mp hv with hEq | hv
      · cases hEq
        exact ⟨c, List.mem_cons_self, hFound.outlives hMore.later⟩
      · rcases hFinds v hv with ⟨d, hd, hAt⟩
        exact ⟨d, List.mem_cons_of_mem _ hd, hAt⟩

/- A call finds each of its values in one of its cells. -/
theorem Rests.callSiteCells
    (hg : g.WellFormed)
    {cs : CallSite}
    {cells : CallSiteCells}
    (hRun : callSiteCells g cs = .ok (cells, h)) :
    Rests g h ∧ ∀ v ∈ cs.values, ∃ c ∈ cells.cells, h.FindsIn v c := by
  unfold HeapShape.callSiteCells at hRun
  rcases of_bind hRun with ⟨⟨actuals, g₁⟩, hActuals, hRun⟩
  rcases Rests.valueCells hg hActuals with ⟨hRests, hFinds⟩
  have hActual : ∀ v, v ∈ cs.actuals.filterMap (fun a => a) →
      ∃ c ∈ actuals.filterMap id, g₁.FindsIn v c := by
    intro v hv
    rcases List.mem_filterMap.mp hv with ⟨_, hMem, rfl⟩
    rcases hFinds v hMem with ⟨c, hc, hAt⟩
    exact ⟨c, List.mem_filterMap.mpr ⟨_, hc, rfl⟩, hAt⟩
  dsimp only at hRun
  cases hResult : cs.result? with
  | none =>
    rw [hResult] at hRun
    cases hRun
    refine ⟨hRests, fun v hv => ?_⟩
    rw [CallSite.values, hResult] at hv
    rcases List.mem_append.mp hv with hv | hv
    · rcases hActual v hv with ⟨c, hc, hAt⟩
      exact ⟨c, List.mem_append_left _ hc, hAt⟩
    · exact absurd hv List.not_mem_nil
  | some w =>
    rw [hResult] at hRun
    dsimp only at hRun
    rcases of_bind hRun with ⟨⟨c, g₂⟩, hCell, hRun⟩
    cases hRun
    rcases Rests.valueCell hRests.later.wellFormed hCell with ⟨hMore, hFound⟩
    refine ⟨hRests.trans hMore, fun v hv => ?_⟩
    rw [CallSite.values, hResult] at hv
    rcases List.mem_append.mp hv with hv | hv
    · rcases hActual v hv with ⟨d, hd, hAt⟩
      exact ⟨d, List.mem_append_left _ hd, hAt.outlives hMore.later⟩
    · cases List.mem_singleton.mp hv
      exact ⟨c, List.mem_append_right _ (List.mem_singleton_self c), hFound⟩

-- Marking

variable {cs : CallSite}

/- The flags of memory that unknown code was handed. -/
abbrev unknownFlags : Flags :=
  Flags.ofList [.external, .incomplete]

theorem marked_of_union
    (n : Node) :
    Node.Marked { n with
      flags := n.flags.union ((unknownFlags.erase .array).erase .offsetCollapsed) } := by
  unfold Node.Marked
  rw [Flags.has_union, Flags.has_union]
  constructor
  · rw [show ((unknownFlags.erase .array).erase .offsetCollapsed).has .external = true by decide]
    exact Bool.or_true _
  · rw [show ((unknownFlags.erase .array).erase .offsetCollapsed).has .incomplete = true by decide]
    exact Bool.or_true _

/- A live node is marked, and nothing else changes. -/
theorem Rests.addFlags
    (hg : g.WellFormed)
    (hSlot : g.slot id = .live n)
    (hRun : g.addFlags id unknownFlags = .ok h) :
    Rests g h ∧ ∃ n', h.slot id = .live n' ∧ n'.Marked := by
  have hLater := (Carries.addFlags (E := False) hg hRun).later
  unfold Graph.addFlags Graph.modifyNode at hRun
  rw [bind_eq_ok_iff] at hRun
  rcases hRun with ⟨⟨r, g₁⟩, hFind, hRun⟩
  rcases findNode_eq_ok hFind with ⟨k, hLeads, hShort⟩
  rcases hLeads.eq_of_live hSlot with ⟨rfl, _⟩
  have hSlot₁ := hShort.live_iff.mpr hSlot
  dsimp only at hRun
  rw [modifyContents_of_live hSlot₁] at hRun
  cases hRun
  have hMarked := marked_of_union n
  refine ⟨⟨(Calm.shortened hShort).trans (.setLive hSlot₁ rfl
    fun _ => hMarked), .of_sameRoots hLater hShort.roots⟩,
    _, ?_, hMarked⟩
  rw [slot_setSlot (lt_size_of_slot_ne_free (slot_ne_free_of_live hSlot₁)), if_pos rfl]

/- Live nodes are marked one after the other. -/
theorem Rests.markAll
    (hg : g.WellFormed)
    {ids : List NodeId}
    (hLive : ∀ id ∈ ids, ∃ n, g.slot id = .live n)
    (hRun : ids.foldlM (fun g id => g.addFlags id unknownFlags) g = .ok h) :
    Rests g h ∧ ∀ id ∈ ids, ∃ n, h.slot id = .live n ∧ n.Marked := by
  induction ids generalizing g with
  | nil =>
    cases hRun
    exact ⟨.refl hg, nofun⟩
  | cons id rest ih =>
    rw [List.foldlM_cons] at hRun
    rcases of_bind hRun with ⟨g₁, hFirst, hRest⟩
    rcases hLive id List.mem_cons_self with ⟨n, hSlot⟩
    rcases Rests.addFlags hg hSlot hFirst with ⟨hRests, n₁, hSlot₁, hMarked⟩
    have hLive₁ : ∀ x ∈ rest, ∃ n, g₁.slot x = .live n := by
      intro x hx
      rcases hLive x (List.mem_cons_of_mem _ hx) with ⟨m, hm⟩
      exact hRests.calm.exists_live hm
    rcases ih hRests.later.wellFormed hLive₁ hRest with ⟨hMore, hAll⟩
    refine ⟨hRests.trans hMore, ?_⟩
    intro x hx
    rcases List.mem_cons.mp hx with rfl | hx
    · rcases hMore.calm.exists_live hSlot₁ with ⟨n₂, hSlot₂⟩
      exact ⟨n₂, hSlot₂, (hMore.calm.live x n₁ n₂ hSlot₁ hSlot₂).2 hMarked⟩
    · exact hAll x hx

/- What can be reached is what a visit finds. -/
theorem Reaches.mem_reachable
    {starts : List NodeId}
    {out : OrdSet NodeId}
    (hRun : g.reachable starts = .ok out)
    (hc : c.node ∈ starts)
    (hNode : g.SameNode d c)
    {m : NodeId}
    (hReaches : g.Reaches d.node m) :
    m ∈ out := by
  rcases closed_of_reachable hRun with ⟨hStarts, hClosed⟩
  induction hReaches with
  | here hLeads =>
    rcases hNode with ⟨m', j, k, hd, hEnd⟩
    rcases hd.unique hLeads with ⟨rfl, _⟩
    exact hStarts c.node _ k hc hEnd
  | link _ hLink ih => exact hClosed _ _ _ ih hLink

/- Marking a call leaves the links alone and seals it. -/
theorem Rests.markExternal
    (hg : g.WellFormed)
    (hRun : markExternal g cs = .ok h) :
    Rests g h ∧ h.CallSealed cs := by
  unfold HeapShape.markExternal at hRun
  rcases of_bind hRun with ⟨⟨cells, g₁⟩, hCells, hRun⟩
  rcases of_bind hRun with ⟨nodes, hNodes, hRun⟩
  rcases Rests.callSiteCells hg hCells with ⟨hFirst, hFinds⟩
  have hg₁ := hFirst.later.wellFormed
  rcases (Evolves.callSiteCells (fun _ => False)
    (fun _ => False) hg cs).of_eq_ok hCells with ⟨_, hAt⟩
  have hStarts : ∀ id ∈ cells.cells.map Cell.node, g₁.hasNode id = true := by
    intro id hMem
    rcases List.mem_map.mp hMem with ⟨c, hc, rfl⟩
    exact (hAt c hc).has.occupied
  have hLive := (hg₁.yields_reachable hStarts).of_eq_ok hNodes
  rcases Rests.markAll hg₁ (fun id hMem =>
      hLive id ((OrdSet.mem_toList_iff _ _).mp hMem)) hRun
    with ⟨hSecond, hMarked⟩
  refine ⟨hFirst.trans hSecond, ?_⟩
  intro v hv
  rcases hFinds v hv with ⟨c, hc, d, hRoot, hNode⟩
  refine ⟨d, ?_, ?_⟩
  · rw [hSecond.later.callRoot_eq]
    exact hSecond.later.roots _ d hRoot
  · intro m n hReaches hSlot
    -- What is reached now was reached before it was marked.
    have hBefore := hReaches.of_calm hg₁ hSecond.calm (hg₁.root_has _ d hRoot).occupied
    have hIn := hBefore.mem_reachable hNodes (List.mem_map_of_mem hc) hNode
    rcases hMarked m ((OrdSet.mem_toList_iff _ _).mpr hIn) with ⟨n', hSlot', hn'⟩
    rw [hSlot] at hSlot'
    cases hSlot'
    exact hn'

end Graph

-- Connecting Callees

/- The pointer formals of a function have cells. -/
def Graph.BindsFormals
    (g : Graph)
    (f : FunctionDef) : Prop :=
  ∀ formal ∈ f.formals, formal.isPointer = true →
    ∃ c, g.roots.get? (.formal formal.value) = some c

namespace Graph

variable {g h : Graph} {cs : CallSite} {callee : FunctionDef} {a b c : Cell}

theorem BindsFormals.imp
    (hBinds : g.BindsFormals callee)
    (hRoots : ∀ r c, g.roots.get? r = some c → ∃ d, h.roots.get? r = some d) :
    h.BindsFormals callee := by
  intro formal hMem hPointer
  rcases hBinds formal hMem hPointer with ⟨c, hRoot⟩
  exact hRoots _ c hRoot

theorem BindsFormals.outlives
    (hBinds : g.BindsFormals callee)
    (hgh : Outlives g h) :
    h.BindsFormals callee :=
  hBinds.imp fun r c hRoot => ⟨c, hgh.roots r c hRoot⟩

theorem BindsFormals.collected
    (hBinds : g.BindsFormals callee)
    (hgh : Collected g h) :
    h.BindsFormals callee := by
  apply hBinds.imp
  intro r c hRoot
  rcases hgh.exists_root hRoot with ⟨d, _, hNew, _⟩
  exact ⟨d, hNew⟩

theorem Outlives.unify
    (hg : g.WellFormed)
    (hRun : g.unify a b = .ok h) :
    Outlives g h :=
  .of_sameRoots (Carries.unify (E := False) hg hRun).later
    (Fused.unify (T := fun _ => False) hg.freeListed hRun).roots

/- A root that is no new formal is merged with a cell. -/
theorem Outlives.bindAndUnify
    (hg : g.WellFormed)
    {r : Root}
    (hr : ∀ v, r = .formal v → g.roots.get? r ≠ none)
    {d : Cell}
    {g₁ : Graph}
    (hBind : g.bindRoot r none = .ok (d, g₁))
    (hUnify : g₁.unify d c = .ok h) :
    Outlives g h := by
  have hLater := (Carries.bindRoot (E := False) hg hBind).later
  refine (Outlives.of_later hLater ?_).trans (.unify hLater.wellFormed hUnify)
  intro v hNone
  rw [get?_bindRoot_of_ne hg hBind, hNone]
  rintro rfl
  exact hr v rfl hNone

/- Formals with cells are merged with the actuals. -/
theorem Outlives.unifyFormals
    (hg : g.WellFormed)
    {pairs : List (ValueId × Cell)}
    (hBound : ∀ pair ∈ pairs, ∃ c, g.roots.get? (.formal pair.1) = some c)
    (hRun : pairs.foldlM (fun g pair => do
      let found ← g.formalCell pair.1
      found.2.unify found.1 pair.2) g = .ok h) :
    Outlives g h := by
  induction pairs generalizing g with
  | nil =>
    cases hRun
    exact .refl hg
  | cons pair rest ih =>
    rw [List.foldlM_cons] at hRun
    rcases of_bind hRun with ⟨g₂, hFirst, hRest⟩
    rcases of_bind hFirst with ⟨⟨d, g₁⟩, hBind, hUnify⟩
    rcases hBound pair List.mem_cons_self with ⟨c, hRoot⟩
    have hStep := Outlives.bindAndUnify hg (fun v _ => by
      rw [hRoot]
      exact Option.some_ne_none c) hBind hUnify
    refine hStep.trans (ih hStep.wellFormed ?_ hRest)
    intro other hMem
    rcases hBound other (List.mem_cons_of_mem _ hMem) with ⟨c', hRoot'⟩
    exact ⟨c', hStep.roots _ c' hRoot'⟩

/- A callee in the same graph has its formals there. -/
theorem Outlives.resolveInPlace
    (hg : g.WellFormed)
    (hBinds : g.BindsFormals callee)
    (hRun : resolveInPlace g cs callee = .ok h) :
    Outlives g h := by
  unfold HeapShape.resolveInPlace at hRun
  rcases of_bind hRun with ⟨⟨cells, g₁⟩, hCells, hRun⟩
  have hFirst := (Rests.callSiteCells hg hCells).1.later
  have hFormals : ∀ g₂, Outlives g₁ g₂ →
      (callee.pointerPairs cells.actuals).foldlM (fun g pair => do
          let found ← g.formalCell pair.1
          found.2.unify found.1 pair.2) g₂ = .ok h →
      Outlives g h := by
    intro g₂ hSecond hLast
    have hBefore := hFirst.trans hSecond
    refine hBefore.trans (.unifyFormals hSecond.wellFormed ?_ hLast)
    intro pair hMem
    rcases FunctionDef.mem_pointerPairs.mp hMem with ⟨formal, hZip, hPointer, hValue⟩
    rw [← hValue]
    exact (hBinds.outlives hBefore) formal (List.of_mem_zip hZip).1 hPointer
  dsimp only at hRun
  split at hRun
  · rcases of_bind hRun with ⟨⟨d, g'⟩, hBind, hRun⟩
    rcases of_bind hRun with ⟨g₂, hUnify, hRun⟩
    exact hFormals g₂ (.bindAndUnify hFirst.wellFormed
      (fun _ hEq => Root.noConfusion hEq) hBind hUnify) hRun
  · exact hFormals g₁ (.refl hFirst.wellFormed) hRun

/- The copy of a callee meets its caller at no formal. -/
theorem Outlives.bottomUpCopy
    {config : Config}
    {calleeGraph : Graph}
    {k : Copier}
    (hCallee : calleeGraph.WellFormed)
    (hg : g.WellFormed)
    (hRun : bottomUpCopy config cs callee calleeGraph g = .ok k) :
    Outlives g k.dest := by
  unfold HeapShape.bottomUpCopy at hRun
  rcases of_bind hRun with ⟨⟨cells, g₁⟩, hCells, hRun⟩
  have hFirst := (Rests.callSiteCells hg hCells).1.later
  have hNoted : Rests g₁ (g₁.recordCallSite cs.id cells) :=
    .of_same hFirst.wellFormed rfl rfl rfl rfl
  have hSecond := hNoted.later
  rcases Copier.pictured_start hCallee hSecond.wellFormed
      (CopyOptions.bottomUp config.cloning callee.id) with
    ⟨hStart, hNone⟩
  have hGrows := Copier.Grows.joinUp (E := False) hStart hNone hRun
  refine (hFirst.trans hSecond).trans (.of_later hGrows.carries.later ?_)
  intro v hUnbound
  rw [hGrows.roots]
  · exact hUnbound
  · rintro ⟨_, hEq⟩
    cases hEq

-- What Nodes Become

/- A step of a run that merges, links or marks nodes. -/
inductive Joins
    (g : Graph) : Graph → Prop
| connect {cs : CallSite} {callee : FunctionDef} {h : Graph} :
    resolveInPlace g cs callee = .ok h →
    Joins g h
| copy {config : Config} {cs : CallSite} {callee : FunctionDef}
    {source : Graph} {k : Copier} :
    HeapShape.bottomUpCopy config cs callee source g = .ok k →
    Joins g k.dest
| mark {cs : CallSite} {h : Graph} :
    markExternal g cs = .ok h →
    Joins g h
| note (fs : List FunctionId) :
    Joins g (fs.foldl addFunction g)
| forget :
    Joins g g.clearCallSites

/- A step of a run that frees nodes. -/
def Frees
    (g h : Graph) : Prop :=
  g.compress = .ok h ∨ ∃ count, g.removeDead = .ok (count, h)

/-
  A run has made a graph of another one, step by step. The relation tells
  what each node has become.
-/
inductive Proceeds
    (g : Graph) : (NodeId → NodeId → Prop) → Graph → Prop
| start :
    Proceeds g Eq g
| join {R : NodeId → NodeId → Prop} {h i : Graph} :
    Proceeds g R h → Joins h i → Outlives h i →
    Proceeds g (fun x z => ∃ y k, R x y ∧ i.Leads y z k) i
| free {R : NodeId → NodeId → Prop} {h i : Graph} :
    Proceeds g R h → Frees h i → Collected h i →
    Proceeds g (fun x y => R x y ∧ i.hasNode y = true) i

variable {i : Graph} {R : NodeId → NodeId → Prop} {x y : NodeId}

theorem Proceeds.trans
    (hgh : Proceeds g R h)
    {R' : NodeId → NodeId → Prop}
    (hhi : Proceeds h R' i) :
    ∃ R'', Proceeds g R'' i := by
  induction hhi with
  | start => exact ⟨R, hgh⟩
  | join _ hStep hLater ih =>
    rcases ih with ⟨_, hOn⟩
    exact ⟨_, hOn.join hStep hLater⟩
  | free _ hStep hCollected ih =>
    rcases ih with ⟨_, hOn⟩
    exact ⟨_, hOn.free hStep hCollected⟩

/- What a marked node has become is marked. -/
theorem Proceeds.marked
    (hgh : Proceeds g R h)
    {n : Node}
    (hOld : g.slot x = .live n)
    (hn : n.Marked)
    (hy : R x y) :
    ∃ n', h.slot y = .live n' ∧ n'.Marked := by
  induction hgh generalizing y with
  | start => exact ⟨n, hy ▸ hOld, hn⟩
  | join _ _ hLater ih =>
    rcases hy with ⟨z, k, hz, hLeads⟩
    rcases ih hz with ⟨l, hLive, hl⟩
    rcases hLeads.live_end with ⟨n', hNew⟩
    exact ⟨n', hNew, (hLater.merged.stands z l y k n' hLive hLeads hNew).marked hl⟩
  | free _ _ hCollected ih =>
    rcases hy with ⟨hy, hNode⟩
    rcases ih hy with ⟨l, hLive, hl⟩
    rcases slot_cases_of_hasNode hNode with ⟨n', hNew⟩ | ⟨t, hForward⟩
    · exact ⟨n', hNew, hCollected.marked hNew hLive hl⟩
    · exact absurd hForward (hCollected.flat y t)

theorem Proceeds.callMarked
    (hgh : Proceeds g R h)
    (hMarked : g.CallMarked cs) :
    h.CallMarked cs := by
  induction hgh with
  | start => exact hMarked
  | join _ _ hLater ih => exact ih.outlives hLater
  | free _ _ hCollected ih => exact ih.collected hCollected

-- Turns Of Calls

/- A run has made a graph of functions that were lowered. -/
def LoweredFrom
    (p : Program)
    (config : GraphConfig)
    (f : FunctionId)
    (g : Graph) : Prop :=
  ∃ fs lowered R, f ∈ fs.map FunctionDef.id ∧
    lowerFunctions p fs { config := config } =
      .ok (.ok lowered) ∧
    Proceeds lowered R g

/-
  A call had its turn in a run, and all that its values reached was marked
  then.
-/
def Handed
    (p : Program)
    (config : GraphConfig)
    (cs : CallSite)
    (g : Graph) : Prop :=
  ∃ before turn R, LoweredFrom p config cs.caller before ∧
    markExternal before cs = .ok turn ∧ turn.WellFormed ∧
    turn.CallSealed cs ∧ Proceeds turn R g

variable {p : Program} {graphs : GraphConfig} {f : FunctionId}

theorem LoweredFrom.proceeds
    (hg : LoweredFrom p graphs f g)
    (hgh : Proceeds g R h) :
    LoweredFrom p graphs f h := by
  rcases hg with ⟨fs, l, _, hf, hLower, hOn⟩
  rcases hOn.trans hgh with ⟨_, hOn⟩
  exact ⟨fs, l, _, hf, hLower, hOn⟩

theorem Handed.proceeds
    (hHanded : Handed p graphs cs g)
    (hgh : Proceeds g R h) :
    Handed p graphs cs h := by
  rcases hHanded with ⟨before, turn, _, hFrom, hRun, hTurn, hSealed, hOn⟩
  rcases hOn.trans hgh with ⟨_, hOn⟩
  exact ⟨before, turn, _, hFrom, hRun, hTurn, hSealed, hOn⟩

theorem Handed.of_markExternal
    (hg : g.WellFormed)
    (hFrom : LoweredFrom p graphs cs.caller g)
    (hRun : markExternal g cs = .ok h) :
    Handed p graphs cs h := by
  rcases Rests.markExternal hg hRun with ⟨hRests, hSealed⟩
  exact ⟨g, h, Eq, hFrom, hRun, hRests.later.wellFormed, hSealed, .start⟩

end Graph

end HeapShape
