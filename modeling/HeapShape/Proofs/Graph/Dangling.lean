import HeapShape.Proofs.Graph.Pruned
import HeapShape.Proofs.Graph.Swept

/-
  Cells that are left hanging.

  Pruning frees the foreign nodes that no root is bound to. It cuts the
  links into them and asks the roots, but it does not ask the recorded
  calls. So a cell that names a freed slot afterwards is the cell of a
  recorded call, and it was bound to a foreign node that nothing else is
  bound to. Where no call is, nothing hangs. Where some call is, the next
  collection reads a freed slot.

  Main declarations:
    * `Graph.IsOrphan`
    * `Graph.Collected.deleted_of_compress`
    * `pruning_leaves_calls_hanging`
    * `recorded_orphan_is_pruned`
-/

-- Pruning Ends Well

namespace HeapShape

open Checked

namespace Graph

variable {g h : Graph} {c : Cell} {id : NodeId}

/- Pruning does not fail once the graph is compressed. -/
theorem exists_pruneForeign
    (hg : g.WellFormed)
    (hCalls : g.CallsIn)
    {g₁ : Graph}
    (hRun : g.compress = .ok g₁) :
    ∃ count h, g.pruneForeign = .ok (count, h) := by
  have hTidy := (Compressed.of_compress hg hRun).tidy hg hCalls
  unfold pruneForeign
  rw [hRun, ok_bind, hTidy.rootCells_eq, ok_bind]
  have hNodes : ∀ id ∈ (OrdSet.ofList (g₁.roots.entries.map fun e => e.2.node)).toList,
      ∃ n, g₁.slot id = .live n := by
    intro id hMem
    rw [OrdSet.mem_toList_iff, OrdSet.mem_ofList_iff] at hMem
    rcases List.mem_map.mp hMem with ⟨e, he, rfl⟩
    exact hTidy.live
      (hTidy.wellFormed.root_has e.1 e.2 ((OrdMap.get?_eq_some_iff _ _ _).mpr he)).occupied
  rcases exists_clearForeigns hNodes with ⟨g₂, hClear⟩
  dsimp only
  rw [hClear, ok_bind]
  split
  · exact ⟨_, _, rfl⟩
  · exact ⟨_, _, rfl⟩

-- Nodes That Are Pruned

/- A foreign node that no root is bound to. -/
def IsOrphan
    (g : Graph)
    (id : NodeId) : Prop :=
  ∃ n, g.slot id = .live n ∧ n.isForeign = true ∧
    ¬ g.Rooted id

/- A node that the cell of a recorded call is bound to. -/
def Recorded
    (g : Graph)
    (id : NodeId) : Prop :=
  ∃ cs cells c k, g.callSites.get? cs = some cells ∧
    c ∈ cells.cells ∧ g.Leads c.node id k

variable {count : Nat}

/- The nodes that stay are native, or roots name them. -/
theorem hasNode_pruneForeign_iff
    (hg : g.WellFormed)
    (hRun : g.pruneForeign = .ok (count, h)) :
    h.hasNode id = true ↔ ∃ n, g.slot id = .live n ∧
      (n.isForeign = false ∨ g.Rooted id) := by
  have hgh := Collected.of_pruneForeign hg hRun
  constructor
  · intro hNode
    rcases slot_cases_of_hasNode hNode with ⟨n', hNew⟩ | ⟨t, hForward⟩
    · rcases hgh.nodes id n' hNew with ⟨n, hLive, _⟩
      rcases slot_of_pruneForeign hg hRun hLive with ⟨_, _, hFree⟩ | ⟨hStays, _⟩
      · rw [hNew] at hFree
        cases hFree
      · exact ⟨n, hLive, hStays⟩
    · exact absurd hForward (hgh.flat id t)
  · rintro ⟨n, hLive, hStays⟩
    rcases slot_of_pruneForeign hg hRun hLive with ⟨hForeign, hNot, _⟩ | ⟨_, n', hNew, _⟩
    · rcases hStays with hNative | hRooted
      · rw [hForeign] at hNative
        cases hNative
      · exact absurd hRooted hNot
    · exact hasNode_of_live hNew

/- A live node is an orphan exactly if it is freed. -/
theorem isOrphan_iff_pruned
    (hg : g.WellFormed)
    (hRun : g.pruneForeign = .ok (count, h))
    {n : Node}
    (hLive : g.slot id = .live n) :
    g.IsOrphan id ↔ h.hasNode id = false := by
  rw [← Bool.not_eq_true, hasNode_pruneForeign_iff hg hRun]
  constructor
  · rintro ⟨m, hm, hForeign, hNot⟩ ⟨l, hl, hStays⟩
    rw [hm] at hl
    cases hl
    rcases hStays with hNative | hRooted
    · rw [hForeign] at hNative
      cases hNative
    · exact hNot hRooted
  · intro hNone
    refine ⟨n, hLive, ?_, fun hRooted =>
      hNone ⟨n, hLive, Or.inr hRooted⟩⟩
    rw [← Bool.not_eq_false]
    exact fun hNative => hNone ⟨n, hLive, Or.inl hNative⟩

-- Recorded Calls After Collection

/- The cells of recorded calls are bound to recorded nodes. -/
theorem Collected.recorded_of_mem
    (hgh : Collected g h)
    (hg : g.WellFormed)
    (hCalls : g.CallsIn)
    {cs : CallSiteId}
    {cells : CallSiteCells}
    (hGet : h.callSites.get? cs = some cells)
    (hc : c ∈ cells.cells) :
    g.Recorded c.node ∧ (∃ n, g.slot c.node = .live n) ∧ c.offset < wordBound := by
  have hFound := hgh.callSites cs
  rw [hGet] at hFound
  rcases option_mapM_eq_some_iff.mp hFound with ⟨old, hOld, hRun⟩
  rcases mem_cells_of_resolveCallSite hRun hc with ⟨d, hd, hResolve⟩
  rcases leads_of_resolve hResolve with ⟨k, hLeads, _⟩
  rcases (hg.yields_resolve (hCalls cs old hOld d hd)).of_eq_ok hResolve with ⟨hHas, hLive⟩
  exact ⟨⟨cs, old, d, k, hOld, hd, hLeads⟩, hLive, hHas.word⟩

/- A recorded node is still named by a call. -/
theorem Collected.exists_cell
    (hgh : Collected g h)
    (hRecorded : g.Recorded id) :
    ∃ cs cells c, h.callSites.get? cs = some cells ∧ c ∈ cells.cells ∧ c.node = id := by
  rcases hRecorded with ⟨cs, old, d, k, hOld, hd, hLeads⟩
  have hFound := hgh.callSites cs
  rw [hOld] at hFound
  rcases option_mapM_some_eq_ok hFound with ⟨cells, hRun, hNew⟩
  rcases exists_mem_of_resolveCallSite hRun hd with ⟨c, hc, hResolve⟩
  rcases leads_of_resolve hResolve with ⟨j, hEnd, _⟩
  rcases hEnd.unique hLeads with ⟨hNode, _⟩
  exact ⟨cs, cells, c, hNew, hc, hNode⟩

/- The calls lie in the graph if their nodes were kept. -/
theorem Collected.callsIn_iff
    (hgh : Collected g h)
    (hg : g.WellFormed)
    (hCalls : g.CallsIn) :
    h.CallsIn ↔ ∀ id, g.Recorded id → h.hasNode id = true := by
  constructor
  · intro hIn id hRecorded
    rcases hgh.exists_cell hRecorded with ⟨cs, cells, c, hGet, hc, rfl⟩
    exact (hIn cs cells hGet c hc).occupied
  · intro hAll cs cells hGet c hc
    rcases hgh.recorded_of_mem hg hCalls hGet hc with ⟨hRecorded, _, hWord⟩
    exact ⟨hAll _ hRecorded, hWord⟩

/- A cell of a freed slot cannot be resolved. -/
theorem resolve_of_free
    (hFree : g.slot c.node = .free) :
    g.resolve c = .error (.deletedNode c.node) := by
  unfold resolve chainBound resolveWithin
  rw [hFree]

/-
  Where a call names a freed slot, the next compression stops at such a
  cell.
-/
theorem Collected.deleted_of_compress
    (hgh : Collected g h)
    (hg : g.WellFormed)
    (hCalls : g.CallsIn)
    (hOut : ¬ h.CallsIn) :
    ∃ id, g.Recorded id ∧ h.hasNode id = false ∧
      h.compress = .error (.deletedNode id) := by
  cases hRun : h.compress with
  | ok i =>
    -- Compression resolves the cells of all calls.
    refine absurd ?_ hOut
    intro cs cells hGet c hc
    have hFound := (Compressed.of_compress hgh.wellFormed hRun).callSites cs
    rw [hGet] at hFound
    rcases option_mapM_some_eq_ok hFound with ⟨_, hRun, _⟩
    rcases exists_mem_of_resolveCallSite hRun hc with ⟨d, _, hResolve⟩
    rcases leads_of_resolve hResolve with ⟨k, hLeads, _⟩
    exact ⟨hLeads.hasNode, (hgh.recorded_of_mem hg hCalls hGet hc).2.2⟩
  | error fault =>
    rcases compress_eq_error hRun with ⟨c, hc, hFault⟩
    -- Only the cell of a call has no live cell.
    have hNot : ¬ h.Has c := by
      intro hHas
      rw [hgh.resolve_eq hHas] at hFault
      cases hFault
    rcases hc with ⟨id, n, f, hLive, hGet⟩ | ⟨r, hRoot⟩ | ⟨cs, cells, hGet, hc⟩
    · exact absurd (hgh.wellFormed.link_has id n f c hLive hGet) hNot
    · exact absurd (hgh.wellFormed.root_has r c hRoot) hNot
    · rcases hgh.recorded_of_mem hg hCalls hGet hc with ⟨hRecorded, _, hWord⟩
      have hNone : h.hasNode c.node = false :=
        Bool.eq_false_iff.mpr fun hNode =>
          hNot ⟨hNode, hWord⟩
      refine ⟨c.node, hRecorded, hNone, ?_⟩
      have hFree : h.slot c.node = .free := by
        by_contra hSome
        rw [Graph.hasNode_iff.mpr hSome] at hNone
        cases hNone
      rw [resolve_of_free hFree] at hFault
      cases hFault
      rfl

end Graph

-- What Is Left Hanging

open Graph in
/-
  Pruning a well-formed graph keeps exactly the nodes that are native or
  bound to a root, and a stored cell that names a freed slot afterwards is
  the cell of a recorded call that was bound to an orphan. If no call was
  bound to an orphan, every stored cell names an occupied slot, and neither
  compression nor the removal of dead nodes fails next. If some call was,
  both do. Pruning itself fails only where a stored cell has no live cell,
  because the offset leaves the word range.
-/
theorem pruning_leaves_calls_hanging
    {g : Graph}
    (hg : g.WellFormed)
    (hCalls : g.CallsIn) :
    (g.pruneForeign = .error .addOverflow ∧
      ∃ c, g.Stores c ∧
        g.resolve c = .error .addOverflow) ∨
    ∃ count h, g.pruneForeign = .ok (count, h) ∧
      h.WellFormed ∧ (∀ id t, h.slot id ≠ .forward t) ∧
      (∀ id, h.hasNode id = true ↔ ∃ n, g.slot id = .live n ∧
        (n.isForeign = false ∨ g.Rooted id)) ∧
      (∀ c, h.Stores c → h.hasNode c.node = false →
        g.Recorded c.node ∧ g.IsOrphan c.node) ∧
      ((∀ id, g.Recorded id → ¬ g.IsOrphan id) →
        (∀ c, h.Stores c → h.hasNode c.node = true) ∧
        (∀ id, h.hasNode id = true ↔
          ∃ n, g.slot id = .live n ∧ (n.isForeign = false ∨
            g.Rooted id ∨ g.Recorded id)) ∧
        h.compress = .ok h ∧ ∃ r, h.removeDead = .ok r) ∧
      ∀ id, g.Recorded id → g.IsOrphan id →
        ∃ id', g.Recorded id' ∧ g.IsOrphan id' ∧
          h.compress = .error (.deletedNode id') ∧
          h.removeDead = .error (.deletedNode id') := by
  cases hRun : g.compress with
  | error fault =>
      rcases hg.overflow_of_compress hCalls hRun with
        ⟨rfl, hOver⟩
      refine Or.inl ⟨?_, hOver⟩
      unfold Graph.pruneForeign
      rw [hRun]
      rfl
  | ok g₁ =>
  rcases exists_pruneForeign hg hCalls hRun with
    ⟨count, h, hPrune⟩
  have hgh := Collected.of_pruneForeign hg hPrune
  have hKept : ∀ id, h.hasNode id = true ↔
      ∃ n, g.slot id = .live n ∧
        (n.isForeign = false ∨ g.Rooted id) :=
    fun _ => hasNode_pruneForeign_iff hg hPrune
  -- What a call is bound to is freed if it is an orphan.
  have hFreed : ∀ id, g.Recorded id →
      (g.IsOrphan id ↔ h.hasNode id = false) := by
    rintro id ⟨_, _, _, _, _, _, hLeads⟩
    rcases hLeads.live_end with ⟨n, hLive⟩
    exact isOrphan_iff_pruned hg hPrune hLive
  have hHanging : ∀ c, h.Stores c →
      h.hasNode c.node = false →
        g.Recorded c.node ∧ g.IsOrphan c.node := by
    rintro c (⟨id, n, f, hLive, hGet⟩ | ⟨r, hRoot⟩ |
      ⟨cs, cells, hGet, hc⟩) hNone
    · rw [(hgh.wellFormed.link_has id n f c hLive
        hGet).occupied] at hNone
      cases hNone
    · rw [(hgh.wellFormed.root_has r c hRoot).occupied]
        at hNone
      cases hNone
    · have hRecorded :=
        (hgh.recorded_of_mem hg hCalls hGet hc).1
      exact ⟨hRecorded, (hFreed _ hRecorded).mpr hNone⟩
  refine Or.inr ⟨count, h, hPrune, hgh.wellFormed, hgh.flat,
    hKept, hHanging, ?_, ?_⟩
  · intro hNone
    have hStays : ∀ id, g.Recorded id →
        h.hasNode id = true := by
      intro id hRecorded
      rw [← Bool.not_eq_false, ← hFreed id hRecorded]
      exact hNone id hRecorded
    have hTidy : h.Tidy := ⟨hgh.wellFormed, hgh.flat,
      (hgh.callsIn_iff hg hCalls).mpr hStays⟩
    refine ⟨?_, ?_, hTidy.compress_eq, ?_⟩
    · intro c hc
      rw [← Bool.not_eq_false]
      intro hFree
      rcases hHanging c hc hFree with ⟨hRecorded, hOrphan⟩
      exact hNone _ hRecorded hOrphan
    · intro id
      constructor
      · intro hNode
        rcases (hKept id).mp hNode with ⟨n, hLive, hWhy⟩
        exact ⟨n, hLive, hWhy.imp_right Or.inl⟩
      · rintro ⟨n, hLive, hNative | hRooted | hRecorded⟩
        · exact (hKept id).mpr ⟨n, hLive, Or.inl hNative⟩
        · exact (hKept id).mpr ⟨n, hLive, Or.inr hRooted⟩
        · exact hStays id hRecorded
    · rcases hTidy.exists_removeDead with ⟨out, hDead, _⟩
      exact ⟨_, hDead⟩
  · intro id hRecorded hOrphan
    have hOut : ¬ h.CallsIn := by
      rw [hgh.callsIn_iff hg hCalls]
      intro hAll
      have hFree := (hFreed id hRecorded).mp hOrphan
      rw [hAll id hRecorded] at hFree
      cases hFree
    rcases hgh.deleted_of_compress hg hCalls hOut with
      ⟨id', hRecorded', hFree, hFails⟩
    refine ⟨id', hRecorded', (hFreed id' hRecorded').mpr hFree,
      hFails, ?_⟩
    unfold Graph.removeDead
    rw [hFails]
    rfl

/-
  A native node that leads to a foreign one, and a foreign node that is
  bound to a formal and to a recorded call.
-/
def foreignActual : List Update :=
  [.createNode Flags.empty 16,
    .createNode (Flags.only .foreign) 8,
    .createNode (Flags.only .foreign) 8,
    .merge (.addLink ⟨0, 8⟩ none ⟨1, 0⟩),
    .merge (.addLink ⟨1, 0⟩ none ⟨2, 0⟩),
    .merge (.bindRoot (.scalar 7) (some ⟨0, 0⟩)),
    .merge (.bindRoot (.formal 3) (some ⟨2, 4⟩)),
    .recordCallSite 5
      { actuals := [none, some ⟨2, 0⟩]
        result? := some ⟨0, 8⟩ }]

/- The node between them is pruned, and nothing hangs. -/
theorem pruning_leaves_calls_hanging_of_foreignActual :
    ∃ g h : Graph, g.WellFormed ∧ g.CallsIn ∧
      g.pruneForeign = .ok (1, h) ∧ h.hasNode 1 = false ∧
      h.hasNode 2 = true ∧
      (∀ c, h.Stores c → h.hasNode c.node = true) ∧
      h.compress = .ok h := by
  rcases Update.exists_runs {} foreignActual []
      (P := fun g _ => g.CallsIn ∧
        g.pruneForeign.map (fun r => (r.1, r.2.hasNode 1,
          r.2.hasNode 2, r.2.compress.isOk)) =
            .ok (1, false, true, true))
      (by decide) (by decide +kernel) with
    ⟨g, _, _, _, hg, _, hCalls, hEval⟩
  rcases Checked.map_eq_ok_iff.mp hEval with
    ⟨⟨count, h⟩, hRun, hPruned⟩
  simp only [Prod.mk.injEq] at hPruned
  rcases hPruned with ⟨rfl, hOne, hTwo, hOk⟩
  rcases pruning_leaves_calls_hanging hg hCalls with
    ⟨hOver, _⟩ | ⟨_, _, hRun', _, _, _, _, hNone, hSome⟩
  · rw [hOver] at hRun
    cases hRun
  · rw [hRun] at hRun'
    cases hRun'
    have hAll := hNone fun id hRecorded hOrphan => by
      rcases hSome id hRecorded hOrphan with
        ⟨_, _, _, hFails, _⟩
      rw [hFails] at hOk
      cases hOk
    exact ⟨g, h, hg, hCalls, hRun, hOne, hTwo, hAll.1,
      hAll.2.2.1⟩

/- A foreign node that only a recorded call is bound to. -/
def recordedOrphan : List Update :=
  [.createNode (Flags.only .foreign) 8,
    .recordCallSite 0 { actuals := [some ⟨0, 0⟩] }]

/-
  The node is pruned, the call still names its slot, and the next
  compression reads it.
-/
theorem recorded_orphan_is_pruned :
    ∃ g h : Graph, Update.runAll {} recordedOrphan = .ok g ∧ g.WellFormed ∧ g.CallsIn ∧
      g.pruneForeign = .ok (1, h) ∧ h.hasNode 0 = false ∧
      h.callSites.get? 0 = some { actuals := [some ⟨0, 0⟩] } ∧
      h.compress = .error (.deletedNode 0) := by
  rcases Update.exists_runs {} recordedOrphan [] (P := fun g _ => g.CallsIn ∧
        g.pruneForeign.map (fun r => (r.1, r.2.hasNode 0, r.2.callSites.get? 0)) = .ok (1, false,
              some { actuals := [some ⟨0, 0⟩] }) ∧
        (g.pruneForeign >>= fun r => r.2.compress) = .error (.deletedNode 0))
      (by decide) (by decide +kernel) with
    ⟨g, _, hBuild, _, hg, _, hCalls, hEval, hFails⟩
  rcases map_eq_ok_iff.mp hEval with ⟨⟨count, h⟩, hRun, hPruned⟩
  simp only [Prod.mk.injEq] at hPruned
  rcases hPruned with ⟨rfl, hFree, hCall⟩
  rw [hRun, ok_bind] at hFails
  exact ⟨g, h, hBuild, hg, hCalls, hRun, hFree, hCall, hFails⟩

end HeapShape
