import HeapShape.Proofs.Graph.Compressed
import HeapShape.Proofs.Graph.Congruence
import HeapShape.Proofs.Graph.Foreign

/-
  What pruning keeps.

  A node is pruned if it is foreign and no root is bound to it. All other
  live nodes stay, are native afterwards, and have their links to each
  other.

  Main declarations:
    * `Graph.slot_of_pruneForeign`
    * `Graph.KeepsNative`
    * `Graph.KeepsNative.of_pruneForeign`
    * `Graph.KeepsNative.of_compress`
-/

-- Clearing The Flag

namespace HeapShape

open Checked

/- An empty set has no member. -/
theorem OrdSet.not_mem_of_isEmpty
    {s : OrdSet NodeId}
    (hEmpty : s.isEmpty = true)
    (a : NodeId) :
    a ∉ s := by
  rw [← mem_toList_iff]
  unfold toList OrdMap.keys
  rw [List.isEmpty_iff.mp hEmpty]
  exact List.not_mem_nil

namespace Graph

variable {g h : Graph} {id : NodeId} {n : Node}

/- Clearing the flag of one node. -/
theorem slot_of_clearForeign
    {i : NodeId}
    (hRun : g.modifyContents i (fun n =>
      { n with flags := n.flags.erase .foreign }) = .ok h)
    (hLive : g.slot id = .live n) :
    ∃ n', h.slot id = .live n' ∧ n'.links = n.links ∧ (n'.isForeign = true ↔
        n.isForeign = true ∧ id ≠ i) := by
  rcases modifyContents_eq_ok hRun with ⟨m, hSlot, rfl⟩
  rw [slot_setSlot (lt_size_of_live hSlot)]
  split
  · next hEq =>
    subst hEq
    rw [hSlot] at hLive
    cases hLive
    refine ⟨_, rfl, rfl, ?_⟩
    simp [Node.isForeign, Flags.has_erase]
  · next hne => exact ⟨n, hLive, rfl, (and_iff_left hne).symm⟩

/- Clearing the flags of some nodes. -/
theorem slot_of_clearForeigns
    {ids : List NodeId}
    (hRun : ids.foldlM (fun (g : Graph) i =>
      g.modifyContents i fun n =>
        { n with flags := n.flags.erase .foreign }) g = .ok h)
    (hLive : g.slot id = .live n) :
    ∃ n', h.slot id = .live n' ∧ n'.links = n.links ∧ (n'.isForeign = true ↔
        n.isForeign = true ∧ id ∉ ids) := by
  induction ids generalizing g n with
  | nil =>
    cases hRun
    exact ⟨n, hLive, rfl, by simp⟩
  | cons i ids ih =>
    rw [List.foldlM_cons] at hRun
    rcases of_bind hRun with ⟨g₁, hStep, hRun⟩
    rcases slot_of_clearForeign hStep hLive with ⟨n₁, hLive₁, hLinks₁, hForeign₁⟩
    rcases ih hRun hLive₁ with ⟨n', hLive', hLinks', hForeign'⟩
    refine ⟨n', hLive', hLinks'.trans hLinks₁, ?_⟩
    rw [hForeign', hForeign₁, List.mem_cons, not_or, and_assoc]

-- Pruning

variable {cells : List (Root × Cell)} {rooted : OrdSet NodeId} {count : Nat}

/- Every root cell is that of a root. -/
theorem exists_of_mem_rootCells
    (hRun : g.rootCells = .ok cells)
    {r : Root}
    {d : Cell}
    (hMem : (r, d) ∈ cells) :
    ∃ c, g.roots.get? r = some c ∧ g.resolve c = .ok d := by
  rcases mapM_eq_ok hRun with ⟨hLength, hEach⟩
  rcases List.mem_iff_getElem?.mp hMem with ⟨i, hi⟩
  have hLt : i < g.roots.entries.length := by
    rw [← hLength]
    exact (List.getElem?_eq_some_iff.mp hi).1
  rcases hEach i _ (List.getElem?_eq_getElem hLt) with ⟨y, hy, hResolve⟩
  rw [hi] at hy
  cases hy
  rcases of_bind hResolve with ⟨c, hc, hEnd⟩
  cases hEnd
  exact ⟨_, (OrdMap.get?_eq_some_iff _ _ _).mpr (List.getElem_mem hLt), hc⟩

/- The nodes of root cells are those of roots. -/
theorem mem_rootNodes_iff
    (hRun : g.rootCells = .ok cells) :
    id ∈ cells.map (fun (_, c) => c.node) ↔ g.Rooted id := by
  constructor
  · intro hMem
    rcases List.mem_map.mp hMem with ⟨⟨r, d⟩, hPair, rfl⟩
    rcases exists_of_mem_rootCells hRun hPair with ⟨c, hRoot, hResolve⟩
    rcases leads_of_resolve hResolve with ⟨k, hLeads, _⟩
    exact ⟨r, c, k, hRoot, hLeads⟩
  · rintro ⟨r, c, k, hRoot, hLeads⟩
    rcases mem_rootCells hRun hRoot with ⟨d, hPair, hResolve⟩
    rcases leads_of_resolve hResolve with ⟨k', hLeads', _⟩
    rcases hLeads.unique hLeads' with ⟨rfl, _⟩
    exact List.mem_map.mpr ⟨_, hPair, rfl⟩

/- Collection binds roots to the nodes that they led to. -/
theorem Collected.rooted_iff
    (hgh : Collected g h) :
    h.Rooted id ↔ g.Rooted id := by
  constructor
  · rintro ⟨r, c, k, hRoot, hLeads⟩
    rcases hgh.eq_of_leads hLeads with ⟨hEq, _⟩
    have hFound := hgh.roots r
    rw [hRoot] at hFound
    rcases root_of_rootCell? hFound with ⟨d, hd, hResolve⟩
    rcases leads_of_resolve hResolve with ⟨i, hEnd, _⟩
    exact ⟨r, d, i, hd, hEq ▸ hEnd⟩
  · rintro ⟨r, c, k, hRoot, hLeads⟩
    rcases hgh.exists_root hRoot with ⟨d, hResolve, hNew, _⟩
    rcases leads_of_resolve hResolve with ⟨i, hEnd, _⟩
    rcases hLeads.unique hEnd with ⟨rfl, _⟩
    rcases hgh.wellFormed.leads (hgh.wellFormed.root_has r d hNew).occupied with ⟨m, j, hThere⟩
    rcases hgh.eq_of_leads hThere with ⟨rfl, rfl⟩
    exact ⟨r, d, 0, hNew, hThere⟩

/- The live nodes that are foreign and not in a set. -/
def prunable
    (g : Graph)
    (rooted : OrdSet NodeId) : OrdSet NodeId :=
  OrdSet.ofList <|
    (g.liveNodes.filter fun (i, n) =>
      n.isForeign && !rooted.contains i).map Prod.fst

theorem mem_prunable_iff
    (hLive : g.slot id = .live n) :
    id ∈ g.prunable rooted ↔ n.isForeign = true ∧ id ∉ rooted := by
  unfold prunable
  rw [OrdSet.mem_ofList_iff, List.mem_map]
  constructor
  · rintro ⟨⟨i, m⟩, hMem, rfl⟩
    rcases List.mem_filter.mp hMem with ⟨hIn, hTest⟩
    rw [mem_liveNodes.mp hIn] at hLive
    cases hLive
    rcases Bool.and_eq_true_iff.mp hTest with ⟨hForeign, hOut⟩
    refine ⟨hForeign, fun hRooted => ?_⟩
    have hTrue : rooted.contains i = true := hRooted
    rw [hTrue] at hOut
    cases hOut
  · rintro ⟨hForeign, hOut⟩
    refine ⟨(id, n), List.mem_filter.mpr ⟨mem_liveNodes.mpr hLive, ?_⟩, rfl⟩
    rw [Bool.and_eq_true]
    refine ⟨hForeign, ?_⟩
    rw [Bool.not_eq_true', ← Bool.not_eq_true]
    exact hOut

/- A graph from which some nodes were cut off and freed. -/
def CutFrom
    (g h : Graph)
    (cut : OrdSet NodeId) : Prop :=
  ∀ id n, g.slot id = .live n →
    (id ∈ cut ∧ h.slot id = .free) ∨
    (id ∉ cut ∧ ∃ links,
      h.slot id = .live { n with links := links } ∧
      ∀ f t, n.links.get? f = some t → t.node ∉ cut →
        links.get? f = some t)

theorem CutFrom.of_isEmpty
    {cut : OrdSet NodeId}
    (hEmpty : cut.isEmpty = true) :
    CutFrom g g cut := by
  intro id n hLive
  exact Or.inr ⟨OrdSet.not_mem_of_isEmpty hEmpty id, n.links, hLive, fun _ _ hGet _ => hGet⟩

theorem CutFrom.cutAway
    (g : Graph)
    (cut : OrdSet NodeId) :
    CutFrom g ((g.cutLinks cut).retain fun i _ => !cut.contains i).2 cut := by
  intro id n hLive
  have hCut := slot_cutLinks_of_live cut hLive
  rw [slot_retain, hCut]
  by_cases hIn : id ∈ cut
  · refine Or.inl ⟨hIn, if_pos ⟨hasNode_of_live hCut, ?_⟩⟩
    rw [Bool.not_eq_false']
    exact hIn
  · refine Or.inr ⟨hIn, _, if_neg ?_, ?_⟩
    · rintro ⟨_, hKeep⟩
      rw [Bool.not_eq_false'] at hKeep
      exact hIn hKeep
    · intro f t hGet hOut
      refine (OrdMap.get?_filter _ _ _ _).mpr ⟨hGet, ?_⟩
      rw [Bool.not_eq_true', ← Bool.not_eq_true]
      exact hOut

/-
  A graph without forwards in which the nodes of a set are foreign, which
  are those that were and have no root.
-/
def Cleared
    (g h : Graph)
    (cut : OrdSet NodeId) : Prop :=
  ∀ id n, g.slot id = .live n → ∃ n',
    h.slot id = .live n' ∧
    (n'.isForeign = true ↔ id ∈ cut) ∧
    (id ∈ cut ↔ n.isForeign = true ∧ ¬ g.Rooted id) ∧
    ∀ f, (n.links.get? f).mapM g.resolve =
      .ok (n'.links.get? f)

theorem Cleared.of_compressed
    (hgh : Compressed g h)
    (hCells : h.rootCells = .ok cells)
    (hRooted : rooted = OrdSet.ofList (cells.map fun (_, c) => c.node))
    {i : Graph}
    (hClear : rooted.toList.foldlM (fun (g : Graph) i =>
      g.modifyContents i fun n =>
        { n with flags := n.flags.erase .foreign }) h = .ok i) :
    Cleared g i (h.prunable rooted) := by
  intro id n hLive
  have hMem : id ∈ rooted ↔ g.Rooted id := by
    rw [hRooted, OrdSet.mem_ofList_iff, mem_rootNodes_iff hCells, hgh.rooted_iff]
  rcases hgh.live id n hLive with ⟨links, hLive₁, hLinks⟩
  rcases slot_of_clearForeigns hClear hLive₁ with ⟨n', hLive', hSame, hForeign⟩
  have hCut : id ∈ h.prunable rooted ↔ _ := mem_prunable_iff hLive₁
  refine ⟨n', hLive', ?_, ?_, ?_⟩
  · rw [hForeign, hCut, OrdSet.mem_toList_iff]
  · rw [hCut, hMem]
    rfl
  · rw [hSame]
    exact hLinks

/-
  Pruning compresses, clears the flag of the nodes of roots and cuts the
  other foreign nodes off.
-/
theorem pruneForeign_eq_ok
    (hg : g.WellFormed)
    (hRun : g.pruneForeign = .ok (count, h)) :
    ∃ i cut, Cleared g i cut ∧ CutFrom i h cut := by
  unfold Graph.pruneForeign at hRun
  rcases of_bind hRun with ⟨g₁, hCompress, hRun⟩
  rcases of_bind hRun with ⟨cells, hCells, hRun⟩
  rcases of_bind hRun with ⟨g₂, hClear, hRun⟩
  refine ⟨g₂, _, .of_compressed (.of_compress hg hCompress) hCells rfl hClear, ?_⟩
  dsimp only at hRun
  split at hRun
  · next hEmpty =>
    cases hRun
    exact .of_isEmpty hEmpty
  · cases hRun
    exact .cutAway _ _

/-
  A live node is freed if it is foreign and not bound to a root. Otherwise
  it is native afterwards and has its links to nodes that stay.
-/
theorem slot_of_pruneForeign
    (hg : g.WellFormed)
    (hRun : g.pruneForeign = .ok (count, h))
    (hLive : g.slot id = .live n) :
    (n.isForeign = true ∧ ¬ g.Rooted id ∧ h.slot id = .free) ∨
    ((n.isForeign = false ∨ g.Rooted id) ∧ ∃ n', h.slot id = .live n' ∧
        n'.isForeign = false ∧
        ∀ f t, n.links.get? f = some t → ∃ t', g.resolve t = .ok t' ∧
            (h.slot t'.node ≠ .free → n'.links.get? f = some t')) := by
  rcases pruneForeign_eq_ok hg hRun with ⟨i, cut, hCleared, hCut⟩
  rcases hCleared id n hLive with ⟨n₁, hLive₁, hForeign, hMem, hLinks⟩
  rcases hCut id n₁ hLive₁ with ⟨hIn, hFree⟩ | ⟨hOut, links, hLive', hKept⟩
  · rcases hMem.mp hIn with ⟨hYes, hNot⟩
    exact Or.inl ⟨hYes, hNot, hFree⟩
  · refine Or.inr ⟨?_, _, hLive', ?_, ?_⟩
    · by_contra hNone
      rw [not_or, Bool.not_eq_false] at hNone
      exact hOut (hMem.mpr hNone)
    · exact Bool.eq_false_iff.mpr (mt hForeign.mp hOut)
    · intro f t hGet
      have hFound := hLinks f
      rw [hGet] at hFound
      rcases option_mapM_some_eq_ok hFound with ⟨t', hResolve, hNew⟩
      refine ⟨t', hResolve, fun hStays => ?_⟩
      refine hKept f t' hNew fun hIn => hStays ?_
      rcases leads_of_resolve hResolve with ⟨_, hLeads, _⟩
      rcases hLeads.live_end with ⟨m, hm⟩
      rcases hCleared _ m hm with ⟨m₁, hm₁, _⟩
      rcases hCut _ m₁ hm₁ with ⟨_, hFree⟩ | ⟨hNot, _⟩
      · exact hFree
      · exact absurd hIn hNot

-- Native Structure

/-
  Collecting keeps the native nodes and the links among the nodes that are
  kept.
-/
structure KeepsNative
    (g h : Graph) : Prop
    extends Collected g h where
  kept : ∀ id n, g.slot id = .live n →
    n.isForeign = false → ∃ n', h.slot id = .live n'
  links : ∀ id n n' f t, g.slot id = .live n →
    h.slot id = .live n' → n.links.get? f = some t →
    ∃ t', g.resolve t = .ok t' ∧
      (h.slot t'.node ≠ .free → n'.links.get? f = some t')

theorem KeepsNative.of_compress
    (hg : g.WellFormed)
    (hRun : g.compress = .ok h) :
    KeepsNative g h := by
  have hgh := Compressed.of_compress hg hRun
  refine ⟨hgh.toCollected, ?_, ?_⟩
  · intro id n hLive _
    rcases hgh.live id n hLive with ⟨links, hNew, _⟩
    exact ⟨_, hNew⟩
  · intro id n n' f t hLive hNew hGet
    rcases hgh.exists_link hLive hGet with ⟨m, t', hm, _, hFound, hResolve⟩
    rw [hNew] at hm
    cases hm
    exact ⟨t', hResolve, fun _ => hFound⟩

theorem KeepsNative.of_pruneForeign
    (hg : g.WellFormed)
    (hRun : g.pruneForeign = .ok (count, h)) :
    KeepsNative g h := by
  refine ⟨.of_pruneForeign hg hRun, ?_, ?_⟩
  · intro id n hLive hn
    rcases slot_of_pruneForeign hg hRun hLive with ⟨hForeign, _⟩ | ⟨_, n', hNew, _⟩
    · rw [hn] at hForeign
      cases hForeign
    · exact ⟨n', hNew⟩
  · intro id n n' f t hLive hNew hGet
    rcases slot_of_pruneForeign hg hRun hLive with ⟨_, _, hFree⟩ | ⟨_, m, hm, _, hLinks⟩
    · rw [hNew] at hFree
      cases hFree
    · rw [hNew] at hm
      cases hm
      exact hLinks f t hGet

/- What is left after pruning is native. -/
theorem allNative_of_pruneForeign
    (hg : g.WellFormed)
    (hRun : g.pruneForeign = .ok (count, h)) :
    h.AllNative := by
  intro id n' hNew
  rcases (Collected.of_pruneForeign hg hRun).nodes id n' hNew with ⟨n, hLive, _⟩
  rcases slot_of_pruneForeign hg hRun hLive with ⟨_, _, hFree⟩ | ⟨_, m, hm, hNative, _⟩
  · rw [hNew] at hFree
    cases hFree
  · rw [hNew] at hm
    cases hm
    exact hNative

instance
    (g : Graph) : Decidable g.AllNative :=
  decidable_of_iff
    (∀ p ∈ g.liveNodes, p.2.isForeign = false) <| by
    constructor
    · intro hAll id n hLive
      exact hAll (id, n) (mem_liveNodes.mpr hLive)
    · rintro hNative ⟨id, n⟩ hMem
      exact hNative id n (mem_liveNodes.mp hMem)

/- Compression changes no flag. -/
theorem AllNative.compress
    (hNative : g.AllNative)
    (hg : g.WellFormed)
    (hRun : g.compress = .ok h) :
    h.AllNative := by
  have hgh := Compressed.of_compress hg hRun
  intro id n' hNew
  rcases hgh.nodes id n' hNew with ⟨n, hLive, _⟩
  rcases hgh.live id n hLive with ⟨links, hSame, _⟩
  rw [hNew] at hSame
  cases hSame
  exact hNative id n hLive

end Graph

end HeapShape
