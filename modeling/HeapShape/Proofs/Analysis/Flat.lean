import HeapShape.Proofs.Analysis.Progress
import HeapShape.Proofs.Graph.Foreign
import Mathlib.Control.Traversable.Instances
import Mathlib.Data.List.Permutation

/-
  Flat graphs.

  Merging makes no node out of nothing: every node that is live afterwards
  is where a chain from an old live node ends. So once all live nodes were
  merged with one of them, the graph has one live node. It is collapsed, and
  its allocation sites are those of all nodes together.

  Main declarations:
    * `Graph.MergeSteps.comesFrom`
    * `Graph.Flat`
    * `Graph.flat_of_flatten`
    * `flat_run_merges_all`
-/

-- Where Live Nodes Come From

namespace HeapShape

open Checked

namespace Graph

/- Every live node of `h` is led to by one of `g`. -/
def ComesFrom
    (g h : Graph) : Prop :=
  ∀ id n, h.slot id = .live n →
    ∃ x k n₀, g.slot x = .live n₀ ∧ h.Leads x id k

variable {g h : Graph} {id m : NodeId} {k : Nat}

/- Chains go on where they ended. -/
theorem MergeStep.leads
    (hStep : MergeStep g h)
    (hg : g.FreeListed)
    (hLeads : g.Leads id m k) :
    ∃ m' k', h.Leads m m' k' ∧ h.Leads id m' (k + k') := by
  cases hStep with
  | shorten hs => exact (Derived.shortened (T := fun _ => False) hg hs).leads id m k hLeads
  | @change _ _ n' hLive hn =>
    have hSame := hLeads.setLive hLive n'
    rcases hSame.live_end with ⟨n, hEnd⟩
    exact ⟨m, 0, .live hEnd, hSame⟩
  | absorb hThis hOther hne offset =>
    exact (Derived.takenOver (T := fun _ => False) hg hThis hOther hne offset).leads id m k hLeads
  | replace hOther => exact (Fused.replaced (T := fun _ => False) hg hOther).leads id m k hLeads

theorem MergeStep.comesFrom
    (hStep : MergeStep g h)
    (hg : g.FreeListed) :
    ComesFrom g h := by
  intro id n hLive
  cases hStep with
  | shorten hs => exact ⟨id, 0, n, hs.live_iff.mp hLive, .live hLive⟩
  | @change x n₀ n' hOld hn =>
    have hLive' := hLive
    rw [slot_setSlot (lt_size_of_live hOld)] at hLive'
    split at hLive'
    · next hEq =>
      subst hEq
      exact ⟨id, 0, n₀, hOld, .live hLive⟩
    · exact ⟨id, 0, n, hLive', .live hLive⟩
  | @absorb this other n₁ n₂ hThis hOther hne offset =>
    have hLive' := hLive
    rw [slot_takenOver hThis hOther] at hLive'
    split at hLive'
    · cases hLive'
    · split at hLive'
      · next hEq =>
        subst hEq
        exact ⟨id, 0, n₁, hThis, .live hLive⟩
      · exact ⟨id, 0, n, hLive', .live hLive⟩
  | @replace other m hOther =>
    rcases hg.standIn hOther with ⟨hne, hFresh, hOld⟩
    have hSlot := slot_takenOver (k := 0) hFresh hOld
    have hLive' := hLive
    rw [replaced, hSlot] at hLive'
    split at hLive'
    · cases hLive'
    · split at hLive'
      · next hEq =>
        -- The fresh node stands for the one it absorbed.
        have hThere : (g.replaced other m).slot other =
            .forward { node := g.makeStandIn.1, offset := 0 } :=
          (hSlot other).trans (if_pos rfl)
        subst hEq
        exact ⟨other, 0, m, hOther, .forward hThere (.live hLive)⟩
      · next hNe =>
        refine ⟨id, 0, n, ?_, .live hLive⟩
        exact ((hg.slot_createNode _ _).2 id).symm.trans hLive' |> (if_neg hNe).symm.trans

/- Merging makes no node out of nothing. -/
theorem MergeSteps.comesFrom
    (hSteps : MergeSteps g h)
    (hg : g.FreeListed) :
    ComesFrom g h := by
  have hBoth : h.FreeListed ∧ ComesFrom g h := by
    refine hSteps.keep (P := fun h => h.FreeListed ∧ ComesFrom g h) ?_ ⟨hg, fun id n hLive =>
        ⟨id, 0, n, hLive, .live hLive⟩⟩
    rintro a b hStep ⟨ha, hComes⟩
    refine ⟨hStep.freeListed ha, ?_⟩
    intro id n hLive
    rcases hStep.comesFrom ha id n hLive with ⟨x, k, n₁, hLive₁, hLeads⟩
    rcases hComes x n₁ hLive₁ with ⟨y, j, n₀, hLive₀, hLeads₀⟩
    rcases hStep.leads ha hLeads₀ with ⟨m, i, hEnd, hAll⟩
    rcases hEnd.unique hLeads with ⟨rfl, rfl⟩
    exact ⟨y, _, n₀, hLive₀, hAll⟩
  exact hBoth.2

-- Merging All Nodes

/-
  Some nodes of `g` are merged into the collapsed node `rep` of `h`.
-/
structure Flattening
    (g : Graph)
    (done : List NodeId)
    (rep : NodeId)
    (h : Graph) : Prop where
  steps : MergeSteps g h
  evolves : ∀ P, Evolves P (fun _ => False) g h
  collapsed : ∃ n, h.slot rep = .live n ∧
    n.isCollapsed = true
  leads : ∀ x ∈ done, ∃ k, h.Leads x rep k

variable {h' : Graph} {done : List NodeId} {rep rep' : NodeId}

/- A collapse, told by where the node is afterwards. -/
theorem collapse_eq_ok
    (hg : g.WellFormed)
    (hNode : g.hasNode id = true)
    (hRun : g.collapse id = .ok (rep, h)) :
    MergeSteps g h ∧ (∀ P, Evolves P (fun _ => False) g h) ∧
      (∃ n, h.slot rep = .live n ∧ n.isCollapsed = true) ∧
      ∃ k, h.Leads id rep k := by
  have hEvolves : ∀ P, Evolves P (fun _ => False) g h :=
    fun P => ((Evolves.collapse P _ hg hNode).of_eq_ok hRun).1
  rcases (Sound.collapseBy (E := False) (unites_unifyWithin _) hg hRun).2 with
    ⟨r, k, hLeads, ⟨m, n, hEnd, hLive, hCollapsed⟩, hRep⟩
  rcases hEnd.unique hRep with ⟨rfl, _⟩
  rcases (hEvolves fun _ => False).merged.leads _ _ _ hLeads with ⟨m', k', hEnd', hAll⟩
  rcases hEnd.unique hEnd' with ⟨rfl, _⟩
  have hFused := (Fused.collapseBy (T := fun _ => False)
    (derives_unifyWithin _) hg.freeListed hRun).1
  exact ⟨hFused.steps, hEvolves, ⟨n, hLive, hCollapsed⟩, _, hAll⟩

theorem Flattening.collapse
    (hg : g.WellFormed)
    (hNode : g.hasNode id = true)
    (hRun : g.collapse id = .ok (rep, h)) :
    Flattening g [id] rep h := by
  rcases collapse_eq_ok hg hNode hRun with ⟨hSteps, hEvolves, hCollapsed, hLeads⟩
  refine ⟨hSteps, hEvolves, hCollapsed, ?_⟩
  intro x hx
  cases List.mem_singleton.mp hx
  exact hLeads

/- The nodes stay merged where the last node goes. -/
theorem Flattening.later
    (hFlat : Flattening g done rep h)
    (hSteps : MergeSteps h h')
    (hEvolves : ∀ P, Evolves P (fun _ => False) h h')
    (hRep : h'.Leads rep rep' k) :
    Flattening g done rep' h' where
  steps := hFlat.steps.trans hSteps
  evolves := fun P => (hFlat.evolves P).trans (hEvolves P)
  collapsed := by
    rcases hFlat.collapsed with ⟨n, hLive, hCollapsed⟩
    rcases hRep.live_end with ⟨n', hLive'⟩
    have hStands := (hEvolves fun _ => False).merged.stands rep n rep' k n' hLive hRep hLive'
    exact ⟨n', hLive', hStands.collapsed hCollapsed⟩
  leads := by
    intro x hx
    rcases hFlat.leads x hx with ⟨j, hLeads⟩
    rcases (hEvolves fun _ => False).merged.leads _ _ _ hLeads with ⟨m, i, hEnd, hAll⟩
    rcases hEnd.unique hRep with ⟨rfl, rfl⟩
    exact ⟨_, hAll⟩

theorem Flattening.cons
    (hFlat : Flattening g done rep h)
    (hLeads : h.Leads id rep k) :
    Flattening g (id :: done) rep h where
  steps := hFlat.steps
  evolves := hFlat.evolves
  collapsed := hFlat.collapsed
  leads := by
    intro x hx
    rcases List.mem_cons.mp hx with rfl | hx
    · exact ⟨k, hLeads⟩
    · exact hFlat.leads x hx

/- Looking up a node of the graph. -/
theorem findNode_evolves
    (hg : g.WellFormed)
    (hRun : g.findNode id = .ok (rep, h)) :
    MergeSteps g h ∧ (∀ P, Evolves P (fun _ => False) g h) ∧ ∃ k, h.Leads id rep k := by
  rcases findNode_eq_ok hRun with ⟨k, hLeads, hs⟩
  refine ⟨.single (.shorten hs), ?_, k, hs.leads hLeads⟩
  intro P
  exact ((Evolves.findNode P _ hg hLeads.hasNode).of_eq_ok hRun).1

/- One more node is merged into the one that stands for all. -/
theorem Flattening.flattenInto
    (hFlat : Flattening g done rep h)
    (hRun : flattenInto (rep, h) id = .ok (rep', h')) :
    Flattening g (id :: done) rep' h' := by
  have hh := (hFlat.evolves fun _ => False).wellFormed
  unfold Graph.flattenInto at hRun
  dsimp only at hRun
  rcases of_bind hRun with ⟨⟨node, h₁⟩, hFind, hRun⟩
  rcases findNode_evolves hh hFind with ⟨hSteps₁, hEvolves₁, k, hLeads⟩
  have hh₁ := (hEvolves₁ fun _ => False).wellFormed
  dsimp only at hRun
  split at hRun
  · next hEq =>
    cases hRun
    subst hEq
    rcases hLeads.live_end with ⟨_, hEnd⟩
    exact (hFlat.later hSteps₁ hEvolves₁ (.live hEnd)).cons hLeads
  · rcases of_bind hRun with ⟨⟨last, h₂⟩, hCollapse, hRun⟩
    rcases of_bind hRun with ⟨h₃, hUnify, hRun⟩
    rcases hLeads.live_end with ⟨_, hLive⟩
    rcases collapse_eq_ok hh₁ (hasNode_of_live hLive) hCollapse with
      ⟨hSteps₂, hEvolves₂, _, j, hLast⟩
    have hh₂ := (hEvolves₂ fun _ => False).wellFormed
    have hUnited := Carries.unify (E := False) hh₂ hUnify
    have hFused := Fused.unify (T := fun _ => False) hh₂.freeListed hUnify
    have hEvolves₃ : ∀ P, Evolves P (fun _ => False) h₂ h₃ := fun P =>
      .of_derived hUnited.later hFused.toDerived
    rcases findNode_evolves hUnited.later.wellFormed hRun with ⟨hSteps₄, hEvolves₄, i, hRep⟩
    have hSteps := ((hSteps₁.trans hSteps₂).trans hFused.steps).trans hSteps₄
    have hEvolves : ∀ P, Evolves P (fun _ => False) h h' :=
      fun P => (((hEvolves₁ P).trans (hEvolves₂ P)).trans (hEvolves₃ P)).trans (hEvolves₄ P)
    have hFlat' := hFlat.later hSteps hEvolves hRep
    -- Where the new node goes, the one before went as well.
    have hSame : h'.SameNode (Cell.start rep) (Cell.start last) :=
      ((hUnited.here fun hE => hE.elim).2.1).merged (hEvolves₄ fun _ => False).merged
    have hNew : h'.SameNode (Cell.start id) (Cell.start last) := by
      have hFirst : h₁.SameNode (Cell.start id) (Cell.start node) :=
        ⟨node, k, 0, hLeads, .live hLive⟩
      have hSecond : h₂.SameNode (Cell.start node) (Cell.start last) := by
        rcases hLast.live_end with ⟨_, hEnd⟩
        exact ⟨last, j, 0, hLast, .live hEnd⟩
      have hRest : Merged h₂ h' :=
        ((hEvolves₃ fun _ => False).trans (hEvolves₄ fun _ => False)).merged
      exact (hFirst.merged ((hEvolves₂ fun _ => False).merged.trans (hEvolves
          fun _ => False).wellFormed hRest)).trans
        (hSecond.merged hRest)
    rcases hNew.trans hSame.symm with ⟨m, _, _, hId, hRep'⟩
    rcases hRep'.unique hRep with ⟨rfl, _⟩
    exact hFlat'.cons hId

/- All nodes of a list are merged into one. -/
theorem Flattening.foldlM
    (hFlat : Flattening g done rep h)
    {ids : List NodeId}
    (hRun : ids.foldlM Graph.flattenInto (rep, h) = .ok (rep', h')) :
    Flattening g (ids.reverse ++ done) rep' h' := by
  induction ids generalizing done rep h with
  | nil =>
    cases hRun
    exact hFlat
  | cons id rest ih =>
    rw [List.foldlM_cons] at hRun
    rcases of_bind hRun with ⟨⟨next, h₁⟩, hStep, hRun⟩
    rw [List.reverse_cons, List.append_assoc]
    exact ih (hFlat.flattenInto hStep) hRun

/-
  A graph of one collapsed node, to which all roots lead, and which comes
  from all the sites of another graph.
-/
structure Flat
    (g h : Graph)
    (rep : NodeId)
    (n : Node) : Prop where
  live : h.slot rep = .live n
  collapsed : n.isCollapsed = true
  only : ∀ id, h.slot id ≠ .free → id = rep
  roots : ∀ r c, h.roots.get? r = some c →
    ∃ d, h.resolve c = .ok d ∧ d.node = rep
  sites : ∀ s, s ∈ n.allocSites ↔
    ∃ id m, g.slot id = .live m ∧ s ∈ m.allocSites

/- A graph in which no slot is live has no occupied slot. -/
theorem WellFormed.slot_eq_free
    (hg : g.WellFormed)
    (hNone : g.liveNodes = [])
    (id : NodeId) :
    g.slot id = .free := by
  by_contra hUsed
  rcases hg.leads (hasNode_iff.mpr hUsed) with ⟨m, k, hLeads⟩
  rcases hLeads.live_end with ⟨n, hLive⟩
  have hMem := mem_liveNodes.mpr hLive
  rw [hNone] at hMem
  cases hMem

/- All live nodes are merged, then the graph is compressed. -/
theorem flatten_eq_ok
    (hg : g.WellFormed)
    (hRun : g.flatten = .ok h) :
    g.liveNodes = [] ∧ h = g ∨ ∃ rep g₁ done, Flattening g done rep g₁ ∧
        (∀ id n, g.slot id = .live n → id ∈ done) ∧
        g₁.compress = .ok h := by
  unfold Graph.flatten at hRun
  split at hRun
  · next hNone =>
    cases hRun
    exact Or.inl ⟨List.map_eq_nil_iff.mp hNone, rfl⟩
  · next first rest hNodes =>
    have hLive : ∀ id, id ∈ first :: rest ↔ ∃ n, g.slot id = .live n := by
      intro id
      rw [← hNodes, List.mem_map]
      constructor
      · rintro ⟨e, he, rfl⟩
        exact ⟨e.2, mem_liveNodes.mp he⟩
      · rintro ⟨n, hn⟩
        exact ⟨(id, n), mem_liveNodes.mpr hn, rfl⟩
    rcases of_bind hRun with ⟨⟨rep₀, g₀⟩, hFirst, hRun⟩
    rcases of_bind hRun with ⟨⟨rep, g₁⟩, hRest, hRun⟩
    rcases (hLive first).mp List.mem_cons_self with ⟨_, hn⟩
    refine Or.inr ⟨rep, g₁, _, (Flattening.collapse hg
      (hasNode_of_live hn) hFirst).foldlM hRest, ?_, hRun⟩
    intro id n hn
    rcases List.mem_cons.mp ((hLive id).mpr ⟨n, hn⟩) with rfl | hMem
    · exact List.mem_append_right _ List.mem_cons_self
    · exact List.mem_append_left _ (List.mem_reverse.mpr hMem)

/- Flattening a graph leaves one node, or there was none. -/
theorem flat_of_flatten
    (hg : g.WellFormed)
    (hRun : g.flatten = .ok h) :
    h.WellFormed ∧ ((∀ id, g.slot id = .free) ∧ h = g ∨ ∃ rep n, Flat g h rep n) := by
  rcases flatten_eq_ok hg hRun with ⟨hNone, rfl⟩ | ⟨rep, g₂, done, hFlat, hAll, hRun⟩
  · exact ⟨hg, Or.inl ⟨hg.slot_eq_free hNone, rfl⟩⟩
  · have hg₂ := (hFlat.evolves fun _ => False).wellFormed
    have hDone := Compressed.of_compress hg₂ hRun
    have hLeads : ∀ id n, g.slot id = .live n → ∃ k, g₂.Leads id rep k :=
      fun id n hn => hFlat.leads id (hAll id n hn)
    rcases hFlat.collapsed with ⟨n, hRep, hCollapsed⟩
    rcases hDone.live rep n hRep with ⟨links, hNew, _⟩
    have hOnly : ∀ id, h.slot id ≠ .free → id = rep := by
      intro id hUsed
      rcases slot_cases_of_hasNode (hasNode_iff.mpr hUsed) with ⟨n', hn'⟩ | ⟨t, ht⟩
      · rcases hDone.nodes id n' hn' with ⟨n₂, hn₂, _⟩
        rcases hFlat.steps.comesFrom hg.freeListed id n₂ hn₂ with ⟨x, k, n₀, hn₀, hId⟩
        rcases hLeads x n₀ hn₀ with ⟨j, hRep'⟩
        exact (hId.unique hRep').1
      · exact absurd ht (hDone.flat id t)
    refine ⟨hDone.wellFormed, Or.inr ⟨rep, _, hNew, hCollapsed, hOnly, ?_, ?_⟩⟩
    · intro r c hRoot
      have hc := hDone.wellFormed.root_has r c hRoot
      exact ⟨c, hDone.resolve_eq hc, hOnly c.node (hasNode_iff.mp hc.occupied)⟩
    · intro s
      constructor
      · intro hs
        have hConfined := (hFlat.evolves (· = s)).confined
          (fun x => ∃ m, g.slot x = .live m ∧ s ∈ m.allocSites)
          (fun _ hNone => hNone.elim)
          (by
            rintro id m _ hm hSite rfl
            exact ⟨id, 0, ⟨m, hm, hSite⟩, .live hm⟩)
        rcases hConfined rep n s hRep hs rfl with ⟨x, _, ⟨m, hm, hs⟩, _⟩
        exact ⟨x, m, hm, hs⟩
      · rintro ⟨id, m, hm, hs⟩
        rcases hLeads id m hm with ⟨k, hEnd⟩
        exact ((hFlat.evolves fun _ => False).merged.stands id m rep k n hm hEnd hRep).sites s hs

/- All values with a cell lie in the one node. -/
theorem Flat.cell
    {n : Node}
    (hFlat : Flat g h rep n)
    {v : ValueId}
    {c : Cell}
    (hCell : h.cell? v = .ok (some c)) :
    c.node = rep ∧ h.effective c = .ok { node := rep, offset := 0 } := by
  rcases root_of_cell? hCell with ⟨r, c₀, _, hRoot, hRes⟩
  rcases hFlat.roots r c₀ hRoot with ⟨d, hRes', hNode⟩
  rw [hRes] at hRes'
  cases hRes'
  have hLive : h.slot c.node = .live n := by
    rw [hNode, hFlat.live]
  refine ⟨hNode, ?_⟩
  rw [effective_of_resolve (resolve_of_live hLive) hLive,
    hNode, Node.effectiveOffset_of_collapsed hFlat.collapsed]

end Graph

-- Runs

namespace Analysis

variable {a a' b : Analysis} {p : Program} {u : Unit} {g : Graph}

/-
  A run that makes one graph for the program depends on the settings of
  graphs only.
-/
theorem runContextInsensitive_congr
    (hRun : a.runContextInsensitive p = .ok (.ok u, a'))
    (hConfig : b.config.graph = a.config.graph) :
    ∃ b', b.runContextInsensitive p = .ok (.ok (), b') ∧
      b'.store = a'.store ∧ b'.config = b.config ∧
      ∃ g, a'.store = (({} : Store).insert
        ((p.functions.filter FunctionDef.hasBody).map FunctionDef.id) g).2 := by
  unfold runContextInsensitive at hRun ⊢
  dsimp only at hRun ⊢
  rcases of_bind hRun with ⟨low, hLow, hRun⟩
  rw [hConfig, hLow, ok_bind]
  cases low with
  | error e => cases hRun
  | ok g =>
    dsimp only at hRun ⊢
    rcases of_bind hRun with ⟨g₁, hMerge, hRun⟩
    rcases of_bind hRun with ⟨g₂, hCompress, hRun⟩
    rcases of_bind hRun with ⟨⟨_, g₃⟩, hClean, hRun⟩
    cases hRun
    have hMerge' : (CallGraph.ofProgram p).order.foldlM (mergeCall ({ b with
          store := {}, summaries? := none }.context p (.ofProgram p))) g = .ok g₁ := hMerge
    rw [hMerge', ok_bind, hCompress, ok_bind, hClean]
    exact ⟨_, rfl, rfl, rfl, g₃, rfl⟩

theorem mayAlias_of_flat
    {h : Graph}
    {rep : NodeId}
    {n : Node}
    (hFlat : Graph.Flat g h rep n)
    {f : FunctionId}
    (hGraph : a.graph? f = some h)
    {v w : ValueId}
    {c d : Cell}
    (hv : h.cell? v = .ok (some c))
    (hw : h.cell? w = .ok (some d)) :
    a.mayAlias f v w = .ok true := by
  unfold mayAlias
  rw [hGraph]
  dsimp only
  rw [hv, hw, ok_bind, ok_bind]
  dsimp only
  rw [(hFlat.cell hv).2, (hFlat.cell hw).2, ok_bind, ok_bind, Graph.contents_of_live hFlat.live,
    ok_bind, hFlat.collapsed, beq_self_eq_true,
    Bool.true_or]
  rfl

/- The graph of a store of one graph is changed. -/
theorem mapGraphs_of_one
    {α : Type}
    {s t : Store}
    {change : Graph → Checked (α × Graph)}
    {out : List α}
    (hOne : s.graphs = #[g])
    (hRun : s.mapGraphs change = .ok (out, t)) :
    ∃ x h, change g = .ok (x, h) ∧ t.graphs = #[h] := by
  unfold Store.mapGraphs at hRun
  rw [hOne] at hRun
  rcases of_bind hRun with ⟨results, hAll, hRun⟩
  rw [List.mapM_cons, List.mapM_nil] at hAll
  rcases of_bind hAll with ⟨⟨x, h⟩, hChange, hAll⟩
  cases hAll
  cases hRun
  exact ⟨x, h, hChange, rfl⟩

/- The one graph before a flat run is well-formed. -/
theorem wellFormed_of_runContextInsensitive
    (hWords : p.InWords)
    (hRun : a.runContextInsensitive p = .ok (.ok u, a')) :
    ∀ g ∈ a'.store.graphs, g.WellFormed := by
  have hNone : Strays (fun _ _ => False) p
      a.config.cloning :=
    ⟨nofun, nofun, nofun, fun _ _ _ _ _ _ _ _ h => h⟩
  have hSettles := (yields_runContextInsensitive hNone hWords).of_eq_ok hRun
  exact fun g hg => (hSettles.store g hg).wellFormed

/- A flat run that ends well. -/
theorem runFlat_of_run
    {stats : AnalysisStats}
    (hKind : a.config.kind = .flat)
    (hRun : a.run p = .ok (.ok stats, a')) :
    a.runFlat p = .ok (.ok (), a') := by
  unfold run at hRun
  rcases of_bind hRun with ⟨⟨r, a₁⟩, hParts, hRun⟩
  cases r with
  | error e => cases hRun
  | ok parts =>
    cases hRun
    unfold runParts at hParts
    rw [hKind] at hParts
    dsimp only at hParts
    rcases of_bind hParts with ⟨⟨r, a₂⟩, hFlat, hParts⟩
    cases r with
    | error e => cases hParts
    | ok _ =>
      cases hParts
      exact hFlat

/- A context-insensitive run ends well as its one part. -/
theorem run_of_runContextInsensitive
    (hKind : a.config.kind = .contextInsensitive)
    (hRun : a.runContextInsensitive p = .ok (.ok (), a')) :
    ∃ stats, a.run p = .ok (.ok stats, a') := by
  unfold run runParts
  rw [hKind]
  dsimp only
  rw [hRun]
  exact ⟨_, rfl⟩

end Analysis

/-
  A flat run leaves one graph. Either the program has no memory, or the
  graph has one node: it is collapsed, all roots lead to it, its allocation
  sites are those of all nodes of the context-insensitive graph of the
  program, and any two values with a cell may alias.
-/
theorem flat_run_merges_all
    {a a' : Analysis}
    {p : Program}
    {stats : AnalysisStats}
    (hWords : p.InWords)
    (hKind : a.config.kind = .flat)
    (hRun : a.run p = .ok (.ok stats, a')) :
    ∃ g h b stats',
      (Analysis.new { a.config with
        kind := .contextInsensitive }).run p =
          .ok (.ok stats', b) ∧
      b.store.graphs = #[g] ∧ a'.store.graphs = #[h] ∧
      (∀ f ∈ p.functions, f.hasBody = true →
        b.graph? f.id = some g ∧ a'.graph? f.id = some h) ∧
      ((∀ id, g.slot id = .free ∧ h.slot id = .free) ∨
        ∃ rep n, Graph.Flat g h rep n) ∧
      ∀ f ∈ p.functions, f.hasBody = true →
        ∀ v w c d, h.cell? v = .ok (some c) →
          h.cell? w = .ok (some d) →
          a'.mayAlias f.id v w = .ok true := by
  have hFlat := Analysis.runFlat_of_run hKind hRun
  unfold Analysis.runFlat at hFlat
  rw [Checked.bind_eq_ok_iff] at hFlat
  rcases hFlat with ⟨⟨r, a₁⟩, hInner, hFlat⟩
  cases r with
  | error e => cases hFlat
  | ok _ =>
      dsimp only at hFlat
      rw [Checked.bind_eq_ok_iff] at hFlat
      rcases hFlat with ⟨⟨_, store⟩, hMap, hFlat⟩
      cases hFlat
      rcases Analysis.runContextInsensitive_congr
          (b := .new { a.config with
            kind := .contextInsensitive }) hInner rfl with
        ⟨b, hOther, hStore, _, g₀, hInsert⟩
      rcases Analysis.run_of_runContextInsensitive rfl hOther
        with ⟨stats', hOther⟩
      have hOne : a₁.store.graphs =
          #[((p.functions.filter FunctionDef.hasBody).map
            FunctionDef.id).foldl Graph.addFunction g₀] := by
        rw [hInsert]
        rfl
      generalize hMembers : ((p.functions.filter
        FunctionDef.hasBody).map FunctionDef.id) =
          members at hOne hInsert
      generalize members.foldl Graph.addFunction g₀ = g
        at hOne
      rcases Analysis.mapGraphs_of_one hOne hMap with
        ⟨_, h, hChange, hFlatOne⟩
      rw [Checked.bind_eq_ok_iff] at hChange
      rcases hChange with ⟨_, hFlatten, hChange⟩
      cases hChange
      have hg : g.WellFormed :=
        Analysis.wellFormed_of_runContextInsensitive hWords
          hInner g (hOne ▸ Array.mem_singleton.mpr rfl)
      rcases Graph.flat_of_flatten hg hFlatten with
        ⟨hh, hFlat⟩
      have hOwners := (Store.mapGraphs_eq_ok hMap).1
      have hOwn : ∀ f ∈ p.functions, f.hasBody = true →
          b.graph? f.id = some g ∧
            Analysis.graph? { a₁ with store := store } f.id =
              some h := by
        intro f hf hBody
        have hMem : f.id ∈ members := by
          rw [← hMembers]
          exact List.mem_map.mpr
            ⟨f, List.mem_filter.mpr ⟨hf, hBody⟩, rfl⟩
        have hSlot : a₁.store.slot? f.id = some 0 := by
          rw [hInsert, Store.slot?_insert, if_pos hMem]
          rfl
        refine ⟨?_, ?_⟩
        · unfold Analysis.graph? Store.graph?
          rw [hStore, hSlot, hOne]
          rfl
        · unfold Analysis.graph? Store.graph?
          rw [hOwners.slot?_eq, hSlot, hFlatOne]
          rfl
      refine ⟨g, h, b, stats', hOther, by rw [hStore, hOne],
        hFlatOne, hOwn, ?_, ?_⟩
      · rcases hFlat with ⟨hFree, rfl⟩ | hFlat
        · exact Or.inl fun id => ⟨hFree id, hFree id⟩
        · exact Or.inr hFlat
      · intro f hf hBody v w c d hv hw
        rcases hFlat with ⟨hFree, rfl⟩ | ⟨rep, n, hFlat⟩
        · rcases Graph.root_of_cell? hv with
            ⟨r, c₀, _, hRoot, _⟩
          exact absurd (hFree c₀.node) (Graph.hasNode_iff.mp
            (hg.root_has r c₀ hRoot).occupied)
        · exact Analysis.mayAlias_of_flat hFlat
            (hOwn f hf hBody).2 hv hw

/- Two objects that nothing brings together. -/
def keepsApart : Program where
  functions :=
    [{ id := 0, name := "main", body := [.alloc 0 0 .heap 16 none, .alloc 1 1 .heap 8 none,
         .fieldAddr 2 0 8] }]

/-
  The flat run lets the objects alias, and the one node comes from both
  sites. The context-insensitive run keeps them apart.
-/
theorem flat_run_merges_all_of_keepsApart :
    ∃ stats a g h stats' b rep n,
      (Analysis.new { kind := .flat }).run keepsApart =
        .ok (.ok stats, a) ∧
      (Analysis.new { kind := .contextInsensitive }).run
        keepsApart = .ok (.ok stats', b) ∧
      a.store.graphs = #[h] ∧ b.store.graphs = #[g] ∧
      Graph.Flat g h rep n ∧
      a.mayAlias 0 1 2 = .ok true ∧
      b.mayAlias 0 1 2 = .ok false := by
  have hRun : (do
      let ran ← (Analysis.new
        { kind := .flat }).run keepsApart
      let other ← (Analysis.new
        { kind := .contextInsensitive }).run keepsApart
      return (ran.1.isOk,
        (ran.2.graph? 0).map fun h => (h.cell? 1, h.cell? 2),
        other.2.mayAlias 0 1 2)) =
      Except.ok (true,
        some (.ok (some ⟨2, 0⟩), .ok (some ⟨2, 8⟩)),
        .ok false) := by
    cbv
  rw [Checked.bind_eq_ok_iff] at hRun
  rcases hRun with ⟨⟨r, a⟩, hFlat, hRun⟩
  rw [Checked.bind_eq_ok_iff] at hRun
  rcases hRun with ⟨⟨r', b'⟩, hOther, hRun⟩
  rw [Checked.pure_eq_ok_iff] at hRun
  have hApart : b'.mayAlias 0 1 2 = .ok false :=
    congrArg (fun out => out.2.2) hRun
  cases r with
  | error e => cases congrArg Prod.fst hRun
  | ok stats =>
      rcases flat_run_merges_all (by decide) rfl hFlat with
        ⟨g, h, b, stats', hSame, hg, hh, hOwn, hAll, hAlias⟩
      change (Analysis.new
        { kind := .contextInsensitive }).run keepsApart =
          _ at hSame
      rw [hSame] at hOther
      cases hOther
      have hMain := hOwn _ List.mem_cons_self rfl
      have hCells : some (h.cell? 1, h.cell? 2) =
          some (.ok (some ⟨2, 0⟩), .ok (some ⟨2, 8⟩)) := by
        have hGet := congrArg (fun out => out.2.1) hRun
        dsimp only at hGet
        rw [← hGet, show a.graph? 0 = some h from hMain.2]
        rfl
      have hCell : h.cell? 1 = .ok (some ⟨2, 0⟩) :=
        congrArg Prod.fst (Option.some.inj hCells)
      have hCell' : h.cell? 2 = .ok (some ⟨2, 8⟩) :=
        congrArg Prod.snd (Option.some.inj hCells)
      have hTrue := hAlias _ List.mem_cons_self rfl 1 2 _ _
        hCell hCell'
      rcases hAll with hFree | ⟨rep, n, hOne⟩
      · rcases Graph.root_of_cell? hCell with
          ⟨_, c, _, _, hResolve⟩
        rcases Graph.leads_of_resolve hResolve with
          ⟨_, hLeads, _⟩
        rcases hLeads.live_end with ⟨_, hLive⟩
        rw [(hFree _).2] at hLive
        cases hLive
      · exact ⟨stats, a, g, h, stats', b', rep, n, hFlat, hSame,
          hh, hg, hOne, hTrue, hApart⟩

end HeapShape
