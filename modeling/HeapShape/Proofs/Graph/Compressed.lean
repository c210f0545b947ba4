import HeapShape.Proofs.Graph.Carried
import HeapShape.Proofs.Graph.Collect
import HeapShape.Proofs.Lookup

/-
  What is left of a graph after compression and pruning.

  Compression resolves every stored cell and frees what only forwards, so
  all look-ups of roots give what they gave before. Pruning takes nodes and
  links away and leaves the rest as it is.

  Main declarations:
    * `Graph.Collected`
    * `Graph.Collected.of_pruneForeign`
    * `Graph.Collected.rootCell?_eq`
    * `Graph.Collected.root_of_rootAt`
-/

-- Graphs After Collection

namespace HeapShape

open Checked

/- The same is known of two nodes, apart from their links. -/
structure Node.SameFacts
    (n n' : Node) : Prop where
  flags : ∀ f, f ≠ .foreign →
    n'.flags.has f = n.flags.has f
  size : n'.size = n.size
  sites : n'.allocSites = n.allocSites
  scalar : n'.uniqueScalar = n.uniqueScalar

theorem Node.SameFacts.of_links
    (n : Node)
    (links : OrdMap Field Cell) :
    n.SameFacts { n with links := links } where
  flags := fun _ _ => rfl
  size := rfl
  sites := rfl
  scalar := rfl

variable {n n' : Node}

theorem Node.SameFacts.collapsed
    (h : n.SameFacts n') :
    n'.isCollapsed = n.isCollapsed :=
  h.flags .offsetCollapsed (by decide)

theorem Node.SameFacts.array
    (h : n.SameFacts n') :
    n'.isArray = n.isArray :=
  h.flags .array (by decide)

namespace Graph

/-
  A graph without forwards whose roots are the live cells of the roots
  before, and so are its recorded calls. Its nodes and links were there
  before, and every link leads to the live cell it led to.
-/
structure Collected
    (g h : Graph) : Prop where
  wellFormed : h.WellFormed
  flat : ∀ id t, h.slot id ≠ .forward t
  config : h.config = g.config
  functions : h.functions = g.functions
  roots : ∀ r, g.rootCell? r = .ok (h.roots.get? r)
  callSites : ∀ id,
    (g.callSites.get? id).mapM g.resolveCallSite =
      .ok (h.callSites.get? id)
  nodes : ∀ id n', h.slot id = .live n' →
    ∃ n, g.slot id = .live n ∧ n.SameFacts n' ∧
      ∀ f t', n'.links.get? f = some t' →
        ∃ t, n.links.get? f = some t ∧ g.resolve t = .ok t'

/- No live node and no link is gone. -/
structure Compressed
    (g h : Graph) : Prop
    extends Collected g h where
  live : ∀ id n, g.slot id = .live n → ∃ links,
    h.slot id = .live { n with links := links } ∧
      ∀ f, (n.links.get? f).mapM g.resolve =
        .ok (links.get? f)

variable {g h i : Graph} {c : Cell} {r : Root} {n n' : Node}

/- A link is looked up at once. -/
theorem link?_of_live
    (hSlot : g.slot c.node = .live n)
    (type? : Option TypeTag) :
    g.link? c type? = (n.links.get? (n.effectiveField (Field.make g.config
        c.offset type?))).mapM g.resolve := by
  unfold link?
  rw [resolve_of_live hSlot]
  change (do
    let n ← g.contents c.node
    _) = _
  rw [contents_of_live hSlot]
  rfl

/- Without forwards every cell is its own live cell. -/
theorem Collected.resolve_eq
    (hgh : Collected g h)
    (hc : h.Has c) :
    h.resolve c = .ok c := by
  rcases slot_cases_of_hasNode hc.occupied with ⟨n, hn⟩ | ⟨t, ht⟩
  · exact resolve_of_live hn
  · exact absurd ht (hgh.flat _ t)

/- A chain is at its end at once. -/
theorem Collected.eq_of_leads
    (hgh : Collected g h)
    {id m : NodeId}
    {k : Nat}
    (hLeads : h.Leads id m k) :
    m = id ∧ k = 0 := by
  cases hLeads with
  | live _ => exact ⟨rfl, rfl⟩
  | forward hSlot _ => exact absurd hSlot (hgh.flat _ _)

/- The roots have the cells that they had. -/
theorem Collected.rootCell?_eq
    (hgh : Collected g h)
    (r : Root) :
    h.rootCell? r = g.rootCell? r := by
  rw [hgh.roots r]
  unfold rootCell?
  cases hRoot : h.roots.get? r with
  | none => rfl
  | some c =>
    have hc := hgh.wellFormed.root_has r c hRoot
    rw [Option.mapM_some, hgh.resolve_eq hc]
    rfl

theorem Collected.cell?_eq
    (hgh : Collected g h)
    (v : ValueId) :
    h.cell? v = g.cell? v := by
  unfold cell?
  rw [hgh.rootCell?_eq, hgh.rootCell?_eq]

/- A root has its live cell. -/
theorem Collected.exists_root
    (hgh : Collected g h)
    (hRoot : g.roots.get? r = some c) :
    ∃ d, g.resolve c = .ok d ∧ h.roots.get? r = some d ∧
      h.rootCell? r = .ok (some d) := by
  have hFound := hgh.roots r
  unfold rootCell? at hFound
  rw [hRoot] at hFound
  rcases option_mapM_some_eq_ok hFound with ⟨d, hResolve, hNew⟩
  refine ⟨d, hResolve, hNew, ?_⟩
  rw [hgh.rootCell?_eq, hgh.roots, hNew]

variable {c' : Cell}

/- So a root in the place of a cell has the same live cell. -/
theorem Collected.root_of_rootAt
    (hgh : Collected g h)
    (hAt : g.RootAt r c)
    (hResolve : g.resolve c = .ok c') :
    h.roots.get? r = some c' := by
  rcases hAt with ⟨d, hRoot, m, j, k, hd, hc, hOffset⟩
  rcases hgh.exists_root hRoot with ⟨d', hResolve', hNew, _⟩
  rcases leads_of_resolve hResolve with ⟨k', hc', hSum⟩
  rcases leads_of_resolve hResolve' with ⟨j', hd', hSum'⟩
  rcases hd.unique hd' with ⟨hNode, rfl⟩
  rcases hc.unique hc' with ⟨hNode', rfl⟩
  have hSame : d'.offset = c'.offset := by omega
  rw [hNew]
  rcases d' with ⟨node, offset⟩
  rcases c' with ⟨node', offset'⟩
  dsimp only at hNode hNode' hSame
  rw [← hNode, hNode', hSame]

/- So a value has the live cell. -/
theorem ValueAt.collected
    (hgh : Collected g h)
    {v : ValueId}
    (hAt : g.ValueAt v c)
    (hResolve : g.resolve c = .ok c') :
    h.ValueAt v c' := by
  rcases hAt with ⟨r, hr, hAt⟩
  have hRoot := hgh.root_of_rootAt hAt hResolve
  rcases hgh.wellFormed.leads (hgh.wellFormed.root_has r c' hRoot).occupied with ⟨m, k, hLeads⟩
  exact ⟨r, hr, c', hRoot, SamePlace.refl hLeads⟩

end Graph

theorem Node.SameFacts.trans
    {n'' : Node}
    (h : n.SameFacts n')
    (h' : n'.SameFacts n'') :
    n.SameFacts n'' where
  flags := fun f hf => (h'.flags f hf).trans (h.flags f hf)
  size := h'.size.trans h.size
  sites := h'.sites.trans h.sites
  scalar := h'.scalar.trans h.scalar

/- Offsets of the one mean what offsets of the other do. -/
theorem Node.SameFacts.effectiveOffset_eq
    (h : n.SameFacts n')
    (o : Nat) :
    n'.effectiveOffset o = n.effectiveOffset o := by
  unfold Node.effectiveOffset
  rw [h.collapsed, h.array, h.size]

theorem Node.SameFacts.effectiveField_eq
    (h : n.SameFacts n')
    (f : Field) :
    n'.effectiveField f = n.effectiveField f := by
  unfold Node.effectiveField
  rw [h.collapsed, h.effectiveOffset_eq]

/- An address is read in a node as it was before. -/
theorem Graph.Collected.effective_eq_ok
    {g h : Graph}
    (hgh : Collected g h)
    {c e : Cell}
    (hEffective : h.effective c = .ok e) :
    ∃ n, g.slot c.node = .live n ∧ e =
      { node := c.node, offset := n.effectiveOffset c.offset } := by
  unfold effective at hEffective
  rcases of_bind hEffective with ⟨d, hResolve, hEffective⟩
  rcases of_bind hEffective with ⟨n', hContents, hEffective⟩
  cases hEffective
  rcases leads_of_resolve hResolve with ⟨k, hLeads, hSum⟩
  rcases hLeads.live_end with ⟨l, hLive⟩
  rcases eq_of_contents hLive hContents with rfl
  rcases hgh.eq_of_leads hLeads with ⟨hNode, rfl⟩
  rcases hgh.nodes _ _ hLive with ⟨n, hOld, hLayout, _⟩
  rw [hNode] at hOld
  exact ⟨n, hOld, by
    rw [hNode, hSum, hLayout.effectiveOffset_eq, Nat.add_zero]⟩

-- Compression

namespace Graph

variable {g h : Graph}

/- The cells of a call are resolved one by one. -/
theorem resolveCallSite_eq_ok
    {cells cells' : CallSiteCells}
    (hRun : g.resolveCallSite cells = .ok cells') :
    List.Forall₂ (fun c? c?' => c?.mapM g.resolve =
        .ok c?') cells.actuals cells'.actuals ∧
      cells.result?.mapM g.resolve = .ok cells'.result? := by
  unfold resolveCallSite at hRun
  rcases of_bind hRun with ⟨actuals, hActuals, hRun⟩
  rcases of_bind hRun with ⟨result?, hResult, hRun⟩
  cases hRun
  refine ⟨?_, hResult⟩
  rcases mapM_eq_ok hActuals with ⟨hLength, hEach⟩
  rw [List.forall₂_iff_get]
  refine ⟨hLength.symm, ?_⟩
  intro i hi hi'
  rcases hEach i _ (List.getElem?_eq_getElem hi) with ⟨c?', hGet, hc⟩
  rw [List.getElem?_eq_getElem hi'] at hGet
  cases hGet
  exact hc

/- Freeing slots forgets no recorded call. -/
theorem callSites_freeAll
    (g : Graph)
    (drop : List NodeId) :
    (g.freeAll drop).callSites = g.callSites := by
  induction drop generalizing g with
  | nil => rfl
  | cons i rest ih => exact ih _

theorem functions_freeAll
    (g : Graph)
    (drop : List NodeId) :
    (g.freeAll drop).functions = g.functions := by
  induction drop generalizing g with
  | nil => rfl
  | cons i rest ih => exact ih _

variable {id : NodeId}

/- A link leads to its live cell. -/
theorem Compressed.exists_link
    (hgh : Compressed g h)
    {n : Node}
    {f : Field}
    {t : Cell}
    (hSlot : g.slot id = .live n)
    (hGet : n.links.get? f = some t) :
    ∃ n' t', h.slot id = .live n' ∧ n.SameFacts n' ∧
      n'.links.get? f = some t' ∧ g.resolve t = .ok t' := by
  rcases hgh.live id n hSlot with ⟨links, hNew, hLinks⟩
  have hFound := hLinks f
  rw [hGet] at hFound
  rcases option_mapM_some_eq_ok hFound with ⟨t', hResolve, hGet'⟩
  exact ⟨_, t', hNew, .of_links n links, hGet', hResolve⟩

theorem Compressed.of_compress
    (hg : g.WellFormed)
    (hRun : g.compress = .ok h) :
    Compressed g h := by
  rcases hg.compress hRun with ⟨hh, hFlat⟩
  rcases compress_eq_ok hRun with ⟨g₁, hRes, rfl⟩
  rcases retain_spec g₁ (fun _ s => !s.isForward) with ⟨hConfig, hRoots, _⟩
  have hKept : ∀ id n, g₁.slot id = .live n →
      (g₁.retain fun _ s => !s.isForward).2.slot id = .live n := by
    intro id n hSlot
    rw [slot_retain, hSlot, if_neg]
    rintro ⟨_, hDrop⟩
    cases hDrop
  have hRoots' : ∀ r, g.rootCell? r = .ok ((g₁.retain fun _ s => !s.isForward).2.roots.get? r) := by
    intro r
    rw [hRoots, hRes.roots r]
  refine ⟨⟨hh, hFlat, hConfig.trans hRes.config,
    (functions_freeAll g₁ _).trans hRes.functions, hRoots',
    ?_, ?_⟩, ?_⟩
  · intro id
    rw [hRes.callSites id]
    exact congrArg (fun calls => Except.ok (calls.get? id)) (callSites_freeAll g₁ _).symm
  · intro id n' hSlot
    rcases slot_retain_of_kept (g := g₁) (fun _ _ _ => rfl) (slot_ne_free_of_live hSlot) with
      ⟨hSame, n₁, hLive₁, _⟩
    rw [hSlot, hLive₁] at hSame
    cases hSame
    by_cases hLive : ∃ n, g.slot id = .live n
    · rcases hLive with ⟨n, hLive⟩
      rcases hRes.live id n hLive with ⟨n'', hn'', ⟨links, rfl⟩, hLinks⟩
      rw [hLive₁] at hn''
      cases hn''
      refine ⟨n, hLive, .of_links n links, ?_⟩
      intro f t' hGet
      have hFound := hLinks f
      rw [hGet] at hFound
      exact option_mapM_eq_some_iff.mp hFound
    · have hOther := hRes.other id (fun n hn => hLive ⟨n, hn⟩)
      rw [hLive₁] at hOther
      exact absurd ⟨_, hOther.symm⟩ hLive
  · intro id n hLive
    rcases hRes.live id n hLive with ⟨n', hn', ⟨links, rfl⟩, hLinks⟩
    exact ⟨links, hKept id _ hn', hLinks⟩

-- Pruning

/-
  A graph from which nodes and links were taken away. What is left reads
  offsets as before.
-/
structure Thinned
    (g h : Graph) : Prop where
  config : h.config = g.config
  functions : h.functions = g.functions
  roots : h.roots = g.roots
  callSites : h.callSites = g.callSites
  forwards : ∀ id t, h.slot id = .forward t →
    g.slot id = .forward t
  nodes : ∀ id n', h.slot id = .live n' →
    ∃ n, g.slot id = .live n ∧ n.SameFacts n' ∧
      ∀ f t, n'.links.get? f = some t →
        n.links.get? f = some t

variable {i : Graph}

theorem Thinned.refl
    (g : Graph) :
    Thinned g g where
  config := rfl
  functions := rfl
  roots := rfl
  callSites := rfl
  forwards := fun _ _ hSlot => hSlot
  nodes := fun _ n hSlot =>
    ⟨n, hSlot, .of_links n n.links, fun _ _ hGet => hGet⟩

theorem Thinned.trans
    (hgh : Thinned g h)
    (hhi : Thinned h i) :
    Thinned g i where
  config := hhi.config.trans hgh.config
  functions := hhi.functions.trans hgh.functions
  roots := hhi.roots.trans hgh.roots
  callSites := hhi.callSites.trans hgh.callSites
  forwards := fun id t hSlot =>
    hgh.forwards id t (hhi.forwards id t hSlot)
  nodes := by
    intro id n'' hSlot
    rcases hhi.nodes id n'' hSlot with ⟨n', hSlot', hLayout', hLinks'⟩
    rcases hgh.nodes id n' hSlot' with ⟨n, hSlot'', hLayout, hLinks⟩
    exact ⟨n, hSlot'', hLayout.trans hLayout', fun f t hGet => hLinks f t (hLinks' f t hGet)⟩

/- Taking more away from a collected graph. -/
theorem Collected.thinned
    (hgh : Collected g h)
    (hhi : Thinned h i)
    (hi : i.WellFormed) :
    Collected g i where
  wellFormed := hi
  flat := fun id t hSlot =>
    hgh.flat id t (hhi.forwards id t hSlot)
  config := hhi.config.trans hgh.config
  functions := hhi.functions.trans hgh.functions
  roots := by
    intro r
    rw [hhi.roots, hgh.roots r]
  callSites := by
    intro cs
    rw [hhi.callSites, hgh.callSites cs]
  nodes := by
    intro id n'' hSlot
    rcases hhi.nodes id n'' hSlot with ⟨n', hSlot', hLayout', hLinks'⟩
    rcases hgh.nodes id n' hSlot' with ⟨n, hSlot'', hLayout, hLinks⟩
    exact ⟨n, hSlot'', hLayout.trans hLayout', fun f t hGet => hLinks f t (hLinks' f t hGet)⟩

theorem Thinned.clearForeign
    (hRun : g.modifyContents id (fun n =>
      { n with flags := n.flags.erase .foreign }) = .ok h) :
    Thinned g h := by
  rcases modifyContents_eq_ok hRun with ⟨n, hSlot, rfl⟩
  have hLt := lt_size_of_live hSlot
  refine ⟨rfl, rfl, rfl, rfl, ?_, ?_⟩
  · intro j t hj
    rw [slot_setSlot hLt] at hj
    split at hj
    · cases hj
    · exact hj
  · intro j n' hj
    rw [slot_setSlot hLt] at hj
    split at hj
    · next hEq =>
      cases hj
      subst hEq
      exact ⟨n, hSlot, ⟨fun _ => n.flags.has_erase_of_ne, rfl, rfl, rfl⟩, fun _ _ hGet => hGet⟩
    · exact (Thinned.refl g).nodes j n' hj

theorem Thinned.cutLinks
    (hg : g.WellFormed)
    (cut : OrdSet NodeId) :
    Thinned g (g.cutLinks cut) := by
  have hRel := hg.cutLinks cut
  refine ⟨rfl, rfl, rfl, rfl, fun id t => ((hRel.slot_iff id).1 t).mp, ?_⟩
  intro id n' hSlot
  rcases (hRel.slot_iff id).2.2 n' hSlot with ⟨n, hn⟩
  rw [slot_cutLinks_of_live cut hn] at hSlot
  cases hSlot
  exact ⟨n, hn, .of_links n _, fun f t hGet =>
    ((OrdMap.get?_filter _ _ _ _).mp hGet).1⟩

theorem Thinned.retain
    (g : Graph)
    (keep : NodeId → Slot → Bool) :
    Thinned g (g.retain keep).2 := by
  rcases retain_spec g keep with ⟨hConfig, hRoots, _⟩
  refine ⟨hConfig, functions_freeAll _ _, hRoots, callSites_freeAll _ _, ?_, ?_⟩
  · intro id t hSlot
    rw [slot_retain] at hSlot
    split at hSlot
    · cases hSlot
    · exact hSlot
  · intro id n hSlot
    rw [slot_retain] at hSlot
    split at hSlot
    · cases hSlot
    · exact (Thinned.refl g).nodes id n hSlot

theorem Collected.of_pruneForeign
    (hg : g.WellFormed)
    {count : Nat}
    (hRun : g.pruneForeign = .ok (count, h)) :
    Collected g h := by
  have hh := hg.pruneForeign hRun
  unfold Graph.pruneForeign at hRun
  rcases of_bind hRun with ⟨g₁, hCompress, hRun⟩
  rcases of_bind hRun with ⟨cells, _, hRun⟩
  rcases of_bind hRun with ⟨g₂, hClear, hRun⟩
  have hFirst := Compressed.of_compress hg hCompress
  have hCleared : g₂.WellFormed ∧ Thinned g₁ g₂ := by
    refine foldlM_induction (P := fun g₂ => g₂.WellFormed ∧ Thinned g₁ g₂) ?_
      ⟨hFirst.wellFormed, .refl g₁⟩ hClear
    rintro a i _ b ⟨ha, hThin⟩ hStep
    exact ⟨ha.relinked (ha.clearForeign hStep).1, hThin.trans (.clearForeign hStep)⟩
  rcases hCleared with ⟨hg₂, hThin⟩
  have hCut : ∀ cut : OrdSet NodeId, Thinned g₁ ((g₂.cutLinks cut).retain
        fun i _ => !cut.contains i).2 :=
    fun cut => (hThin.trans (.cutLinks hg₂ cut)).trans (.retain _ _)
  apply hFirst.toCollected.thinned _ hh
  dsimp only at hRun
  split at hRun
  · cases hRun
    exact hThin
  · cases hRun
    exact hCut _

end Graph

end HeapShape
