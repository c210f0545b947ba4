import HeapShape.Proofs.Graph.Compressed
import HeapShape.Proofs.Graph.Evolves

/-
  What holds of graphs between steps.

  A recorded call may name a node that nothing else names, and pruning does
  not look at recorded calls. It never frees the node of such a cell,
  because the cells of calls are cells of values: they lie in nodes of
  roots. And the allocation sites of some kind are found in nodes of globals
  only.

  Main declarations:
    * `Graph.Anchored`
    * `Graph.Kept.yields_compress`
    * `Graph.Kept.yields_removeDead`
    * `Graph.Kept.yields_pruneForeign`
-/

-- The Invariant

namespace HeapShape

open Checked

namespace Graph

/- A cell lies in the node of a root. -/
structure Anchored
    (g : Graph)
    (c : Cell) : Prop where
  word : c.offset < wordBound
  root : ∃ r d, g.roots.get? r = some d ∧ g.SameNode d c

/- A slot that a global is bound to. -/
def IsGlobal
    (g : Graph)
    (id : NodeId) : Prop :=
  ∃ v c, g.roots.get? (.global v) = some c ∧ c.node = id

/-
  The invariant of graphs between steps. Sites of the kind `P` lie in nodes
  of globals.
-/
structure Kept
    (P : AllocSite → Prop)
    (g : Graph) : Prop where
  wellFormed : g.WellFormed
  anchored : ∀ cs cells, g.callSites.get? cs = some cells →
    ∀ c ∈ cells.cells, g.Anchored c
  sheltered : g.Confined P g.IsGlobal

variable {P : AllocSite → Prop} {X : NodeId → Prop} {g h : Graph} {c : Cell}

theorem Anchored.has
    (hc : g.Anchored c) :
    g.Has c := by
  rcases hc with ⟨hWord, r, d, _, m, j, k, _, hLeads⟩
  exact ⟨hLeads.hasNode, hWord⟩

theorem Anchored.later
    (hc : g.Anchored c)
    (hgh : Later g h) :
    h.Anchored c := by
  rcases hc with ⟨hWord, r, d, hRoot, hNode⟩
  exact ⟨hWord, r, d, hgh.roots r d hRoot, hNode.merged hgh.merged⟩

/- The cell of a value lies in the node of a root. -/
theorem ValueAt.anchored
    {v : ValueId}
    (hAt : g.ValueAt v c)
    (hWord : c.offset < wordBound) :
    g.Anchored c := by
  rcases hAt with ⟨r, _, d, hRoot, m, j, k, hd, hc, _⟩
  exact ⟨hWord, r, d, hRoot, m, j, k, hd, hc⟩

theorem Kept.empty
    (config : GraphConfig) :
    Kept P { config := config } where
  wellFormed := wellFormed_empty config
  anchored := by
    intro cs cells hGet
    cases hGet
  sheltered := by
    intro id n s hLive
    cases hLive

/-
  Steps keep the invariant if sites of the kind are brought to nodes of
  globals only.
-/
theorem Kept.evolves
    (hg : g.Kept P)
    (hgh : Evolves P X g h)
    (hX : ∀ x, X x → ∃ v c m j k,
      h.roots.get? (.global v) = some c ∧ h.Leads c.node m j ∧ h.Leads x m k) :
    h.Kept P where
  wellFormed := hgh.wellFormed
  anchored := by
    intro cs cells hGet c hc
    rw [hgh.callSites] at hGet
    exact (hg.anchored cs cells hGet c hc).later hgh.toLater
  sheltered := by
    have hOld : g.Confined P fun y => g.IsGlobal y ∨ X y := by
      intro id n s hLive hs hP
      rcases hg.sheltered id n s hLive hs hP with ⟨y, k, hy, hLeads⟩
      exact ⟨y, k, Or.inl hy, hLeads⟩
    intro id n s hLive hs hP
    rcases hgh.confined _ (fun _ => Or.inr) hOld id n s hLive hs hP with
      ⟨y, k, ⟨v, c, hRoot, rfl⟩ | hy, hLeads⟩
    · exact ⟨c.node, k, ⟨v, c, hgh.roots _ c hRoot, rfl⟩, hLeads⟩
    · rcases hX y hy with ⟨v, c, m, i, j, hRoot, hc, hm⟩
      rcases hm.unique hLeads with ⟨rfl, rfl⟩
      exact ⟨c.node, i, ⟨v, c, hRoot, rfl⟩, hc⟩

/- Steps that bring no sites keep the invariant. -/
theorem Kept.step
    (hg : g.Kept P)
    (hgh : Evolves P (fun _ => False) g h) :
    h.Kept P :=
  hg.evolves hgh fun _ hNone => hNone.elim

/- What graphs note besides their nodes can be changed. -/
theorem Kept.congr
    (hg : g.Kept P)
    (hConfig : h.config = g.config)
    (hSlots : h.slots = g.slots)
    (hFree : h.free = g.free)
    (hRoots : h.roots = g.roots)
    (hCalls : ∀ cs cells, h.callSites.get? cs = some cells →
        ∀ c ∈ cells.cells, g.Anchored c) :
    h.Kept P := by
  have hSlot : ∀ id, h.slot id = g.slot id := by
    intro id
    unfold slot
    rw [hSlots]
  have hLeads : ∀ x m k, g.Leads x m k → h.Leads x m k := by
    intro x m k hx
    apply hx.congr
    · intro y t hy
      rw [hSlot, hy]
    · intro y n hy
      exact ⟨n, by rw [hSlot, hy]⟩
  refine ⟨hg.wellFormed.congr hConfig hSlots hFree hRoots, ?_, ?_⟩
  · intro cs cells hGet c hc
    rcases hCalls cs cells hGet c hc with ⟨hWord, r, d, hRoot, m, j, k, hd, hc'⟩
    rw [← hRoots] at hRoot
    exact ⟨hWord, r, d, hRoot, m, j, k, hLeads _ _ _ hd, hLeads _ _ _ hc'⟩
  · have hSame := hg.sheltered.congr hSlot
    unfold IsGlobal at hSame ⊢
    rw [hRoots]
    exact hSame

variable {cells cells' : CallSiteCells}

/- The cells of a call can be recorded. -/
theorem Kept.recordCallSite
    (hg : g.Kept P)
    (cs : CallSiteId)
    (hCells : ∀ c ∈ cells.cells, g.Anchored c) :
    (g.recordCallSite cs cells).Kept P := by
  refine hg.congr rfl rfl rfl rfl ?_
  intro cs' cells' hGet
  unfold Graph.recordCallSite at hGet
  rw [OrdMap.get?_insert] at hGet
  split at hGet
  · cases hGet
    exact hCells
  · exact hg.anchored cs' cells' hGet

theorem Kept.clearCallSites
    (hg : g.Kept P) :
    g.clearCallSites.Kept P := by
  refine hg.congr rfl rfl rfl rfl ?_
  intro cs cells hGet
  cases hGet

theorem Kept.addFunction
    (hg : g.Kept P)
    (f : FunctionId) :
    (g.addFunction f).Kept P :=
  hg.congr rfl rfl rfl rfl hg.anchored

/- An item of a list has a partner in a related list. -/
theorem exists_mem_of_forall₂
    {α β : Type}
    {R : α → β → Prop}
    {xs : List α}
    {ys : List β}
    (hAll : List.Forall₂ R xs ys)
    {y : β}
    (hy : y ∈ ys) :
    ∃ x ∈ xs, R x y := by
  induction hAll with
  | nil => cases hy
  | cons hHead _ ih =>
    rcases List.mem_cons.mp hy with rfl | hy
    · exact ⟨_, List.mem_cons_self, hHead⟩
    · rcases ih hy with ⟨x, hx, hR⟩
      exact ⟨x, List.mem_cons_of_mem _ hx, hR⟩

/- The node of a root of a collected graph is live. -/
theorem Collected.live_root
    (hgh : Collected g h)
    {r : Root}
    (hRoot : h.roots.get? r = some c) :
    ∃ n, h.slot c.node = .live n := by
  rcases slot_cases_of_hasNode (hgh.wellFormed.root_has r c hRoot).occupied with
    hLive | ⟨t, hForward⟩
  · exact hLive
  · exact absurd hForward (hgh.flat _ t)

/- The cells of a call come from cells of the call before. -/
theorem mem_cells_of_resolveCallSite
    (hRun : g.resolveCallSite cells = .ok cells')
    (hc : c ∈ cells'.cells) :
    ∃ d ∈ cells.cells, g.resolve d = .ok c := by
  rcases resolveCallSite_eq_ok hRun with ⟨hActuals, hResult⟩
  unfold CallSiteCells.cells at hc ⊢
  rcases List.mem_append.mp hc with hc | hc
  · rcases List.mem_filterMap.mp hc with ⟨c?, hMem, rfl⟩
    rcases exists_mem_of_forall₂ hActuals hMem with ⟨d?, hOld, hResolve⟩
    rcases option_mapM_eq_some_iff.mp hResolve with ⟨d, rfl, hd⟩
    exact ⟨d, List.mem_append_left _ (List.mem_filterMap.mpr ⟨_, hOld, rfl⟩), hd⟩
  · rw [Option.mem_toList] at hc
    rw [hc] at hResult
    rcases option_mapM_eq_some_iff.mp hResult with ⟨d, hOld, hd⟩
    exact ⟨d, List.mem_append_right _ (Option.mem_toList.mpr hOld), hd⟩

/- And each of them has its live cell in the call after. -/
theorem exists_mem_of_resolveCallSite
    (hRun : g.resolveCallSite cells = .ok cells')
    (hc : c ∈ cells.cells) :
    ∃ d ∈ cells'.cells, g.resolve c = .ok d := by
  rcases resolveCallSite_eq_ok hRun with ⟨hActuals, hResult⟩
  unfold CallSiteCells.cells at hc ⊢
  rcases List.mem_append.mp hc with hc | hc
  · rcases List.mem_filterMap.mp hc with ⟨c?, hMem, rfl⟩
    rcases exists_mem_of_forall₂ hActuals.flip hMem with ⟨d?, hNew, hResolve⟩
    rcases option_mapM_some_eq_ok hResolve with ⟨d, hd, rfl⟩
    exact ⟨d, List.mem_append_left _ (List.mem_filterMap.mpr ⟨_, hNew, rfl⟩), hd⟩
  · rw [Option.mem_toList] at hc
    rw [hc] at hResult
    rcases option_mapM_some_eq_ok hResult with ⟨d, hd, hNew⟩
    exact ⟨d, List.mem_append_right _ (Option.mem_toList.mpr hNew), hd⟩

/-
  Collection keeps the invariant: the node of a recorded cell is that of a
  root, and roots keep their nodes.
-/
theorem Kept.collected
    (hg : g.Kept P)
    (hgh : Collected g h) :
    h.Kept P where
  wellFormed := hgh.wellFormed
  anchored := by
    intro cs cells' hGet c hc
    have hFound := hgh.callSites cs
    rw [hGet] at hFound
    rcases option_mapM_eq_some_iff.mp hFound with ⟨cells, hOld, hRun⟩
    rcases mem_cells_of_resolveCallSite hRun hc with ⟨d, hd, hResolve⟩
    rcases hg.anchored cs cells hOld d hd with ⟨_, r, e, hRoot, m, j, k, he, hd'⟩
    rcases hgh.exists_root hRoot with ⟨e', hRes, hNew, _⟩
    rcases leads_of_resolve hRes with ⟨j', hLeads, _⟩
    rcases he.unique hLeads with ⟨rfl, _⟩
    rcases leads_of_resolve hResolve with ⟨k', hLeads', _⟩
    rcases hd'.unique hLeads' with ⟨hSame, _⟩
    have hWord := ((hg.wellFormed.yields_resolve
      (hg.anchored cs cells hOld d hd).has).of_eq_ok hResolve).1.word
    rcases hgh.live_root hNew with ⟨n, hLive⟩
    refine ⟨hWord, r, e', hNew, e'.node, 0, 0, .live hLive, ?_⟩
    rw [← hSame]
    exact .live hLive
  sheltered := by
    intro id n' s hLive hs hP
    rcases hgh.nodes id n' hLive with ⟨n, hOld, hFacts, _⟩
    rw [hFacts.sites] at hs
    rcases hg.sheltered id n s hOld hs hP with ⟨_, k, ⟨v, c, hRoot, rfl⟩, hLeads⟩
    rcases hgh.exists_root hRoot with ⟨d, hRes, hNew, _⟩
    rcases leads_of_resolve hRes with ⟨j, hd, _⟩
    rcases hLeads.unique hd with ⟨rfl, _⟩
    exact ⟨d.node, 0, ⟨v, d, hNew, rfl⟩, .live hLive⟩

end Graph

-- Compression

namespace OrdMap

variable {α β γ : Type} [Ord α]

/- Values are not changed because one of them fails. -/
theorem mapChecked_eq_error
    {f : β → Checked γ}
    {m : OrdMap α β}
    {fault : Fault}
    (hRun : m.mapChecked f = .error fault) :
    ∃ e ∈ m.entries, f e.2 = .error fault := by
  have hAll : ∀ entries : List (α × β), mapEntriesChecked f entries = .error fault →
      ∃ e ∈ entries, f e.2 = .error fault := by
    intro entries hEntries
    induction entries with
    | nil => cases hEntries
    | cons e rest ih =>
      unfold mapEntriesChecked at hEntries
      rcases bind_eq_error hEntries with he | ⟨_, _, hEntries⟩
      · exact ⟨e, List.mem_cons_self, he⟩
      · rcases bind_eq_error hEntries with hRest | ⟨_, _, hEntries⟩
        · exact (ih hRest).imp fun _ hz =>
            ⟨List.mem_cons_of_mem _ hz.1, hz.2⟩
        · cases hEntries
  rcases bind_eq_error hRun with hEntries | ⟨_, _, hRun⟩
  · exact hAll m.entries hEntries
  · cases hRun

end OrdMap

namespace Graph

variable {P : AllocSite → Prop} {g h : Graph} {c : Cell} {fault : Fault}

/- A cell that a root or a recorded call is bound to. -/
def Names
    (g : Graph)
    (c : Cell) : Prop :=
  (∃ r, g.roots.get? r = some c) ∨
    ∃ cs cells, g.callSites.get? cs = some cells ∧
      c ∈ cells.cells

/- A cell in a link of a live node, a root or a call. -/
def Stores
    (g : Graph)
    (c : Cell) : Prop :=
  (∃ id n f, g.slot id = .live n ∧
    n.links.get? f = some c) ∨ g.Names c

/- The cells of recorded calls lie in the graph. -/
def CallsIn
    (g : Graph) : Prop :=
  ∀ cs cells, g.callSites.get? cs = some cells →
    ∀ c ∈ cells.cells, g.Has c

theorem Kept.callsIn
    (hg : g.Kept P) :
    g.CallsIn :=
  fun cs cells hGet c hc =>
    (hg.anchored cs cells hGet c hc).has

theorem WellFormed.has_of_names
    (hg : g.WellFormed)
    (hCalls : g.CallsIn)
    (hc : g.Names c) :
    g.Has c := by
  rcases hc with ⟨r, hRoot⟩ | ⟨cs, cells, hGet, hc⟩
  · exact hg.root_has r c hRoot
  · exact hCalls cs cells hGet c hc

/- The cells of a call are resolved, unless one fails. -/
theorem resolveCallSite_eq_error
    {cells : CallSiteCells}
    (hRun : g.resolveCallSite cells = .error fault) :
    ∃ c ∈ cells.cells, g.resolve c = .error fault := by
  rcases bind_eq_error hRun with hActuals | ⟨_, _, hRun⟩
  · rcases Checked.mapM_eq_error hActuals with ⟨c?, hMem, hc?⟩
    rcases Checked.option_mapM_eq_error hc? with ⟨c, rfl, hc⟩
    exact ⟨c, List.mem_append_left _ (List.mem_filterMap.mpr ⟨_, hMem, rfl⟩), hc⟩
  · rcases bind_eq_error hRun with hResult | ⟨_, _, hRun⟩
    · rcases Checked.option_mapM_eq_error hResult with ⟨c, hSome, hc⟩
      exact ⟨c, List.mem_append_right _ (Option.mem_toList.mpr hSome), hc⟩
    · cases hRun

/- Compression fails at a stored cell only. -/
theorem compress_eq_error
    (hRun : g.compress = .error fault) :
    ∃ c, g.Stores c ∧ g.resolve c = .error fault := by
  unfold compress at hRun
  rcases bind_eq_error hRun with hSlots | ⟨_, _, hRun⟩
  · rcases Checked.mapM_eq_error hSlots with ⟨s, hMem, hs⟩
    rw [toList_slots] at hMem
    rcases List.mem_map.mp hMem with ⟨id, _, hSlot⟩
    cases s with
    | free => cases hs
    | forward t => cases hs
    | live n =>
      rcases bind_eq_error hs with hLinks | ⟨_, _, hs⟩
      · rcases OrdMap.mapChecked_eq_error hLinks with ⟨e, he, hc⟩
        exact ⟨e.2, Or.inl ⟨id, n, e.1, hSlot, (OrdMap.get?_eq_some_iff _ _ _).mpr he⟩, hc⟩
      · cases hs
  · rcases bind_eq_error hRun with hRoots | ⟨_, _, hRun⟩
    · rcases OrdMap.mapChecked_eq_error hRoots with ⟨e, he, hc⟩
      exact ⟨e.2, Or.inr (Or.inl ⟨e.1, (OrdMap.get?_eq_some_iff _ _ _).mpr he⟩), hc⟩
    · rcases bind_eq_error hRun with hCalls | ⟨_, _, hRun⟩
      · rcases OrdMap.mapChecked_eq_error hCalls with ⟨e, he, hCall⟩
        rcases resolveCallSite_eq_error hCall with ⟨c, hMem, hc⟩
        exact ⟨c, Or.inr (Or.inr ⟨e.1, e.2, (OrdMap.get?_eq_some_iff _ _ _).mpr he, hMem⟩), hc⟩
      · cases hRun

/- It then is the overflow of a cell that cannot be resolved. -/
theorem WellFormed.overflow_of_compress
    (hg : g.WellFormed)
    (hCalls : g.CallsIn)
    (hRun : g.compress = .error fault) :
    fault = .addOverflow ∧ ∃ c, g.Stores c ∧ g.resolve c = .error .addOverflow := by
  rcases compress_eq_error hRun with ⟨c, hc, hFault⟩
  have hHas : g.Has c := by
    rcases hc with ⟨id, n, f, hSlot, hGet⟩ | hc
    · exact hg.link_has id n f c hSlot hGet
    · exact hg.has_of_names hCalls hc
  rcases hg.yields_resolve hHas with hOver | ⟨d, hOk, _⟩
  · rw [hOver] at hFault
    cases hFault
    exact ⟨rfl, c, hc, hOver⟩
  · rw [hOk] at hFault
    cases hFault

/- Every stored cell is there, so all are resolved. -/
theorem Kept.yields_compress
    (hg : g.Kept P) :
    Yields g.compress fun h => Compressed g h ∧ h.Kept P := by
  cases hRun : g.compress with
  | error fault =>
    rw [(hg.wellFormed.overflow_of_compress hg.callsIn hRun).1]
    exact Or.inl rfl
  | ok h =>
    have hgh := Compressed.of_compress hg.wellFormed hRun
    exact .ok ⟨hgh, hg.collected hgh.toCollected⟩

-- Reachability

/- The links of the nodes that were not seen yet. -/
def linksUnseen
    (g : Graph)
    (seen : OrdSet NodeId) : Nat :=
  weightLeft (fun n => n.links.size) seen.contains g.liveNodes

variable {id : NodeId} {starts : List NodeId}

/- The node of a slot is found without any overflow. -/
theorem WellFormed.exists_resolve_start
    (hg : g.WellFormed)
    (hNode : g.hasNode id = true) :
    ∃ d n, g.resolve (Cell.start id) = .ok d ∧ g.slot d.node = .live n := by
  rcases hg.leads hNode with ⟨m, k, hLeads⟩
  rcases hLeads.live_end with ⟨n, hLive⟩
  have hWord := (hg.shift id m k n hLeads hLive).1
  refine ⟨{ node := m, offset := 0 + k }, n, ?_, hLive⟩
  rw [Cell.start, resolve_of_leads hLeads (by decide), shifted_eq, if_pos (by omega)]

/- Each node puts its links on the stack once. -/
theorem WellFormed.exists_reachWithin
    (hg : g.WellFormed)
    {fuel : Nat}
    {stack : List NodeId}
    {seen : OrdSet NodeId}
    (hStack : ∀ id ∈ stack, g.hasNode id = true)
    (hSeen : ∀ id ∈ seen, ∃ n, g.slot id = .live n)
    (hFuel : stack.length + g.linksUnseen seen ≤ fuel) :
    ∃ out, g.reachWithin fuel stack seen = .ok out ∧
      ∀ id ∈ out, ∃ n, g.slot id = .live n := by
  induction fuel generalizing stack seen with
  | zero =>
    cases stack with
    | nil => exact ⟨seen, rfl, hSeen⟩
    | cons id rest =>
      rw [List.length_cons] at hFuel
      omega
  | succ fuel ih =>
    cases stack with
    | nil => exact ⟨seen, rfl, hSeen⟩
    | cons id rest =>
      rw [List.length_cons] at hFuel
      have hRest : ∀ x ∈ rest, g.hasNode x = true :=
        fun x hx => hStack x (List.mem_cons_of_mem _ hx)
      unfold reachWithin
      rcases hg.exists_resolve_start (hStack id List.mem_cons_self) with ⟨c, n, hResolve, hLive⟩
      rw [hResolve, ok_bind]
      split
      · exact ih hRest hSeen (by omega)
      · next hNew =>
        rw [contents_of_live hLive, ok_bind]
        have hLeft : g.linksUnseen (seen.insert c.node) + n.links.size = g.linksUnseen seen := by
          exact weightLeft_mark (w := fun n => n.links.size) (pairwise_liveNodes g)
            (mem_liveNodes.mpr hLive)
            (Bool.eq_false_iff.mpr hNew)
            (OrdSet.contains_insert seen c.node)
        apply ih
        · intro x hx
          rcases List.mem_append.mp hx with hx | hx
          · rw [List.mem_reverse] at hx
            rcases List.mem_map.mp hx with ⟨t, ht, rfl⟩
            rcases List.mem_map.mp ht with ⟨e, he, rfl⟩
            exact (hg.link_has _ n e.1 e.2 hLive ((OrdMap.get?_eq_some_iff _ _ _).mpr he)).occupied
          · exact hRest x hx
        · intro x hx
          rcases (OrdSet.mem_insert_iff _ _ _).mp hx with rfl | hx
          · exact ⟨n, hLive⟩
          · exact hSeen x hx
        · rw [List.length_append, List.length_reverse, List.length_map, OrdMap.values,
            List.length_map]
          unfold OrdMap.size at hLeft
          omega

/- So a visit comes to its end, and it sees live nodes. -/
theorem WellFormed.exists_reachable
    (hg : g.WellFormed)
    (hStarts : ∀ id ∈ starts, g.hasNode id = true) :
    ∃ out, g.reachable starts = .ok out ∧ ∀ id ∈ out, ∃ n, g.slot id = .live n := by
  unfold reachable
  refine hg.exists_reachWithin ?_ ?_ ?_
  · intro id hMem
    exact hStarts id (List.mem_reverse.mp hMem)
  · intro id hMem
    cases hMem
  · have hLe := weightLeft_le (w := fun n => n.links.size)
      (d := (OrdSet.empty : OrdSet NodeId).contains)
      g.liveNodes 0
    rw [Nat.zero_add] at hLe
    rw [List.length_reverse]
    exact Nat.add_le_add_left hLe _

theorem WellFormed.yields_reachable
    (hg : g.WellFormed)
    (hStarts : ∀ id ∈ starts, g.hasNode id = true) :
    Yields (g.reachable starts) fun out => ∀ id ∈ out, ∃ n, g.slot id = .live n :=
  Or.inr (hg.exists_reachable hStarts)

/- The roots of a graph have live cells. -/
theorem WellFormed.yields_rootCells
    (hg : g.WellFormed) :
    Yields g.rootCells fun cells => ∀ p ∈ cells, g.Has p.2 := by
  unfold rootCells
  have hEach : ∀ e ∈ g.roots.entries, Yields (do return (e.1, ← g.resolve e.2) :
        Checked (Root × Cell)) fun p => g.Has p.2 := by
    intro e hMem
    have hHas := hg.root_has e.1 e.2 ((OrdMap.get?_eq_some_iff _ _ _).mpr hMem)
    refine (hg.yields_resolve hHas).bind ?_
    rintro d ⟨hd, _⟩
    exact .ok hd
  refine (Checked.yields_mapM hEach).imp ?_
  intro cells hCells p hMem
  rcases hCells p hMem with ⟨_, _, hp⟩
  exact hp

-- Removing Nodes

theorem Collected.of_removeDead
    (hg : g.WellFormed)
    {count : Nat}
    (hRun : g.removeDead = .ok (count, h)) :
    Collected g h := by
  have hh := hg.removeDead hRun
  unfold Graph.removeDead at hRun
  rcases of_bind hRun with ⟨g₁, hCompress, hRun⟩
  rcases of_bind hRun with ⟨cells, _, hRun⟩
  rcases of_bind hRun with ⟨out, _, hRun⟩
  have hFirst := Compressed.of_compress hg hCompress
  have hRetain : h = (g₁.retain fun i _ => out.contains i).2 := by
    cases hRun
    rfl
  rw [hRetain] at hh ⊢
  exact hFirst.toCollected.thinned (.retain _ _) hh

/- The nodes of recorded calls are occupied. -/
theorem CallsIn.hasNode
    (hCalls : g.CallsIn)
    (hMem : id ∈ g.callSiteNodes) :
    g.hasNode id = true := by
  unfold callSiteNodes at hMem
  rcases List.mem_map.mp hMem with ⟨c, hc, rfl⟩
  rcases List.mem_flatten.mp hc with ⟨cells, hCells, hc⟩
  rcases List.mem_map.mp hCells with ⟨call, hCall, rfl⟩
  rcases List.mem_map.mp hCall with ⟨e, he, rfl⟩
  exact (hCalls e.1 e.2 ((OrdMap.get?_eq_some_iff _ _ _).mpr he) c hc).occupied

theorem Kept.yields_removeDead
    (hg : g.Kept P) :
    Yields g.removeDead fun found => Collected g found.2 ∧ found.2.Kept P := by
  have hRuns : Yields g.removeDead fun _ => True := by
    unfold removeDead
    refine hg.yields_compress.bind ?_
    rintro g₁ ⟨_, hg₁⟩
    refine hg₁.wellFormed.yields_rootCells.bind ?_
    intro cells hCells
    refine (hg₁.wellFormed.yields_reachable ?_).bind fun _ _ => .ok trivial
    intro id hMem
    rcases List.mem_append.mp hMem with hMem | hMem
    · rcases List.mem_map.mp hMem with ⟨p, hp, rfl⟩
      exact (hCells p hp).occupied
    · exact hg₁.callsIn.hasNode hMem
  refine hRuns.imp_eq ?_
  rintro ⟨count, h⟩ hRun _
  have hgh := Collected.of_removeDead hg.wellFormed hRun
  exact ⟨hgh, hg.collected hgh⟩

/- The flags of live nodes can be cleared. -/
theorem exists_clearForeigns
    {ids : List NodeId}
    (hIds : ∀ id ∈ ids, ∃ n, g.slot id = .live n) :
    ∃ h, ids.foldlM (fun (g : Graph) i =>
      g.modifyContents i fun n =>
        { n with flags := n.flags.erase .foreign }) g = .ok h := by
  induction ids generalizing g with
  | nil => exact ⟨g, rfl⟩
  | cons id rest ih =>
    rw [List.forall_mem_cons] at hIds
    rcases hIds with ⟨⟨n, hLive⟩, hRest⟩
    rw [List.foldlM_cons, modifyContents_of_live hLive, ok_bind]
    refine ih fun x hx => ?_
    rw [slot_setSlot (lt_size_of_live hLive)]
    split
    · exact ⟨_, rfl⟩
    · exact hRest x hx

theorem Kept.yields_pruneForeign
    (hg : g.Kept P) :
    Yields g.pruneForeign fun found => Collected g found.2 ∧ found.2.Kept P := by
  have hRuns : Yields g.pruneForeign fun _ => True := by
    unfold pruneForeign
    refine hg.yields_compress.bind ?_
    rintro g₁ ⟨hComp, hg₁⟩
    refine hg₁.wellFormed.yields_rootCells.bind ?_
    intro cells hCells
    have hLive : ∀ id ∈ (OrdSet.ofList (cells.map fun p => p.2.node)).toList,
        ∃ n, g₁.slot id = .live n := by
      intro id hMem
      rw [OrdSet.mem_toList_iff, OrdSet.mem_ofList_iff] at hMem
      rcases List.mem_map.mp hMem with ⟨p, hp, rfl⟩
      -- A compressed graph forwards nothing, so what is there is live.
      exact (slot_cases_of_hasNode (hCells p hp).occupied).resolve_right
        fun ⟨t, ht⟩ => hComp.flat _ t ht
    rcases exists_clearForeigns hLive with ⟨g₂, hClear⟩
    dsimp only
    rw [hClear, ok_bind]
    split <;> exact .ok trivial
  refine hRuns.imp_eq ?_
  rintro ⟨count, h⟩ hRun _
  have hgh := Collected.of_pruneForeign hg.wellFormed hRun
  exact ⟨hgh, hg.collected hgh⟩

end Graph

end HeapShape
