import HeapShape.Proofs.Graph.Kept
import HeapShape.Proofs.Graph.Marked
import HeapShape.Proofs.Graph.Reachable

/-
  What collection keeps.

  Compression shows in no look-up, and freeing dead nodes leaves exactly
  what roots and recorded calls reach. Both leave a tidy graph: nothing
  forwards, and every stored cell lies in a live node. Collecting a tidy
  graph again changes nothing, not even the order of its free slots.

  Main declarations:
    * `Graph.Tidy`
    * `Graph.mem_reachable_iff`
    * `Graph.Needed`
    * `sweeping_keeps_needed_nodes`
-/

-- Tidy Graphs

namespace HeapShape

open Checked

/- A map whose values all stay as they are. -/
theorem OrdMap.mapChecked_eq_self
    {α β : Type}
    [Ord α]
    [Std.TransOrd α]
    [Std.LawfulEqOrd α]
    {f : β → Checked β}
    {m : OrdMap α β}
    (hf : ∀ key v, m.get? key = some v → f v = .ok v) :
    m.mapChecked f = .ok m := by
  cases hRun : m.mapChecked f with
  | error fault =>
    rcases mapChecked_eq_error hRun with ⟨e, he, hFault⟩
    rw [hf e.1 e.2 ((get?_eq_some_iff _ _ _).mpr he)] at hFault
    cases hFault
  | ok m' =>
    refine congrArg Except.ok (ext_get? fun key => ?_)
    have hGet := mapM_get?_of_mapChecked hRun key
    cases hOld : m.get? key with
    | none =>
      rw [hOld] at hGet
      exact (Except.ok.inj hGet).symm
    | some v =>
      rw [hOld] at hGet
      rcases option_mapM_some_eq_ok hGet with ⟨w, hw, hNew⟩
      rw [hf key v hOld] at hw
      cases hw
      exact hNew

namespace Graph

variable {g h : Graph} {c : Cell} {id : NodeId} {keep : NodeId → Slot → Bool}

/- Nothing is freed if all slots pass. -/
theorem retain_eq_self
    (hKeep : ∀ id, g.hasNode id = true → keep id (g.slot id) = true) :
    g.retain keep = (0, g) := by
  have hNone : g.dropped keep = [] := by
    rw [List.eq_nil_iff_forall_not_mem]
    intro id hMem
    rcases mem_dropped_iff.mp hMem with ⟨hNode, hDrop⟩
    rw [hKeep id hNode] at hDrop
    cases hDrop
  change ((g.dropped keep).length, g.freeAll (g.dropped keep)) = _
  rw [hNone]
  rfl

/- Whether recorded calls lie in a graph, by its entries. -/
theorem callsIn_iff :
    g.CallsIn ↔ ∀ e ∈ g.callSites.entries, ∀ c ∈ e.2.cells,
        g.hasNode c.node = true ∧ c.offset < wordBound := by
  constructor
  · intro hCalls e he c hc
    have hHas := hCalls e.1 e.2 ((OrdMap.get?_eq_some_iff _ _ _).mpr he) c hc
    exact ⟨hHas.occupied, hHas.word⟩
  · intro hAll cs cells hGet c hc
    rcases hAll _ ((OrdMap.get?_eq_some_iff _ _ _).mp hGet) c hc with ⟨hNode, hWord⟩
    exact ⟨hNode, hWord⟩

instance
    (g : Graph) : Decidable g.CallsIn :=
  decidable_of_iff _ callsIn_iff.symm

/- A well-formed graph with nothing left to resolve. -/
structure Tidy
    (g : Graph) : Prop where
  wellFormed : g.WellFormed
  flat : ∀ id t, g.slot id ≠ .forward t
  calls : g.CallsIn

theorem Tidy.live
    (hg : g.Tidy)
    (hNode : g.hasNode id = true) :
    ∃ n, g.slot id = .live n := by
  rcases slot_cases_of_hasNode hNode with hLive | ⟨t, ht⟩
  · exact hLive
  · exact absurd ht (hg.flat id t)

theorem Tidy.resolve_eq
    (hg : g.Tidy)
    (hc : g.Has c) :
    g.resolve c = .ok c := by
  rcases hg.live hc.occupied with ⟨n, hLive⟩
  exact resolve_of_live hLive

theorem Tidy.mapM_resolve_eq
    (hg : g.Tidy)
    {c? : Option Cell}
    (hc : ∀ c, c? = some c → g.Has c) :
    c?.mapM g.resolve = .ok c? := by
  cases c? with
  | none => rfl
  | some c =>
    rw [Option.mapM_some, hg.resolve_eq (hc c rfl)]
    rfl

theorem Tidy.resolveCallSite_eq
    (hg : g.Tidy)
    {cells : CallSiteCells}
    (hCells : ∀ c ∈ cells.cells, g.Has c) :
    g.resolveCallSite cells = .ok cells := by
  have hActuals : cells.actuals.mapM (fun a => a.mapM g.resolve) = .ok cells.actuals := by
    refine Checked.mapM_eq_self fun c? hMem => ?_
    refine hg.mapM_resolve_eq ?_
    rintro c rfl
    exact hCells c (List.mem_append_left _ (List.mem_filterMap.mpr ⟨_, hMem, rfl⟩))
  have hResult : cells.result?.mapM g.resolve = .ok cells.result? := by
    refine hg.mapM_resolve_eq fun c hc => ?_
    exact hCells c (List.mem_append_right _ (Option.mem_toList.mpr hc))
  unfold resolveCallSite
  rw [hActuals, ok_bind, hResult]
  rfl

/- Compressing a tidy graph changes nothing. -/
theorem Tidy.compress_eq
    (hg : g.Tidy) :
    g.compress = .ok g := by
  have hSlots : g.slots.toList.mapM g.resolveSlot = .ok g.slots.toList := by
    refine Checked.mapM_eq_self fun s hMem => ?_
    rw [toList_slots] at hMem
    rcases List.mem_map.mp hMem with ⟨id, _, hSlot⟩
    cases s with
    | free => rfl
    | forward t => rfl
    | live n =>
      have hLinks : n.links.mapChecked g.resolve = .ok n.links :=
        OrdMap.mapChecked_eq_self fun f t hGet =>
          hg.resolve_eq (hg.wellFormed.link_has id n f t hSlot hGet)
      rw [resolveSlot, hLinks]
      rfl
  have hRoots : g.roots.mapChecked g.resolve = .ok g.roots :=
    OrdMap.mapChecked_eq_self fun r c hRoot =>
      hg.resolve_eq (hg.wellFormed.root_has r c hRoot)
  have hCalls : g.callSites.mapChecked g.resolveCallSite = .ok g.callSites :=
    OrdMap.mapChecked_eq_self fun cs cells hGet =>
      hg.resolveCallSite_eq (hg.calls cs cells hGet)
  have hRetain : g.retain (fun _ s => !s.isForward) = (0, g) := by
    refine retain_eq_self fun id hNode => ?_
    rcases hg.live hNode with ⟨n, hLive⟩
    rw [hLive]
    rfl
  unfold compress
  rw [hSlots, ok_bind, hRoots, ok_bind, hCalls, ok_bind, Array.toArray_toList]
  exact congrArg (fun r => Except.ok r.2) hRetain

/- A resolved cell lies in a node that compression leaves. -/
theorem Compressed.has
    (hgh : Compressed g h)
    (hg : g.WellFormed)
    {d : Cell}
    (hd : g.Has d)
    (hResolve : g.resolve d = .ok c) :
    h.Has c := by
  rcases (hg.yields_resolve hd).of_eq_ok hResolve with ⟨hHas, n, hLive⟩
  rcases hgh.live _ n hLive with ⟨links, hNew, _⟩
  exact ⟨hasNode_of_live hNew, hHas.word⟩

theorem Compressed.tidy
    (hgh : Compressed g h)
    (hg : g.WellFormed)
    (hCalls : g.CallsIn) :
    h.Tidy where
  wellFormed := hgh.wellFormed
  flat := hgh.flat
  calls := by
    intro cs cells' hGet c hc
    have hFound := hgh.callSites cs
    rw [hGet] at hFound
    rcases option_mapM_eq_some_iff.mp hFound with ⟨cells, hOld, hRun⟩
    rcases mem_cells_of_resolveCallSite hRun hc with ⟨d, hd, hResolve⟩
    exact hgh.has hg (hCalls cs cells hOld d hd) hResolve

/- A slot is free afterwards if it was, or if it forwarded. -/
theorem Compressed.free_iff
    (hgh : Compressed g h)
    (id : NodeId) :
    h.slot id = .free ↔ g.slot id = .free ∨ ∃ t, g.slot id = .forward t := by
  cases hOld : g.slot id with
  | live n =>
    rcases hgh.live id n hOld with ⟨links, hNew, _⟩
    simp [hNew]
  | free | forward t =>
    cases hNew : h.slot id with
    | live n' =>
      rcases hgh.nodes id n' hNew with ⟨n, hLive, _⟩
      rw [hOld] at hLive
      cases hLive
    | forward u => exact absurd hNew (hgh.flat id u)
    | free => simp

/- Cells of live nodes are looked up as before. -/
theorem Compressed.observes
    (hgh : Compressed g h)
    {n : Node}
    (hLive : g.slot c.node = .live n) :
    h.resolve c = g.resolve c ∧ h.effective c = g.effective c ∧
      ∀ type?, h.link? c type? = g.link? c type? := by
  rcases hgh.live c.node n hLive with ⟨links, hNew, hLinks⟩
  have hOldCell := resolve_of_live hLive
  have hNewCell := resolve_of_live hNew
  refine ⟨hNewCell.trans hOldCell.symm, ?_, ?_⟩
  · rw [effective_of_resolve hOldCell hLive, effective_of_resolve hNewCell hNew]
    rfl
  · intro type?
    rw [link?_of_live hLive, link?_of_live hNew, hgh.config, hLinks]
    cases hGet : links.get? (n.effectiveField (Field.make g.config c.offset type?)) with
    | none =>
      change (links.get? (n.effectiveField _)).mapM _ = _
      rw [hGet]
      rfl
    | some t =>
      change (links.get? (n.effectiveField _)).mapM _ = _
      rw [hGet, Option.mapM_some, hgh.resolve_eq (hgh.wellFormed.link_has _ _ _ t hNew hGet)]
      rfl

end Graph

-- Compression

/-
  Compression shows in no look-up. It frees exactly what forwards, puts the
  live cell in the place of every stored cell, and changes nothing when it
  is done again. It fails only where a stored cell has no live cell, because
  the offset leaves the word range.
-/
theorem compression_is_invisible
    {g : Graph}
    (hg : g.WellFormed)
    (hCalls : g.CallsIn) :
    (g.compress = .error .addOverflow ∧
      ∃ c, g.Stores c ∧
        g.resolve c = .error .addOverflow) ∨
    ∃ h, g.compress = .ok h ∧ h.WellFormed ∧
      h.config = g.config ∧ h.functions = g.functions ∧
      (∀ id, h.slot id = .free ↔ g.slot id = .free ∨
        ∃ t, g.slot id = .forward t) ∧
      (∀ id n, g.slot id = .live n → ∃ links,
        h.slot id = .live { n with links := links } ∧
          ∀ f, (n.links.get? f).mapM g.resolve =
            .ok (links.get? f)) ∧
      (∀ r, g.rootCell? r = .ok (h.roots.get? r)) ∧
      (∀ cs, (g.callSites.get? cs).mapM g.resolveCallSite =
        .ok (h.callSites.get? cs)) ∧
      (∀ c n, g.slot c.node = .live n →
        h.resolve c = g.resolve c ∧
          h.effective c = g.effective c ∧
          ∀ type?, h.link? c type? = g.link? c type?) ∧
      (∀ r, h.rootCell? r = g.rootCell? r) ∧
      h.compress = .ok h := by
  cases hRun : g.compress with
  | error fault =>
      rcases hg.overflow_of_compress hCalls hRun with
        ⟨rfl, hOver⟩
      exact Or.inl ⟨rfl, hOver⟩
  | ok h =>
      have hgh := Graph.Compressed.of_compress hg hRun
      exact Or.inr ⟨h, rfl, hgh.wellFormed, hgh.config,
        hgh.functions, hgh.free_iff, hgh.live, hgh.roots,
        hgh.callSites, fun _ _ => hgh.observes,
        hgh.rootCell?_eq, (hgh.tidy hg hCalls).compress_eq⟩

/-
  A link and a recorded call that lead to a node which was laid over
  another, and a dead node that leads to itself and into the rest.
-/
def looseEnds : List Update :=
  [.createNode Flags.empty 16, .createNode Flags.empty 16,
    .createNode Flags.empty 16,
    .createNode (Flags.only .heap) 16,
    .createNode Flags.empty 8,
    .merge (.addLink ⟨0, 0⟩ none ⟨1, 8⟩),
    .merge (.addLink ⟨2, 0⟩ none ⟨2, 8⟩),
    .merge (.addLink ⟨2, 8⟩ none ⟨0, 0⟩),
    .merge (.unify ⟨3, 8⟩ ⟨1, 0⟩),
    .merge (.bindRoot (.scalar 7) (some ⟨0, 4⟩)),
    .recordCallSite 5
      { actuals := [none, some ⟨4, 0⟩]
        result? := some ⟨1, 0⟩ }]

/- The merged node is gone, and the link is as it was. -/
theorem compression_is_invisible_of_looseEnds :
    ∃ g h : Graph, g.WellFormed ∧ g.CallsIn ∧
      g.slot 1 = .forward ⟨3, 8⟩ ∧
      g.compress = .ok h ∧ h.slot 1 = .free ∧
      h.link? ⟨0, 0⟩ none = .ok (some ⟨3, 16⟩) ∧
      h.compress = .ok h := by
  rcases Update.exists_runs {} looseEnds []
      (P := fun g _ => g.CallsIn ∧ g.compress.isOk = true ∧
        g.slot 1 = .forward ⟨3, 8⟩ ∧
        (g.slot 0).isLive = true ∧
        g.link? ⟨0, 0⟩ none = .ok (some ⟨3, 16⟩))
      (by decide) (by decide +kernel) with
    ⟨g, _, _, _, hg, _, hCalls, hOk, hForward, hLive, hLink⟩
  rcases compression_is_invisible hg hCalls with
    ⟨hOver, _⟩ | ⟨h, hRun, _, _, _, hFree, _, _, _, hSame, _,
      hAgain⟩
  · rw [hOver] at hOk
    cases hOk
  · cases hSlot : g.slot 0 with
    | live n =>
        exact ⟨g, h, hg, hCalls, hForward, hRun,
          (hFree 1).mpr (Or.inr ⟨_, hForward⟩),
          ((hSame ⟨0, 0⟩ n hSlot).2.2 none).trans hLink,
          hAgain⟩
    | free =>
        rw [hSlot] at hLive
        cases hLive
    | forward t =>
        rw [hSlot] at hLive
        cases hLive

/-
  A node that leads to the last word of another, which is then laid into a
  third. Nothing is bound to any of them.
-/
def farTarget : List Update :=
  [.createNode Flags.empty 16, .createNode Flags.empty 16,
    .createNode Flags.empty 16,
    .merge (.addLink ⟨0, 0⟩ none ⟨1, 4294967295⟩),
    .merge (.unify ⟨2, 8⟩ ⟨1, 0⟩)]

/- The link has no live cell, and compression fails on it. -/
theorem no_compression_of_farTarget :
    ∃ g : Graph, g.WellFormed ∧ g.CallsIn ∧
      g.slot 1 = .forward ⟨2, 8⟩ ∧ ∀ h, g.compress ≠ .ok h := by
  rcases Update.exists_runs {} farTarget []
      (P := fun g _ => g.CallsIn ∧
        g.slot 1 = .forward ⟨2, 8⟩ ∧
        g.compress.isOk = false)
      (by decide) (by decide +kernel) with
    ⟨g, _, _, _, hg, _, hCalls, hForward, hFails⟩
  refine ⟨g, hg, hCalls, hForward, ?_⟩
  intro h hRun
  rw [hRun] at hFails
  cases hFails

-- Needed Nodes

namespace Graph

variable {g h : Graph} {c : Cell} {id : NodeId} {seen out : OrdSet NodeId}
variable {starts stack : List NodeId}

/- A visit sees nothing but what links lead it to. -/
theorem reachWithin_least
    {P : NodeId → Prop}
    {fuel : Nat}
    (hRun : g.reachWithin fuel stack seen = .ok out)
    (hStack : ∀ x ∈ stack, ∀ m k, g.Leads x m k → P m)
    (hSeen : ∀ x ∈ seen, P x)
    (hLink : ∀ x t m, P x → g.LinkTo x t m → P m) :
    ∀ x ∈ out, P x := by
  induction fuel generalizing stack seen with
  | zero =>
    cases stack with
    | nil =>
      cases hRun
      exact hSeen
    | cons id rest => cases hRun
  | succ fuel ih =>
    cases stack with
    | nil =>
      cases hRun
      exact hSeen
    | cons x rest =>
      rw [List.forall_mem_cons] at hStack
      rw [reachWithin] at hRun
      rcases of_bind hRun with ⟨d, hResolve, hRun⟩
      rcases leads_of_resolve hResolve with ⟨k, hLeads, _⟩
      have hHere := hStack.1 d.node k hLeads
      split at hRun
      · exact ih hRun hStack.2 hSeen
      · rcases hLeads.live_end with ⟨n, hLive⟩
        rw [contents_of_live hLive, ok_bind] at hRun
        refine ih hRun ?_ ?_
        · intro y hy m j hEnd
          rcases List.mem_append.mp hy with hy | hy
          · rw [List.mem_reverse] at hy
            rcases List.mem_map.mp hy with ⟨t, ht, rfl⟩
            rcases List.mem_map.mp ht with ⟨e, he, rfl⟩
            exact hLink _ _ m hHere ⟨n, e.1, j, hLive, (OrdMap.get?_eq_some_iff _ _ _).mpr he, hEnd⟩
          · exact hStack.2 y hy m j hEnd
        · intro y hy
          rcases (OrdSet.mem_insert_iff _ _ _).mp hy with rfl | hy
          · exact hHere
          · exact hSeen y hy

/- A visit sees exactly the nodes that can be reached. -/
theorem mem_reachable_iff
    (hRun : g.reachable starts = .ok out) :
    id ∈ out ↔ ∃ x ∈ starts, g.Reaches x id := by
  constructor
  · refine reachWithin_least (P := fun id => ∃ x ∈ starts, g.Reaches x id) hRun
      ?_ (fun _ hNone => by cases hNone)
      ?_ id
    · exact fun x hx m k hLeads =>
        ⟨x, List.mem_reverse.mp hx, .here hLeads⟩
    · exact fun _ _ _ hReaches hLink =>
        hReaches.imp fun _ hx => ⟨hx.1, .link hx.2 hLink⟩
  · rintro ⟨x, hx, hReaches⟩
    rcases closed_of_reachable hRun with ⟨hStarts, hClosed⟩
    induction hReaches with
    | here hLeads => exact hStarts x _ _ hx hLeads
    | link _ hLink ih => exact hClosed _ _ _ ih hLink

/- A node that roots or recorded calls reach by links. -/
def Needed
    (g : Graph)
    (id : NodeId) : Prop :=
  ∃ c, g.Names c ∧ g.Reaches c.node id

/- Compression leads on to the same nodes. -/
theorem Compressed.linkTo_iff
    (hgh : Compressed g h)
    {m : NodeId} :
    (∃ t, h.LinkTo id t m) ↔ ∃ t, g.LinkTo id t m := by
  constructor
  · rintro ⟨t', n', f, k, hNew, hGet', hEnd⟩
    rcases hgh.eq_of_leads hEnd with ⟨rfl, rfl⟩
    rcases hgh.nodes id n' hNew with ⟨n, hOld, _, hLinks⟩
    rcases hLinks f t' hGet' with ⟨t, hGet, hResolve⟩
    rcases leads_of_resolve hResolve with ⟨k, hLeads, _⟩
    exact ⟨t, n, f, k, hOld, hGet, hLeads⟩
  · rintro ⟨t, n, f, k, hOld, hGet, hEnd⟩
    rcases hgh.exists_link hOld hGet with ⟨n', t', hNew, _, hGet', hResolve⟩
    rcases leads_of_resolve hResolve with ⟨j, hLeads, _⟩
    rcases hEnd.unique hLeads with ⟨rfl, _⟩
    rcases hLeads.live_end with ⟨l, hLive⟩
    rcases hgh.live _ l hLive with ⟨_, hLive', _⟩
    exact ⟨t', n', f, 0, hNew, hGet', .live hLive'⟩

theorem Compressed.reaches_iff
    (hgh : Compressed g h)
    {c' : Cell}
    (hResolve : g.resolve c = .ok c') :
    h.Reaches c'.node id ↔ g.Reaches c.node id := by
  rcases leads_of_resolve hResolve with ⟨k, hLeads, _⟩
  constructor
  · intro hReaches
    induction hReaches with
    | here hEnd =>
      rcases hgh.eq_of_leads hEnd with ⟨rfl, _⟩
      exact .here hLeads
    | link _ hLink ih =>
      rcases hgh.linkTo_iff.mp ⟨_, hLink⟩ with ⟨t, hLink⟩
      exact .link ih hLink
  · intro hReaches
    induction hReaches with
    | here hEnd =>
      rcases hEnd.unique hLeads with ⟨rfl, _⟩
      rcases hLeads.live_end with ⟨n, hLive⟩
      rcases hgh.live _ n hLive with ⟨_, hNew, _⟩
      exact .here (.live hNew)
    | link _ hLink ih =>
      rcases hgh.linkTo_iff.mpr ⟨_, hLink⟩ with ⟨t, hLink⟩
      exact .link ih hLink

/- So the same nodes are needed. -/
theorem Compressed.needed_iff
    (hgh : Compressed g h) :
    h.Needed id ↔ g.Needed id := by
  constructor
  · rintro ⟨c', ⟨r, hRoot⟩ | ⟨cs, cells', hGet, hc'⟩, hReaches⟩
    · have hFound := hgh.roots r
      rw [hRoot] at hFound
      rcases option_mapM_eq_some_iff.mp hFound with ⟨c, hOld, hResolve⟩
      exact ⟨c, Or.inl ⟨r, hOld⟩, (hgh.reaches_iff hResolve).mp hReaches⟩
    · have hFound := hgh.callSites cs
      rw [hGet] at hFound
      rcases option_mapM_eq_some_iff.mp hFound with ⟨cells, hOld, hRun⟩
      rcases mem_cells_of_resolveCallSite hRun hc' with ⟨c, hc, hResolve⟩
      exact ⟨c, Or.inr ⟨cs, cells, hOld, hc⟩, (hgh.reaches_iff hResolve).mp hReaches⟩
  · rintro ⟨c, ⟨r, hRoot⟩ | ⟨cs, cells, hGet, hc⟩, hReaches⟩
    · rcases hgh.exists_root hRoot with ⟨c', hResolve, hNew, _⟩
      exact ⟨c', Or.inl ⟨r, hNew⟩, (hgh.reaches_iff hResolve).mpr hReaches⟩
    · have hFound := hgh.callSites cs
      rw [hGet] at hFound
      rcases option_mapM_some_eq_ok hFound with ⟨cells', hRun, hNew⟩
      rcases exists_mem_of_resolveCallSite hRun hc with ⟨c', hc', hResolve⟩
      exact ⟨c', Or.inr ⟨cs, cells', hNew, hc'⟩, (hgh.reaches_iff hResolve).mpr hReaches⟩

-- Removing Dead Nodes

theorem liveCount_eq
    (g : Graph) :
    g.liveCount = (List.range g.slots.size).countP fun i => (g.slot i).isLive := by
  unfold liveCount liveNodes
  rw [List.length_filterMap_eq_countP]
  congr 1
  funext i
  cases g.slot i <;> rfl

/- Compression keeps all live nodes. -/
theorem liveCount_compress
    (hg : g.WellFormed)
    (hRun : g.compress = .ok h) :
    h.liveCount = g.liveCount := by
  have hgh := Compressed.of_compress hg hRun
  have hSize : h.slots.size = g.slots.size := by
    rcases compress_eq_ok hRun with ⟨g₁, hRes, rfl⟩
    exact (retain_spec g₁ _).2.2.1.trans hRes.size
  rw [liveCount_eq, liveCount_eq, hSize]
  congr 1
  funext i
  cases hOld : g.slot i with
  | live n =>
    rcases hgh.live i n hOld with ⟨links, hNew, _⟩
    rw [hNew]
    rfl
  | free => rw [(hgh.free_iff i).mpr (Or.inl hOld)]
  | forward t =>
    rw [(hgh.free_iff i).mpr (Or.inr ⟨t, hOld⟩)]
    rfl

/- Every live node is freed and counted, or it stays. -/
theorem liveCount_retain
    (hFlat : ∀ id t, g.slot id ≠ .forward t)
    (keep : NodeId → Slot → Bool) :
    (g.retain keep).1 + (g.retain keep).2.liveCount = g.liveCount := by
  have hCount : (g.retain keep).1 = (g.dropped keep).length := rfl
  rw [hCount, dropped, ← List.countP_eq_length_filter,
    liveCount_eq, liveCount_eq, (retain_spec g keep).2.2.1,
    List.countP_eq_countP_filter_add _ (fun i => (g.slot i).isLive) (fun i => !keep i (g.slot i)),
    List.countP_filter, List.countP_filter]
  congr 2
  · funext i
    cases hSlot : g.slot i with
    | forward t => exact absurd hSlot (hFlat i t)
    | free => rfl
    | live n => rfl
  · funext i
    rw [slot_retain, hasNode]
    cases hSlot : g.slot i with
    | forward t => exact absurd hSlot (hFlat i t)
    | free => simp [Slot.isOccupied, Slot.isLive]
    | live n =>
      cases hKeep : keep i (.live n) <;>
        simp [Slot.isOccupied, Slot.isLive]

theorem Tidy.rootCells_eq
    (hg : g.Tidy) :
    g.rootCells = .ok g.roots.entries := by
  refine Checked.mapM_eq_self fun e he => ?_
  have hHas := hg.wellFormed.root_has e.1 e.2 ((OrdMap.get?_eq_some_iff _ _ _).mpr he)
  dsimp only
  rw [hg.resolve_eq hHas]
  rfl

/- A visit starts at the cells that something is bound to. -/
theorem mem_starts_iff :
    id ∈ (g.roots.entries.map fun e => e.2.node) ++ g.callSiteNodes ↔
      ∃ c, g.Names c ∧ c.node = id := by
  unfold callSiteNodes OrdMap.values Names
  simp only [List.mem_append, List.mem_map, List.mem_flatten, OrdMap.get?_eq_some_iff]
  constructor
  · rintro (⟨e, he, rfl⟩ | ⟨c, ⟨_, ⟨_, ⟨e, he, rfl⟩, rfl⟩, hc⟩, rfl⟩)
    · exact ⟨e.2, Or.inl ⟨e.1, he⟩, rfl⟩
    · exact ⟨c, Or.inr ⟨e.1, e.2, he, hc⟩, rfl⟩
  · rintro ⟨c, ⟨r, he⟩ | ⟨cs, cells, he, hc⟩, rfl⟩
    · exact Or.inl ⟨_, he, rfl⟩
    · exact Or.inr ⟨c, ⟨_, ⟨_, ⟨_, he, rfl⟩, rfl⟩, hc⟩, rfl⟩

/- In a tidy graph the needed nodes are found and kept. -/
theorem Tidy.exists_removeDead
    (hg : g.Tidy) :
    ∃ out : OrdSet NodeId, g.removeDead = .ok (g.retain fun i _ => out.contains i) ∧
      ∀ id, id ∈ out ↔ g.Needed id := by
  have hStarts :
      ∀ id ∈ (g.roots.entries.map fun e => e.2.node) ++ g.callSiteNodes, g.hasNode id = true := by
    intro id hMem
    rcases mem_starts_iff.mp hMem with ⟨c, hc, rfl⟩
    exact (hg.wellFormed.has_of_names hg.calls hc).occupied
  rcases hg.wellFormed.exists_reachable hStarts with ⟨out, hRun, _⟩
  refine ⟨out, ?_, ?_⟩
  · unfold removeDead
    rw [hg.compress_eq, ok_bind, hg.rootCells_eq, ok_bind]
    exact congrArg (· >>= _) hRun
  · intro id
    rw [mem_reachable_iff hRun]
    constructor
    · rintro ⟨x, hx, hReaches⟩
      rcases mem_starts_iff.mp hx with ⟨c, hc, rfl⟩
      exact ⟨c, hc, hReaches⟩
    · rintro ⟨c, hc, hReaches⟩
      exact ⟨c.node, mem_starts_iff.mpr ⟨c, hc, rfl⟩, hReaches⟩

/- What is needed stays needed if all of it stays. -/
theorem Tidy.needed_mono
    (hg : g.Tidy)
    (hNames : ∀ c, g.Names c → h.Names c)
    (hSlot : ∀ id, g.Needed id → h.slot id = g.slot id)
    (hNeeded : g.Needed id) :
    h.Needed id := by
  rcases hNeeded with ⟨c, hc, hReaches⟩
  refine ⟨c, hNames c hc, ?_⟩
  -- A chain of the tidy graph is at its end at once.
  have hLeads : ∀ {x m k}, g.Needed m → g.Leads x m k → h.Leads x m 0 := by
    intro x m k hm hEnd
    cases hEnd with
    | live hLive => exact .live ((hSlot _ hm).trans hLive)
    | forward hForward _ => exact absurd hForward (hg.flat _ _)
  induction hReaches with
  | here hEnd => exact .here (hLeads ⟨c, hc, .here hEnd⟩ hEnd)
  | link hx hLink ih =>
    have hNext := Reaches.link hx hLink
    rcases hLink with ⟨n, f, k, hLive, hGet, hEnd⟩
    exact .link ih ⟨n, f, 0, (hSlot _ ⟨c, hc, hx⟩).trans hLive, hGet, hLeads ⟨c, hc, hNext⟩ hEnd⟩

/- What is left of a tidy graph without its dead nodes. -/
structure Swept
    (g h : Graph) : Prop where
  tidy : h.Tidy
  thinned : Thinned g h
  hasNode_iff : ∀ id, h.hasNode id = true ↔ g.Needed id
  slot : ∀ id, g.Needed id → h.slot id = g.slot id

theorem Tidy.swept
    (hg : g.Tidy)
    (hRun : g.removeDead = .ok (g.retain fun i _ => out.contains i))
    (hOut : ∀ id, id ∈ out ↔ g.Needed id) :
    Swept g (g.retain fun i _ => out.contains i).2 := by
  have hThin := Thinned.retain g fun i _ => out.contains i
  have hKeep : ∀ id, g.Needed id → out.contains id = true :=
    fun id => (hOut id).mpr
  have hSlot : ∀ id, g.Needed id → (g.retain fun i _ => out.contains i).2.slot id = g.slot id := by
    intro id hNeeded
    rw [slot_retain, if_neg]
    rintro ⟨_, hDrop⟩
    rw [hKeep id hNeeded] at hDrop
    cases hDrop
  refine ⟨⟨hg.wellFormed.removeDead hRun, ?_, ?_⟩, hThin, ?_, hSlot⟩
  · exact fun id t hForward =>
      hg.flat id t (hThin.forwards id t hForward)
  · intro cs cells hGet c hc
    rw [hThin.callSites] at hGet
    have hHas := hg.calls cs cells hGet c hc
    rcases hg.live hHas.occupied with ⟨n, hLive⟩
    exact hHas.retain (hKeep _ ⟨c, Or.inr ⟨cs, cells, hGet, hc⟩, .here (.live hLive)⟩)
  · intro id
    constructor
    · intro hNode
      rw [Graph.hasNode_iff, slot_retain] at hNode
      split at hNode
      · exact absurd rfl hNode
      · next hDrop =>
        rw [← hOut]
        by_contra hNot
        exact hDrop ⟨Graph.hasNode_iff.mpr hNode, Bool.eq_false_iff.mpr hNot⟩
    · rintro ⟨c, hc, hReaches⟩
      rcases hReaches.live_end with ⟨n, hLive⟩
      exact hasNode_of_live ((hSlot id ⟨c, hc, hReaches⟩).trans hLive)

theorem Tidy.exists_swept
    (hg : g.Tidy) :
    ∃ count h, g.removeDead = .ok (count, h) ∧ Swept g h ∧
      count + h.liveCount = g.liveCount := by
  rcases hg.exists_removeDead with ⟨out, hRun, hOut⟩
  have hSwept := hg.swept hRun hOut
  have hCount := liveCount_retain hg.flat fun i _ => out.contains i
  generalize (g.retain fun i _ => out.contains i) = r at *
  exact ⟨r.1, r.2, hRun, hSwept, hCount⟩

/- Nothing of it is dead, so nothing more is removed. -/
theorem Swept.removeDead_eq
    (hgh : Swept g h)
    (hg : g.Tidy) :
    h.removeDead = .ok (0, h) := by
  rcases hgh.tidy.exists_removeDead with ⟨out, hRun, hOut⟩
  rw [hRun, retain_eq_self]
  intro id hNode
  refine (hOut id).mpr (hg.needed_mono ?_ hgh.slot ((hgh.hasNode_iff id).mp hNode))
  intro c hc
  unfold Names
  rw [hgh.thinned.roots, hgh.thinned.callSites]
  exact hc

/- What is compressed anyway may be compressed before. -/
theorem Tidy.removeDead_of_compress
    (hh : h.Tidy)
    (hRun : g.compress = .ok h) :
    g.removeDead = h.removeDead := by
  unfold removeDead
  rw [hRun, hh.compress_eq]

/- Only the compression can fail. -/
theorem WellFormed.overflow_of_removeDead
    (hg : g.WellFormed)
    (hCalls : g.CallsIn)
    {fault : Fault}
    (hRun : g.removeDead = .error fault) :
    fault = .addOverflow ∧
      ∃ c, g.Stores c ∧ g.resolve c = .error .addOverflow := by
  cases hFirst : g.compress with
  | error fault' =>
    unfold Graph.removeDead at hRun
    rw [hFirst] at hRun
    cases hRun
    exact hg.overflow_of_compress hCalls hFirst
  | ok g₁ =>
    have hTidy := (Compressed.of_compress hg hFirst).tidy hg hCalls
    rcases hTidy.exists_swept with ⟨count, h, hDead, _⟩
    rw [hTidy.removeDead_of_compress hFirst, hDead] at hRun
    cases hRun

end Graph

/-
  Removing dead nodes keeps exactly the nodes that roots and recorded calls
  reach, with all that is known of them, and resolves their links, which
  lead to nodes that are kept. The nodes that are gone are counted. Done
  again, it removes nothing and changes nothing. It fails only where a
  stored cell has no live cell, because the offset leaves the word range.
-/
theorem sweeping_keeps_needed_nodes
    {g : Graph}
    (hg : g.WellFormed)
    (hCalls : g.CallsIn) :
    (g.removeDead = .error .addOverflow ∧
      ∃ c, g.Stores c ∧
        g.resolve c = .error .addOverflow) ∨
    ∃ count h, g.removeDead = .ok (count, h) ∧
      h.WellFormed ∧
      (∀ id, h.hasNode id = true ↔ g.Needed id) ∧
      (∀ id, g.Needed id → ∃ n links,
        g.slot id = .live n ∧
        h.slot id = .live { n with links := links } ∧
        ∀ f, (n.links.get? f).mapM g.resolve =
            .ok (links.get? f) ∧
          ∀ t, links.get? f = some t →
            h.hasNode t.node = true) ∧
      (∀ r, g.rootCell? r = .ok (h.roots.get? r) ∧
        h.rootCell? r = g.rootCell? r) ∧
      (∀ cs, (g.callSites.get? cs).mapM g.resolveCallSite =
          .ok (h.callSites.get? cs) ∧
        (h.callSites.get? cs).mapM h.resolveCallSite =
          .ok (h.callSites.get? cs)) ∧
      count + h.liveCount = g.liveCount ∧
      h.removeDead = .ok (0, h) := by
  cases hRun : g.compress with
  | error fault =>
      rcases hg.overflow_of_compress hCalls hRun with
        ⟨rfl, hOver⟩
      refine Or.inl ⟨?_, hOver⟩
      unfold Graph.removeDead
      rw [hRun]
      rfl
  | ok g₁ =>
      have hFirst := Graph.Compressed.of_compress hg hRun
      have hTidy := hFirst.tidy hg hCalls
      have hSame := hTidy.removeDead_of_compress hRun
      rcases hTidy.exists_swept with
        ⟨count, h, hDead, hSwept, hCount⟩
      have hCollected := Graph.Collected.of_removeDead hg
        (hSame.trans hDead)
      have hNeeded : ∀ id, g₁.Needed id ↔ g.Needed id :=
        fun id => hFirst.needed_iff
      rw [Graph.liveCount_compress hg hRun] at hCount
      refine Or.inr ⟨count, h, hSame.trans hDead,
        hSwept.tidy.wellFormed,
        fun id => (hSwept.hasNode_iff id).trans (hNeeded id),
        ?_, fun r => ⟨hCollected.roots r,
          hCollected.rootCell?_eq r⟩, ?_, hCount,
        hSwept.removeDead_eq hTidy⟩
      · intro id hId
        have hKept := hSwept.slot id ((hNeeded id).mpr hId)
        rcases hId with ⟨c, hc, hReaches⟩
        rcases hReaches.live_end with ⟨n, hLive⟩
        rcases hFirst.live id n hLive with
          ⟨links, hNew, hLinks⟩
        refine ⟨n, links, hLive, hKept.trans hNew, ?_⟩
        exact fun f => ⟨hLinks f, fun t hGet =>
          (hSwept.tidy.wellFormed.link_has id _ f t
            (hKept.trans hNew) hGet).occupied⟩
      · intro cs
        refine ⟨hCollected.callSites cs, ?_⟩
        cases hGet : h.callSites.get? cs with
        | none => rfl
        | some cells =>
            rw [Option.mapM_some,
              hSwept.tidy.resolveCallSite_eq
                (hSwept.tidy.calls cs cells hGet)]
            rfl

/-
  The dead node is removed. The node that only a recorded call names stays,
  and nothing is left to remove.
-/
theorem sweeping_keeps_needed_nodes_of_looseEnds :
    ∃ g h : Graph, g.WellFormed ∧ g.CallsIn ∧ g.liveCount = 4 ∧
      g.removeDead = .ok (1, h) ∧ h.liveCount = 3 ∧
      h.hasNode 4 = true ∧ ¬ g.Needed 2 ∧
      h.removeDead = .ok (0, h) := by
  rcases Update.exists_runs {} looseEnds []
      (P := fun g _ => g.CallsIn ∧ g.liveCount = 4 ∧
        g.removeDead.map (fun r => (r.1, r.2.hasNode 2,
          r.2.hasNode 4)) = .ok (1, false, true))
      (by decide) (by decide +kernel) with
    ⟨g, _, _, _, hg, _, hCalls, hFour, hDead⟩
  rcases Checked.map_eq_ok_iff.mp hDead with
    ⟨⟨count, h⟩, hRun, hSwept⟩
  simp only [Prod.mk.injEq] at hSwept
  rcases hSwept with ⟨rfl, hTwo, hStays⟩
  rcases sweeping_keeps_needed_nodes hg hCalls with
    ⟨hOver, _⟩ | ⟨_, _, hRun', _, hNeeded, _, _, _, hCount,
      hAgain⟩
  · rw [hOver] at hRun
    cases hRun
  · rw [hRun] at hRun'
    cases hRun'
    refine ⟨g, h, hg, hCalls, hFour, hRun, by omega, hStays,
      ?_, hAgain⟩
    rw [← hNeeded, hTwo]
    decide

/-
  No node of this graph is needed. Still, the link of a dead one keeps all
  of them from being removed.
-/
theorem no_sweeping_of_farTarget :
    ∃ g : Graph, g.WellFormed ∧ g.CallsIn ∧
      g.liveCount = 2 ∧ (∀ id, ¬ g.Needed id) ∧
      ∀ r, g.removeDead ≠ .ok r := by
  rcases Update.exists_runs {} farTarget []
      (P := fun g _ => g.CallsIn ∧
        g.callSites.entries = [] ∧ g.roots.entries = [] ∧
        g.liveCount = 2 ∧ g.removeDead.isOk = false)
      (by decide) (by decide +kernel) with
    ⟨g, _, _, _, hg, _, hIn, hCalls, hRoots, hTwo, hFails⟩
  refine ⟨g, hg, hIn, hTwo, ?_, ?_⟩
  · rintro id ⟨c, ⟨r, hGet⟩ | ⟨cs, cells, hGet, _⟩, _⟩
    · rw [OrdMap.get?_eq_some_iff, hRoots] at hGet
      cases hGet
    · rw [OrdMap.get?_eq_some_iff, hCalls] at hGet
      cases hGet
  · intro r hRun
    rw [hRun] at hFails
    cases hFails

end HeapShape
