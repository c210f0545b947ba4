import HeapShape.Lowering
import HeapShape.Proofs.Graph.Kept

/-
  Memory that unknown code has been handed.

  Everything that a call of unknown code can reach is marked at once. Nodes
  stay marked in all later graphs, however they are merged. What is reached
  may grow, so all of it stays marked only in steps that add no links.

  Main declarations:
    * `Graph.Reaches`
    * `Graph.CallSealed`
    * `Graph.Outlives`
    * `Graph.Calm`
-/

-- Marked Calls

namespace HeapShape

/- Unknown code may have read or changed the node. -/
def Node.Marked
    (n : Node) : Prop :=
  n.flags.has .external = true ∧
    n.flags.has .incomplete = true

instance
    (n : Node) : Decidable n.Marked :=
  inferInstanceAs (Decidable (_ ∧ _))

variable {n m : Node}

theorem Node.StandsFor.marked
    {k : Nat}
    (h : n.StandsFor m k)
    (hn : n.Marked) :
    m.Marked :=
  ⟨h.flags .external nofun nofun hn.1, h.flags .incomplete nofun nofun hn.2⟩

theorem Node.SameFacts.marked
    (h : n.SameFacts m)
    (hn : n.Marked) :
    m.Marked :=
  ⟨(h.flags .external nofun).trans hn.1, (h.flags .incomplete nofun).trans hn.2⟩

namespace Graph

/- The nodes that can be reached from a slot by links. -/
inductive Reaches
    (g : Graph)
    (id : NodeId) :
    NodeId → Prop
| here
    {m : NodeId} {k : Nat}
    (hLeads : g.Leads id m k) :
    Reaches g id m
| link
    {x m : NodeId} {t : Cell} (hx : Reaches g id x)
    (hLink : g.LinkTo x t m) :
    Reaches g id m

/- All nodes that can be reached from a slot are marked. -/
def Seals
    (g : Graph)
    (id : NodeId) : Prop :=
  ∀ m n, g.Reaches id m → g.slot m = .live n → n.Marked

/- Where a call finds a value: at its formal, if it has one. -/
def callRoot
    (g : Graph)
    (v : ValueId) : Root :=
  if (g.roots.get? (.formal v)).isSome then .formal v
  else .scalar v

/- The values of a call have cells in nodes of a kind. -/
def AtCall
    (g : Graph)
    (cs : CallSite)
    (Q : NodeId → Prop) : Prop :=
  ∀ v ∈ cs.values, ∃ c,
    g.roots.get? (g.callRoot v) = some c ∧ Q c.node

/- The values of a call lie in marked nodes. -/
def CallMarked
    (g : Graph)
    (cs : CallSite) : Prop :=
  g.AtCall cs (g.NodeHas Node.Marked)

/- All that the values of a call reach is marked. -/
def CallSealed
    (g : Graph)
    (cs : CallSite) : Prop :=
  g.AtCall cs g.Seals

variable {g h i : Graph} {cs : CallSite} {id m : NodeId}

theorem Reaches.live_end
    (hReaches : g.Reaches id m) :
    ∃ n, g.slot m = .live n := by
  cases hReaches with
  | here hLeads => exact hLeads.live_end
  | link _ hLink =>
    rcases hLink with ⟨_, _, _, _, _, hLeads⟩
    exact hLeads.live_end

variable {Q Q' : NodeId → Prop}

theorem AtCall.imp
    (hAt : g.AtCall cs Q)
    (hQ : ∀ r c, g.roots.get? r = some c → Q c.node → Q' c.node) :
    g.AtCall cs Q' := by
  intro v hv
  rcases hAt v hv with ⟨c, hRoot, hc⟩
  exact ⟨c, hRoot, hQ _ c hRoot hc⟩

/- What is reached has the nodes of the values themselves. -/
theorem CallSealed.marked
    (hg : g.WellFormed)
    (hSealed : g.CallSealed cs) :
    g.CallMarked cs := by
  refine AtCall.imp hSealed ?_
  intro r c hRoot hSeals
  rcases hg.leads (hg.root_has r c hRoot).occupied with ⟨m, k, hLeads⟩
  rcases hLeads.live_end with ⟨n, hLive⟩
  exact ⟨m, k, n, hLeads, hLive, hSeals m n (.here hLeads) hLive⟩

-- Later Graphs

/-
  A graph made by merging and linking. Calls find values at the roots at
  which they found them.
-/
structure Outlives
    (g h : Graph) : Prop where
  wellFormed : h.WellFormed
  merged : Merged g h
  roots : ∀ r c, g.roots.get? r = some c →
    h.roots.get? r = some c
  formals : ∀ v, g.roots.get? (.formal v) = none →
    h.roots.get? (.formal v) = none

variable {v : ValueId}

theorem Outlives.refl
    (hg : g.WellFormed) :
    Outlives g g where
  wellFormed := hg
  merged := .refl hg
  roots := fun _ _ hRoot => hRoot
  formals := fun _ hNone => hNone

theorem Outlives.trans
    (hgh : Outlives g h)
    (hhi : Outlives h i) :
    Outlives g i where
  wellFormed := hhi.wellFormed
  merged := hgh.merged.trans hhi.wellFormed hhi.merged
  roots := fun r c hRoot =>
    hhi.roots r c (hgh.roots r c hRoot)
  formals := fun v hNone =>
    hhi.formals v (hgh.formals v hNone)

theorem Outlives.of_later
    (hgh : Later g h)
    (hFormals : ∀ v, g.roots.get? (.formal v) = none → h.roots.get? (.formal v) = none) :
    Outlives g h where
  wellFormed := hgh.wellFormed
  merged := hgh.merged
  roots := hgh.roots
  formals := hFormals

/- Steps that bind no roots. -/
theorem Outlives.of_sameRoots
    (hgh : Later g h)
    (hRoots : h.roots = g.roots) :
    Outlives g h :=
  .of_later hgh fun v hNone => by rw [hRoots, hNone]

theorem Outlives.callRoot_eq
    (hgh : Outlives g h)
    (v : ValueId) :
    h.callRoot v = g.callRoot v := by
  unfold callRoot
  cases hRoot : g.roots.get? (.formal v) with
  | none => rw [hgh.formals v hRoot]
  | some c => rw [hgh.roots _ c hRoot]

/- A marked call stays marked. -/
theorem CallMarked.outlives
    (hMarked : g.CallMarked cs)
    (hgh : Outlives g h) :
    h.CallMarked cs := by
  intro v hv
  rcases hMarked v hv with ⟨c, hRoot, hc⟩
  refine ⟨c, ?_, hc.merged hgh.merged fun _ _ _ hStands hn =>
    hStands.marked hn⟩
  rw [hgh.callRoot_eq]
  exact hgh.roots _ c hRoot

-- Collection

/- Collection binds and unbinds no root. -/
theorem Collected.callRoot_eq
    (hgh : Collected g h)
    (v : ValueId) :
    h.callRoot v = g.callRoot v := by
  unfold callRoot
  cases hOld : g.roots.get? (.formal v) with
  | none =>
    have hRoot := hgh.roots (.formal v)
    unfold rootCell? at hRoot
    rw [hOld] at hRoot
    rw [← Except.ok.inj hRoot]
  | some c =>
    rcases hgh.exists_root hOld with ⟨d, _, hNew, _⟩
    rw [hNew]
    rfl

/- The cells of a call are live afterwards. -/
theorem AtCall.collected
    (hAt : g.AtCall cs Q)
    (hgh : Collected g h)
    (hQ : ∀ c d, g.resolve c = .ok d → h.Has d → Q c.node → Q' d.node) :
    h.AtCall cs Q' := by
  intro v hv
  rcases hAt v hv with ⟨c, hRoot, hc⟩
  rcases hgh.exists_root hRoot with ⟨d, hResolve, hNew, _⟩
  rw [← hgh.callRoot_eq] at hNew
  exact ⟨d, hNew, hQ c d hResolve (hgh.wellFormed.root_has _ d hNew) hc⟩

/- A node that is left was there before, as marked. -/
theorem Collected.marked
    (hgh : Collected g h)
    {n n' : Node}
    (hNew : h.slot id = .live n')
    (hOld : g.slot id = .live n)
    (hn : n.Marked) :
    n'.Marked := by
  rcases hgh.nodes id n' hNew with ⟨m, hSlot, hFacts, _⟩
  rw [hOld] at hSlot
  cases hSlot
  exact hFacts.marked hn

theorem CallMarked.collected
    (hMarked : g.CallMarked cs)
    (hgh : Collected g h) :
    h.CallMarked cs := by
  refine AtCall.collected hMarked hgh ?_
  rintro c d hResolve hd ⟨m, k, n, hLeads, hLive, hn⟩
  rcases leads_of_resolve hResolve with ⟨_, hLeads', _⟩
  rcases hLeads.unique hLeads' with ⟨rfl, _⟩
  rcases hgh.wellFormed.leads hd.occupied with ⟨m', k', hEnd⟩
  rcases hgh.eq_of_leads hEnd with ⟨rfl, _⟩
  rcases hEnd.live_end with ⟨n', hNew⟩
  exact ⟨_, k', n', hEnd, hNew, hgh.marked hNew hLive hn⟩

/- Collection opens no new ways. -/
theorem Reaches.of_collected
    (hgh : Collected g h)
    {c d : Cell}
    (hResolve : g.resolve c = .ok d)
    (hReaches : h.Reaches d.node m) :
    g.Reaches c.node m := by
  induction hReaches with
  | here hLeads =>
    rcases hgh.eq_of_leads hLeads with ⟨rfl, _⟩
    rcases leads_of_resolve hResolve with ⟨k, hLeads, _⟩
    exact .here hLeads
  | link _ hLink ih =>
    rcases hLink with ⟨n', f, _, hNew, hGet, hLeads⟩
    rcases hgh.eq_of_leads hLeads with ⟨rfl, _⟩
    rcases hgh.nodes _ n' hNew with ⟨n, hOld, _, hLinks⟩
    rcases hLinks f _ hGet with ⟨u, hGet', hTarget⟩
    rcases leads_of_resolve hTarget with ⟨k, hLeads', _⟩
    exact .link ih ⟨n, f, k, hOld, hGet', hLeads'⟩

theorem CallSealed.collected
    (hSealed : g.CallSealed cs)
    (hgh : Collected g h) :
    h.CallSealed cs := by
  refine AtCall.collected hSealed hgh ?_
  intro c d hResolve _ hSeals m n' hReaches hNew
  have hBefore := hReaches.of_collected hgh hResolve
  rcases hBefore.live_end with ⟨n, hOld⟩
  exact hgh.marked hNew hOld (hSeals m n hBefore hOld)

-- Steps Without New Links

/-
  A step that leaves all chains and links of a graph as they are. It may add
  nodes.
-/
structure Calm
    (g h : Graph) : Prop where
  leads : ∀ id m k, g.Leads id m k → h.Leads id m k
  live : ∀ id n n', g.slot id = .live n →
    h.slot id = .live n' →
    n'.links = n.links ∧ (n.Marked → n'.Marked)

variable {n n' : Node}

theorem Calm.refl
    (g : Graph) :
    Calm g g where
  leads := fun _ _ _ hLeads => hLeads
  live := by
    intro id n n' hOld hNew
    rw [hOld] at hNew
    cases hNew
    exact ⟨rfl, fun hn => hn⟩

/- A live node stays live. -/
theorem Calm.exists_live
    (hgh : Calm g h)
    (hOld : g.slot id = .live n) :
    ∃ n', h.slot id = .live n' :=
  (hgh.leads id id 0 (.live hOld)).live_end

theorem Calm.trans
    (hgh : Calm g h)
    (hhi : Calm h i) :
    Calm g i where
  leads := fun id m k hLeads =>
    hhi.leads id m k (hgh.leads id m k hLeads)
  live := by
    intro id n n'' hOld hNew
    rcases hgh.exists_live hOld with ⟨n', hMid⟩
    rcases hgh.live id n n' hOld hMid with ⟨hLinks, hMark⟩
    rcases hhi.live id n' n'' hMid hNew with ⟨hLinks', hMark'⟩
    exact ⟨hLinks'.trans hLinks, fun hn => hMark' (hMark hn)⟩

theorem Calm.shortened
    (hs : Shortened g h) :
    Calm g h where
  leads := fun _ _ _ hLeads => hs.leads hLeads
  live := by
    intro id n n' hOld hNew
    rw [hs.live_iff, hOld] at hNew
    cases hNew
    exact ⟨rfl, fun hn => hn⟩

/- Something else is noted at a live node. -/
theorem Calm.setLive
    (hSlot : g.slot id = .live n)
    (hLinks : n'.links = n.links)
    (hMark : n.Marked → n'.Marked) :
    Calm g (g.setSlot id (.live n')) where
  leads := fun _ _ _ hLeads => hLeads.setLive hSlot n'
  live := by
    intro x m m' hOld hNew
    rw [slot_setSlot (lt_size_of_live hSlot)] at hNew
    split at hNew
    · next hx =>
      subst hx
      rw [hSlot] at hOld
      cases hOld
      cases hNew
      exact ⟨hLinks, hMark⟩
    · rw [hOld] at hNew
      cases hNew
      exact ⟨rfl, fun hm => hm⟩

/- The roots of a graph may be others. -/
theorem Calm.of_sameSlots
    (hSlots : h.slots = g.slots) :
    Calm g h := by
  have hSlot : ∀ id, h.slot id = g.slot id := by
    intro id
    unfold slot
    rw [hSlots]
  refine ⟨fun id m k hLeads => ?_, ?_⟩
  · exact hLeads.congr (fun x t hx => by rw [hSlot, hx]) fun x n hx => ⟨n, by rw [hSlot, hx]⟩
  · intro id n n' hOld hNew
    rw [hSlot, hOld] at hNew
    cases hNew
    exact ⟨rfl, fun hn => hn⟩

theorem Calm.createBlank
    (hg : g.WellFormed) :
    Calm g g.createBlank.2 where
  leads := fun _ _ _ hLeads =>
    hg.leads_createNode Flags.empty 0 hLeads
  live := by
    intro id n n' hOld hNew
    rcases hg.slot_createNode Flags.empty 0 with ⟨hFresh, hSlot⟩
    rw [Graph.createBlank, hSlot, if_neg, hOld] at hNew
    · cases hNew
      exact ⟨rfl, fun hn => hn⟩
    · rintro rfl
      rw [hOld] at hFresh
      cases hFresh

/- No new ways are opened from what was there. -/
theorem Reaches.of_calm
    (hg : g.WellFormed)
    (hgh : Calm g h)
    (hNode : g.hasNode id = true)
    (hReaches : h.Reaches id m) :
    g.Reaches id m := by
  have hBack : ∀ x y k, g.hasNode x = true → h.Leads x y k → g.Leads x y k := by
    intro x y k hx hLeads
    rcases hg.leads hx with ⟨y', k', hOld⟩
    rcases hLeads.unique (hgh.leads x y' k' hOld) with ⟨rfl, rfl⟩
    exact hOld
  induction hReaches with
  | here hLeads => exact .here (hBack _ _ _ hNode hLeads)
  | link _ hLink ih =>
    rcases hLink with ⟨n', f, k, hNew, hGet, hLeads⟩
    rcases ih.live_end with ⟨n, hOld⟩
    rw [(hgh.live _ n n' hOld hNew).1] at hGet
    have hTarget := hg.link_has _ n f _ hOld hGet
    exact .link ih ⟨n, f, k, hOld, hGet, hBack _ _ k hTarget.occupied hLeads⟩

/- A sealed call stays sealed. -/
theorem CallSealed.calm
    (hg : g.WellFormed)
    (hSealed : g.CallSealed cs)
    (hgh : Calm g h)
    (hLater : Outlives g h) :
    h.CallSealed cs := by
  intro v hv
  rcases hSealed v hv with ⟨c, hRoot, hSeals⟩
  refine ⟨c, ?_, ?_⟩
  · rw [hLater.callRoot_eq]
    exact hLater.roots _ c hRoot
  · intro m n' hReaches hNew
    have hBefore := hReaches.of_calm hg hgh (hg.root_has _ c hRoot).occupied
    rcases hBefore.live_end with ⟨n, hOld⟩
    exact (hgh.live m n n' hOld hNew).2 (hSeals m n hBefore hOld)

end Graph

end HeapShape
