import HeapShape.Program.Basic
import HeapShape.Proofs.Graph.Congruence

/-
  Looking up cells, roots and actuals.

  Look-ups in a well-formed graph fail by overflow only, and what they give
  lies in the graph.

  Main declarations:
    * `Graph.WellFormed.yields_resolve`
    * `Graph.mem_globalNames`
    * `Graph.weightLeft`
    * `FunctionDef.mem_pointerPairs`
-/

-- Looking Up Cells

namespace HeapShape

open Checked

namespace Graph

variable {g : Graph} {c : Cell} {id : NodeId} {n : Node} {type? : Option TypeTag}

/- The address of a cell, told from what it resolves to. -/
theorem effective_of_resolve
    {d : Cell}
    (hResolve : g.resolve c = .ok d)
    (hLive : g.slot d.node = .live n) :
    g.effective c = .ok { node := d.node, offset := n.effectiveOffset d.offset } := by
  unfold effective
  rw [hResolve]
  change (do
    let n ← g.contents d.node
    return _) = _
  rw [contents_of_live hLive]
  rfl

/- A cell of a graph is resolved, unless it overflows. -/
theorem WellFormed.yields_resolve
    (hg : g.WellFormed)
    (hc : g.Has c) :
    Yields (g.resolve c) fun d => g.Has d ∧ ∃ n, g.slot d.node = .live n := by
  rcases hg.leads hc.occupied with ⟨m, k, hLeads⟩
  rcases hLeads.live_end with ⟨n, hLive⟩
  have hResolve : g.resolve c = ({ node := m, offset := c.offset } : Cell).shifted k :=
    resolve_of_leads hLeads hc.word
  rw [hResolve, shifted_eq]
  split
  · next hWord =>
    exact Yields.ok ⟨⟨hasNode_of_live hLive, hWord⟩, n, hLive⟩
  · exact Or.inl rfl

/- So is a cell that may be absent. -/
theorem WellFormed.yields_mapM_resolve
    (hg : g.WellFormed)
    {c? : Option Cell}
    (hc : ∀ c, c? = some c → g.Has c) :
    Yields (c?.mapM g.resolve) fun d? => ∀ d, d? = some d → g.Has d := by
  cases c? with
  | none => exact Yields.ok fun d hd => by cases hd
  | some c =>
    rw [Option.mapM_some]
    rcases hg.yields_resolve (hc c rfl) with hOver | ⟨d, hOk, hHas, _⟩
    · rw [hOver]
      exact Or.inl rfl
    · rw [hOk]
      refine Or.inr ⟨some d, rfl, ?_⟩
      intro e he
      cases he
      exact hHas

theorem WellFormed.yields_link?
    (hg : g.WellFormed)
    (hc : g.Has c) :
    Yields (g.link? c type?) fun d? => ∀ d, d? = some d → g.Has d := by
  unfold link?
  refine (hg.yields_resolve hc).bind ?_
  rintro d ⟨_, n, hLive⟩
  rw [contents_of_live hLive]
  apply hg.yields_mapM_resolve
  intro t hLink
  exact hg.link_has _ _ _ t hLive hLink

theorem WellFormed.yields_rootCell?
    (hg : g.WellFormed)
    (r : Root) :
    Yields (g.rootCell? r) fun d? => ∀ d, d? = some d → g.Has d :=
  hg.yields_mapM_resolve (hg.root_has r)

theorem WellFormed.yields_cell?
    (hg : g.WellFormed)
    (v : ValueId) :
    Yields (g.cell? v) fun d? => ∀ d, d? = some d → g.Has d := by
  unfold cell?
  refine (hg.yields_rootCell? (.scalar v)).bind ?_
  intro c? hHas
  cases c? with
  | none => exact hg.yields_rootCell? (.formal v)
  | some c => exact Yields.ok hHas

/- A link leads to a cell of the graph. -/
theorem WellFormed.has_of_link?
    (hg : g.WellFormed)
    {t : Cell}
    (hLink : g.link? c type? = .ok (some t)) :
    g.Has t := by
  unfold link? at hLink
  rcases of_bind hLink with ⟨d, hResolve, hLink⟩
  rcases leads_of_resolve hResolve with ⟨_, hLeads, _⟩
  rcases hLeads.live_end with ⟨n, hLive⟩
  rw [contents_of_live hLive] at hLink
  change (n.links.get? _).mapM g.resolve = _ at hLink
  rcases hg.yields_mapM_resolve (fun t hGet => hg.link_has _ _ _ t hLive hGet) with
    hOver | ⟨d?, hOk, hHas⟩
  · rw [hOver] at hLink
    cases hLink
  · rw [hOk] at hLink
    cases hLink
    exact hHas t rfl

/- A global has a name if it has a cell. -/
theorem mem_globalNames
    {v : GlobalId} :
    v ∈ g.globalNames ↔ ∃ c, g.roots.get? (.global v) = some c := by
  unfold globalNames
  rw [List.mem_filterMap]
  constructor
  · rintro ⟨⟨r, c⟩, hMem, hName⟩
    cases r with
    | global w =>
      cases hName
      exact ⟨c, (OrdMap.get?_eq_some_iff _ _ _).mpr hMem⟩
    | scalar _ => cases hName
    | formal _ => cases hName
    | result _ => cases hName
  · rintro ⟨c, hRoot⟩
    exact ⟨(.global v, c), (OrdMap.get?_eq_some_iff _ _ _).mp hRoot, rfl⟩

variable {r : Root}

/- A root whose cell was looked up is bound. -/
theorem root_of_rootCell?
    {d : Cell}
    (hCell : g.rootCell? r = .ok (some d)) :
    ∃ c, g.roots.get? r = some c ∧ g.resolve c = .ok d :=
  option_mapM_eq_some_iff.mp hCell

/- What a root leads to is live. -/
theorem live_of_rootCell?
    {d : Cell}
    (hCell : g.rootCell? r = .ok (some d)) :
    ∃ n, g.slot d.node = .live n := by
  rcases root_of_rootCell? hCell with ⟨c, _, hResolve⟩
  rcases leads_of_resolve hResolve with ⟨_, hLeads, _⟩
  exact hLeads.live_end

/- The cell of a value is the live cell of its root. -/
theorem root_of_cell?
    {v : ValueId}
    {d : Cell}
    (hCell : g.cell? v = .ok (some d)) :
    ∃ r c, (r = .formal v ∨ r = .scalar v) ∧ g.roots.get? r = some c ∧
      g.resolve c = .ok d := by
  unfold cell? at hCell
  rcases of_bind hCell with ⟨scalar?, hScalar, hCell⟩
  cases scalar? with
  | some e =>
    cases hCell
    rcases root_of_rootCell? hScalar with ⟨c, hRoot, hResolve⟩
    exact ⟨_, c, Or.inr rfl, hRoot, hResolve⟩
  | none =>
    rcases root_of_rootCell? hCell with ⟨c, hRoot, hResolve⟩
    exact ⟨_, c, Or.inl rfl, hRoot, hResolve⟩

/- The live nodes have different numbers. -/
theorem pairwise_liveNodes
    (g : Graph) :
    g.liveNodes.Pairwise fun p q => p.1 ≠ q.1 := by
  unfold liveNodes
  refine List.Pairwise.filterMap _ ?_ List.nodup_range
  intro i j hNe p hp q hq
  rcases Option.map_eq_some_iff.mp hp with ⟨_, _, rfl⟩
  rcases Option.map_eq_some_iff.mp hq with ⟨_, _, rfl⟩
  exact hNe

/-
  The weight of the nodes of a list that are not done yet. A visit that does
  each node once has no more than that to go.
-/
def weightLeft
    (w : Node → Nat)
    (d : NodeId → Bool) :
    List (NodeId × Node) → Nat
| [] => 0
| (id, n) :: rest =>
    (if d id then 0 else w n) +
      weightLeft w d rest

variable {w : Node → Nat} {d e : NodeId → Bool} {nodes : List (NodeId × Node)}

theorem weightLeft_le
    (nodes : List (NodeId × Node))
    (sum : Nat) :
    sum + weightLeft w d nodes ≤ (nodes.map fun p => w p.2).foldl (· + ·) sum := by
  induction nodes generalizing sum with
  | nil => exact Nat.le_refl sum
  | cons p rest ih =>
    have hRest := ih (sum + w p.2)
    rw [List.map_cons, List.foldl_cons]
    unfold weightLeft
    split <;> omega

theorem weightLeft_congr
    (hSame : ∀ p ∈ nodes, e p.1 = d p.1) :
    weightLeft w e nodes = weightLeft w d nodes := by
  induction nodes with
  | nil => rfl
  | cons p rest ih =>
    unfold weightLeft
    rw [hSame p List.mem_cons_self, ih fun q hq => hSame q (List.mem_cons_of_mem _ hq)]

/- Doing a node takes its weight from what is left. -/
theorem weightLeft_mark
    (hDistinct : nodes.Pairwise fun p q => p.1 ≠ q.1)
    (hMem : (id, n) ∈ nodes)
    (hNew : d id = false)
    (hDone : ∀ x, e x = if x = id then true else d x) :
    weightLeft w e nodes + w n = weightLeft w d nodes := by
  induction nodes with
  | nil => exact absurd hMem List.not_mem_nil
  | cons p rest ih =>
    rcases List.pairwise_cons.mp hDistinct with ⟨hHead, hRest⟩
    unfold weightLeft
    rcases List.mem_cons.mp hMem with rfl | hMem
    · have hSame : ∀ q ∈ rest, e q.1 = d q.1 := by
        intro q hq
        rw [hDone, if_neg (hHead q hq).symm]
      rw [weightLeft_congr hSame, hDone, if_pos rfl, hNew]
      simp only [if_true, Bool.false_eq_true, if_false]
      omega
    · rw [hDone p.1, if_neg (hHead _ hMem), ← ih hRest hMem]
      omega

end Graph

/- The pointer formals and what is passed, by position. -/
theorem FunctionDef.mem_pointerPairs
    {α : Type}
    {f : FunctionDef}
    {actuals : List (Option α)}
    {pair : ValueId × α} :
    pair ∈ f.pointerPairs actuals ↔
      ∃ formal, (formal, some pair.2) ∈ f.formals.zip actuals ∧
        formal.isPointer = true ∧ formal.value = pair.1 := by
  unfold pointerPairs
  rw [List.mem_filterMap]
  constructor
  · rintro ⟨⟨formal, actual⟩, hMem, hPair⟩
    cases actual with
    | none => cases hPair
    | some a =>
      dsimp only at hPair
      split at hPair
      · next hPointer =>
        cases hPair
        exact ⟨formal, hMem, hPointer, rfl⟩
      · cases hPair
  · rintro ⟨formal, hMem, hPointer, hValue⟩
    refine ⟨(formal, some pair.2), hMem, ?_⟩
    dsimp only
    rw [if_pos hPointer, hValue]

end HeapShape
