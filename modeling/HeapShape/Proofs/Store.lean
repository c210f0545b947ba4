import HeapShape.Proofs.Checked
import HeapShape.Store

/-
  Changing the graphs of a store.

  Replacing the graph of a function replaces it for all functions that share
  it, and for no others. Who owns which graph does not change, except that a
  new graph belongs to the functions it is added for.

  Main declarations:
    * `Store.SameOwners`
    * `Store.pair?_eq_some_iff`
    * `Store.graph?_insert`
    * `Store.mapGraphs_eq_ok`
-/

-- Owners

namespace HeapShape

open Checked

namespace Store

variable {s t r : Store} {a b f e : FunctionId} {g h : Graph}

/- The functions own the graphs of the same numbers. -/
structure SameOwners
    (s t : Store) : Prop where
  owner : t.owner = s.owner
  size : t.graphs.size = s.graphs.size

theorem SameOwners.refl
    (s : Store) : SameOwners s s where
  owner := rfl
  size := rfl

theorem SameOwners.trans
    (hst : SameOwners s t)
    (htr : SameOwners t r) :
    SameOwners s r where
  owner := htr.owner.trans hst.owner
  size := htr.size.trans hst.size

theorem SameOwners.slot?_eq
    (hst : SameOwners s t)
    (f : FunctionId) :
    t.slot? f = s.slot? f := by
  unfold slot?
  rw [hst.owner]

theorem SameOwners.sameGraph_eq
    (hst : SameOwners s t)
    (a b : FunctionId) :
    t.sameGraph a b = s.sameGraph a b := by
  unfold sameGraph
  rw [hst.slot?_eq, hst.slot?_eq]

theorem mem_graphs
    (hGraph : s.graph? f = some g) :
    g ∈ s.graphs := by
  rcases Option.bind_eq_some_iff.mp hGraph with ⟨i, _, hAt⟩
  exact Array.mem_of_getElem? hAt

theorem isSome_graph?_iff :
    (s.graph? f).isSome = true ↔ ∃ i, s.slot? f = some i ∧ i < s.graphs.size := by
  unfold graph?
  cases s.slot? f with
  | none => simp
  | some i => simp

theorem SameOwners.isSome_graph?
    (hst : SameOwners s t)
    (f : FunctionId) :
    (t.graph? f).isSome = (s.graph? f).isSome := by
  rw [Bool.eq_iff_iff, isSome_graph?_iff, isSome_graph?_iff, hst.slot?_eq, hst.size]

theorem sameGraph_iff :
    s.sameGraph a b = true ↔ ∃ i, s.slot? a = some i ∧ s.slot? b = some i := by
  unfold sameGraph
  cases s.slot? a with
  | none => simp
  | some i =>
    cases s.slot? b with
    | none => simp
    | some j =>
      simp only [beq_iff_eq, Option.some.injEq, exists_eq_left']
      exact eq_comm

/- Functions that share a graph have the same. -/
theorem graph?_of_sameGraph
    (hSame : s.sameGraph a b = true) :
    s.graph? b = s.graph? a := by
  rcases sameGraph_iff.mp hSame with ⟨i, ha, hb⟩
  unfold graph?
  rw [ha, hb]

theorem sameGraph_comm
    (s : Store)
    (a b : FunctionId) :
    s.sameGraph a b = s.sameGraph b a := by
  rw [Bool.eq_iff_iff, sameGraph_iff, sameGraph_iff]
  simp only [and_comm]

-- Pairs Of Graphs

theorem pair?_eq_some_iff :
    s.pair? a b = some (g, h) ↔ s.sameGraph a b = false ∧
        s.graph? a = some g ∧ s.graph? b = some h := by
  unfold pair?
  cases s.sameGraph a b with
  | true => simp
  | false =>
    cases s.graph? a with
    | none => simp
    | some g' =>
      cases s.graph? b with
      | none => simp
      | some h' => simp

/- A pair can be asked for in both orders. -/
theorem pair?_swap
    (hPair : s.pair? a b = some (g, h)) :
    s.pair? b a = some (h, g) := by
  rw [pair?_eq_some_iff] at hPair ⊢
  rw [sameGraph_comm]
  exact ⟨hPair.1, hPair.2.2, hPair.2.1⟩

theorem isSome_pair?_iff :
    (s.pair? a b).isSome = true ↔ s.sameGraph a b = false ∧
        (s.graph? a).isSome = true ∧ (s.graph? b).isSome = true := by
  simp only [Option.isSome_iff_exists, Prod.exists, pair?_eq_some_iff]
  constructor
  · rintro ⟨g, h, hApart, ha, hb⟩
    exact ⟨hApart, ⟨g, ha⟩, ⟨h, hb⟩⟩
  · rintro ⟨hApart, ⟨g, ha⟩, ⟨h, hb⟩⟩
    exact ⟨g, h, hApart, ha, hb⟩

/- Whether there is a pair is a matter of owners. -/
theorem SameOwners.isSome_pair?
    (hst : SameOwners s t)
    (a b : FunctionId) :
    (t.pair? a b).isSome = (s.pair? a b).isSome := by
  rw [Bool.eq_iff_iff, isSome_pair?_iff, isSome_pair?_iff,
    hst.sameGraph_eq, hst.isSome_graph?, hst.isSome_graph?]

theorem sameOwners_setGraph
    (s : Store)
    (f : FunctionId)
    (g : Graph) :
    SameOwners s (s.setGraph f g) := by
  unfold setGraph
  split
  · exact ⟨rfl, by simp⟩
  · exact .refl s

/- Only functions that share the graph see it replaced. -/
theorem graph?_setGraph
    (hGraph : s.graph? f = some g)
    (h : Graph)
    (e : FunctionId) :
    (s.setGraph f h).graph? e = if s.sameGraph f e then some h else s.graph? e := by
  rcases isSome_graph?_iff.mp (Option.isSome_of_eq_some hGraph) with ⟨i, hSlot, hLt⟩
  have hSet : s.setGraph f h = { s with graphs := s.graphs.setIfInBounds i h } := by
    unfold setGraph
    rw [hSlot]
  rw [hSet]
  unfold graph? sameGraph
  change (s.slot? e).bind _ = _
  rw [hSlot]
  cases s.slot? e with
  | none => rfl
  | some j =>
    by_cases hEq : i = j
    · subst hEq
      simp [hLt]
    · simp [hEq, Array.getElem?_setIfInBounds_ne hEq]

/- One of two graphs is replaced, the other stays. -/
theorem pair?_setGraph
    (hPair : s.pair? a b = some (g, h))
    (h' : Graph) :
    (s.setGraph b h').pair? a b = some (g, h') := by
  rcases pair?_eq_some_iff.mp hPair with ⟨hOther, ha, hb⟩
  have hSelf : s.sameGraph b b = true := by
    rcases isSome_graph?_iff.mp (Option.isSome_of_eq_some hb) with ⟨i, hSlot, _⟩
    exact sameGraph_iff.mpr ⟨i, hSlot, hSlot⟩
  rw [pair?_eq_some_iff, graph?_setGraph hb, graph?_setGraph hb, sameGraph_comm s b a, hOther,
    if_pos hSelf, (sameOwners_setGraph s b h').sameGraph_eq]
  exact ⟨hOther, ha, rfl⟩

-- Adding And Changing All

variable {fs : List FunctionId}

/- A new graph gets the next number. -/
theorem slot?_insert
    (s : Store)
    (fs : List FunctionId)
    (g : Graph)
    (e : FunctionId) :
    (s.insert fs g).2.slot? e = if e ∈ fs then some s.graphs.size else s.slot? e := by
  have hOwner : ∀ (m : OrdMap FunctionId Nat) (i : Nat),
      (fs.foldl (fun m f => m.insert f i) m).get? e =
        if e ∈ fs then some i else m.get? e := by
    intro m i
    induction fs generalizing m with
    | nil => rfl
    | cons f rest ih =>
      rw [List.foldl_cons, ih, OrdMap.get?_insert]
      by_cases hRest : e ∈ rest
      · rw [if_pos hRest, if_pos (List.mem_cons_of_mem f hRest)]
      · by_cases hEq : e = f
        · simp [hEq]
        · simp [hRest, hEq]
  exact hOwner s.owner s.graphs.size

/- It is the graph of the functions it is added for. -/
theorem graph?_insert
    (hBound : ∀ i, s.slot? e = some i → i < s.graphs.size)
    (fs : List FunctionId)
    (g : Graph) :
    (s.insert fs g).2.graph? e =
      if e ∈ fs then some (fs.foldl Graph.addFunction g)
      else s.graph? e := by
  unfold graph?
  rw [slot?_insert]
  by_cases hMem : e ∈ fs
  · rw [if_pos hMem, if_pos hMem]
    exact Array.getElem?_push_size
  · rw [if_neg hMem, if_neg hMem]
    cases hSlot : s.slot? e with
    | none => rfl
    | some i =>
      have hLt := hBound i hSlot
      exact Array.getElem?_push_lt hLt |>.trans (Array.getElem?_eq_getElem hLt).symm

/- Each graph is changed, and its owners keep it. -/
theorem mapGraphs_eq_ok
    {α : Type}
    {change : Graph → Checked (α × Graph)}
    {out : List α}
    (hRun : s.mapGraphs change = .ok (out, t)) :
    SameOwners s t ∧ ∀ e g, s.graph? e = some g → ∃ a h, change g = .ok (a, h) ∧
        t.graph? e = some h := by
  unfold mapGraphs at hRun
  rcases of_bind hRun with ⟨results, hAll, hRun⟩
  cases hRun
  rcases mapM_eq_ok hAll with ⟨hLength, hEach⟩
  refine ⟨⟨rfl, by simp [hLength]⟩, ?_⟩
  intro e g hGraph
  rcases Option.bind_eq_some_iff.mp hGraph with ⟨i, hSlot, hAt⟩
  rcases hEach i g (by simpa using hAt) with ⟨⟨a, h⟩, hResult, hChange⟩
  refine ⟨a, h, hChange, Option.bind_eq_some_iff.mpr ⟨i, hSlot, ?_⟩⟩
  simp [hResult]

end Store

end HeapShape
