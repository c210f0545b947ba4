import HeapShape.CallGraph
import HeapShape.Proofs.Ordered
import Mathlib.Logic.Relation
import Mathlib.Tactic.Tauto

/-
  Every function has a component.

  The walk through a directed graph leaves every vertex once it has entered
  it. Two vertices are connected if there are paths between them in both
  directions, so connected is an equivalence, and the class of a vertex is
  listed where its last member is left.

  Main declarations:
    * `Digraph.Path`
    * `Digraph.mem_finishOrder`
    * `Digraph.exists_component`
    * `CallGraph.exists_component`
-/

-- Paths

namespace HeapShape

namespace Digraph

/- There is a path from one vertex to another. -/
def Path
    (d : Digraph) : Nat → Nat → Prop :=
  Relation.ReflTransGen fun u v => v ∈ d.successors u

/- The edges of vertices that were not seen. -/
def unseen
    (d : Digraph)
    (seen : OrdSet Nat) : List (Nat × Nat) :=
  d.edges.filter fun e => !seen.contains e.1

/- Nothing is seen whose successors are forgotten. -/
def Covers
    (d : Digraph)
    (seen : OrdSet Nat)
    (stack : List Nat) : Prop :=
  ∀ u ∈ seen, ∀ v ∈ d.successors u, v ∈ seen ∨ v ∈ stack

variable {d : Digraph} {seen : OrdSet Nat} {stack : List Nat} {fuel u v w : Nat}

/- What is found is at the end of a path. -/
theorem path_of_mem_reachWithin
    (hSeen : ∀ x ∈ seen, d.Path u x)
    (hStack : ∀ x ∈ stack, d.Path u x)
    (hMem : v ∈ d.reachWithin fuel stack seen) :
    d.Path u v := by
  fun_induction reachWithin d fuel stack seen with
  | case1 => exact hSeen v hMem
  | case2 => exact hSeen v hMem
  | case3 fuel x rest seen _ ih =>
    exact ih hSeen (fun y hy => hStack y (List.mem_cons_of_mem x hy)) hMem
  | case4 fuel x rest seen _ ih =>
    have hx := hStack x List.mem_cons_self
    refine ih ?_ ?_ hMem
    · intro y hy
      rcases (OrdSet.mem_insert_iff _ _ _).mp hy with rfl | hy
      · exact hx
      · exact hSeen y hy
    · intro y hy
      rcases List.mem_append.mp hy with hy | hy
      · exact Relation.ReflTransGen.tail hx hy
      · exact hStack y (List.mem_cons_of_mem x hy)

/- A vertex that is seen brings its edges to the stack. -/
theorem length_unseen_insert
    (hNew : seen.contains u = false) :
    (d.successors u).length + (d.unseen (seen.insert u)).length =
      (d.unseen seen).length := by
  unfold successors unseen
  rw [List.length_reverse, List.length_map]
  generalize d.edges = edges
  induction edges with
  | nil => rfl
  | cons e rest ih =>
    by_cases hEdge : e.1 = u
    · simp only [List.filter_cons, OrdSet.contains_insert, hEdge, hNew, beq_self_eq_true, if_true,
        Bool.not_true, Bool.not_false, Bool.false_eq_true,
        if_false, List.length_cons] at ih ⊢
      omega
    · simp only [List.filter_cons, OrdSet.contains_insert,
        hEdge, beq_eq_false_iff_ne.mpr hEdge, if_false,
        Bool.false_eq_true] at ih ⊢
      split
      · simp only [List.length_cons]
        omega
      · exact ih

/- With enough fuel all that follows is found. -/
theorem reachWithin_closed
    (hFuel : stack.length + (d.unseen seen).length ≤ fuel)
    (hCovers : d.Covers seen stack) :
    (∀ x, x ∈ seen ∨ x ∈ stack → x ∈ d.reachWithin fuel stack seen) ∧
    d.Covers (d.reachWithin fuel stack seen) [] := by
  fun_induction reachWithin d fuel stack seen with
  | case1 stack seen =>
    have hNil : stack = [] := List.length_eq_zero_iff.mp (by omega)
    subst hNil
    exact ⟨fun x hx => hx.resolve_right List.not_mem_nil, hCovers⟩
  | case2 => exact ⟨fun x hx => hx.resolve_right List.not_mem_nil, hCovers⟩
  | case3 fuel x rest seen hx ih =>
    have hCovers' : d.Covers seen rest := by
      intro a ha b hb
      rcases hCovers a ha b hb with hSeen | hStack
      · exact Or.inl hSeen
      · rcases List.mem_cons.mp hStack with rfl | hRest
        · exact Or.inl hx
        · exact Or.inr hRest
    rw [List.length_cons] at hFuel
    rcases ih (by omega) hCovers' with ⟨hAll, hClosed⟩
    refine ⟨fun y hy => hAll y ?_, hClosed⟩
    rcases hy with hSeen | hStack
    · exact Or.inl hSeen
    · rcases List.mem_cons.mp hStack with rfl | hRest
      · exact Or.inl hx
      · exact Or.inr hRest
  | case4 fuel x rest seen hx ih =>
    have hNew := length_unseen_insert (d := d) (Bool.not_eq_true _ ▸ hx)
    have hCovers' : d.Covers (seen.insert x) (d.successors x ++ rest) := by
      intro a ha b hb
      rw [OrdSet.mem_insert_iff, List.mem_append]
      rcases (OrdSet.mem_insert_iff _ _ _).mp ha with rfl | ha
      · exact Or.inr (Or.inl hb)
      · have hOld := hCovers a ha b hb
        rw [List.mem_cons] at hOld
        tauto
    rw [List.length_cons] at hFuel
    rcases ih (by rw [List.length_append]; omega) hCovers' with ⟨hAll, hClosed⟩
    refine ⟨fun y hy => hAll y ?_, hClosed⟩
    rw [OrdSet.mem_insert_iff, List.mem_append]
    rw [List.mem_cons] at hy
    tauto

/- The reachable vertices are the ends of paths. -/
theorem mem_reachable_iff :
    v ∈ d.reachable u ↔ d.Path u v := by
  unfold reachable
  constructor
  · refine path_of_mem_reachWithin nofun ?_
    intro x hx
    cases List.mem_singleton.mp hx
    exact Relation.ReflTransGen.refl
  · intro hPath
    have hFuel : [u].length + (d.unseen OrdSet.empty).length ≤ d.edges.length + 1 := by
      have hLe := List.length_filter_le (fun e : Nat × Nat => !OrdSet.empty.contains e.1) d.edges
      unfold unseen
      rw [List.length_singleton]
      omega
    rcases reachWithin_closed hFuel nofun with ⟨hAll, hClosed⟩
    induction hPath with
    | refl => exact hAll u (Or.inr (List.mem_singleton_self u))
    | tail _ hEdge ih => exact (hClosed _ ih _ hEdge).resolve_right List.not_mem_nil

-- The Order Of Leaving

/- A walk goes on, and it leaves the vertices it enters. -/
structure Walk.Continues
    (w w' : Walk) : Prop where
  visited : ∀ x ∈ w.visited, x ∈ w'.visited
  finished : ∀ x ∈ w.finished, x ∈ w'.finished
  left : ∀ x ∈ w'.visited, x ∈ w.visited ∨ x ∈ w'.finished

variable {a b c : Walk}

theorem Walk.Continues.refl
    (a : Walk) :
    a.Continues a :=
  ⟨fun _ hx => hx, fun _ hx => hx, fun _ hx => Or.inl hx⟩

theorem Walk.Continues.trans
    (hab : a.Continues b)
    (hbc : b.Continues c) :
    a.Continues c where
  visited := fun x hx => hbc.visited x (hab.visited x hx)
  finished := fun x hx => hbc.finished x (hab.finished x hx)
  left := by
    intro x hx
    rcases hbc.left x hx with hOld | hLeft
    · exact (hab.left x hOld).imp_right (hbc.finished x)
    · exact Or.inr hLeft

theorem Walk.Continues.foldl
    {visit : Walk → Nat → Walk}
    (hVisit : ∀ (a : Walk) v, a.Continues (visit a v))
    (a : Walk)
    (vs : List Nat) :
    a.Continues (vs.foldl visit a) := by
  induction vs generalizing a with
  | nil => exact .refl a
  | cons v rest ih => exact (hVisit a v).trans (ih (visit a v))

theorem continues_visitWithin
    (fuel : Nat)
    (a : Walk)
    (v : Nat) :
    a.Continues (d.visitWithin fuel a v) := by
  induction fuel generalizing a v with
  | zero => exact .refl a
  | succ fuel ih =>
    unfold visitWithin
    split
    · exact .refl a
    · have hInner := Walk.Continues.foldl ih { a with visited := a.visited.insert v }
        (d.successors v)
      refine ⟨?_, ?_, ?_⟩
      · intro x hx
        exact hInner.visited x ((OrdSet.mem_insert_iff _ _ _).mpr (Or.inr hx))
      · intro x hx
        exact List.mem_cons_of_mem v (hInner.finished x hx)
      · intro x hx
        rcases hInner.left x hx with hOld | hLeft
        · rcases (OrdSet.mem_insert_iff _ _ _).mp hOld with rfl | hOld
          · exact Or.inr List.mem_cons_self
          · exact Or.inl hOld
        · exact Or.inr (List.mem_cons_of_mem v hLeft)

/- A vertex is entered by its own visit. -/
theorem mem_visited_visitWithin
    (fuel : Nat)
    (a : Walk)
    (v : Nat) :
    v ∈ (d.visitWithin (fuel + 1) a v).visited := by
  unfold visitWithin
  split
  · next hOld => exact hOld
  · exact (Walk.Continues.foldl (continues_visitWithin fuel) _ _).visited v
        ((OrdSet.mem_insert_iff _ _ _).mpr (Or.inl rfl))

variable {vs : List Nat}

theorem mem_visited_foldl
    (fuel : Nat)
    (hMem : v ∈ vs)
    (a : Walk) :
    v ∈ (vs.foldl (d.visitWithin (fuel + 1)) a).visited := by
  induction vs generalizing a with
  | nil => cases hMem
  | cons x rest ih =>
    rw [List.foldl_cons]
    rcases List.mem_cons.mp hMem with rfl | hRest
    · exact (Walk.Continues.foldl (continues_visitWithin (fuel + 1)) _ rest).visited v
          (mem_visited_visitWithin fuel a v)
    · exact ih hRest _

/- Every vertex is left. -/
theorem mem_finishOrder
    (hv : v < d.size) :
    v ∈ d.finishOrder := by
  unfold finishOrder
  rw [List.mem_reverse]
  have hEntered := mem_visited_foldl (d := d) d.size (List.mem_range.mpr hv) {}
  have hWalk := Walk.Continues.foldl (continues_visitWithin (d := d) (d.size + 1)) {}
    (List.range d.size)
  exact (hWalk.left v hEntered).resolve_left nofun

-- Components

/-
  Every listed vertex has a class, and so has every vertex before that has a
  relative in the list.
-/
theorem exists_class
    {same : Nat → Nat → Bool}
    (hSymm : ∀ u v, same u v = true → same v u = true)
    (hTrans : ∀ u v w, same u v = true → same v w = true → same u w = true)
    {before : List Nat}
    (hMem : v ∈ vs ∨ v ∈ before ∧ ∃ w ∈ vs, same v w = true) :
    ∃ c ∈ classesInOrder same before vs, v ∈ c := by
  induction vs generalizing before with
  | nil => simp at hMem
  | cons x rest ih =>
    unfold classesInOrder
    dsimp only
    -- It is found at once, or further on in the list.
    have hCases : v = x ∨ v ∈ before ∧ same v x = true ∨
        (v ∈ rest ∨ v ∈ before ++ [x] ∧ ∃ w ∈ rest, same v w = true) := by
      rcases hMem with hIn | ⟨hv, w, hw, hvw⟩
      · exact (List.mem_cons.mp hIn).imp_right fun hRest => Or.inr (Or.inl hRest)
      · rcases List.mem_cons.mp hw with rfl | hw
        · exact Or.inr (Or.inl ⟨hv, hvw⟩)
        · exact Or.inr (Or.inr (Or.inr ⟨List.mem_append_left _ hv, w, hw, hvw⟩))
    split
    · next hLater =>
      rcases List.any_eq_true.mp hLater with ⟨w, hw, hxw⟩
      apply ih
      rcases hCases with rfl | ⟨hv, hvx⟩ | hFurther
      · exact Or.inr ⟨List.mem_append_right _ (List.mem_singleton_self v), w, hw, hxw⟩
      · exact Or.inr ⟨List.mem_append_left _ hv, w, hw, hTrans v x w hvx hxw⟩
      · exact hFurther
    · rcases hCases with rfl | ⟨hv, hvx⟩ | hFurther
      · exact ⟨_, List.mem_cons_self, List.mem_append_right _ (List.mem_singleton_self v)⟩
      · refine ⟨_, List.mem_cons_self, List.mem_append_left _ ?_⟩
        exact List.mem_filter.mpr ⟨hv, hSymm v x hvx⟩
      · rcases ih hFurther with ⟨c, hc, hvc⟩
        exact ⟨c, List.mem_cons_of_mem _ hc, hvc⟩

/- Reachable vertices are looked up in a table. -/
theorem mem_table_iff
    {u v : Nat} :
    v ∈ ((List.range d.size).map d.reachable).toArray.getD u OrdSet.empty ↔
      u < d.size ∧ d.Path u v := by
  rw [Array.getD_eq_getD_getElem?, List.getElem?_toArray, List.getElem?_map]
  by_cases hu : u < d.size
  · rw [List.getElem?_range hu]
    exact mem_reachable_iff.trans (and_iff_right hu).symm
  · rw [List.getElem?_eq_none (by simpa using hu)]
    exact ⟨nofun, fun h => absurd h.1 hu⟩

/- Every vertex has a component. -/
theorem exists_component
    (hv : v < d.size) :
    ∃ c ∈ d.components, v ∈ c := by
  unfold components
  refine exists_class ?_ ?_ (Or.inl (mem_finishOrder hv))
  · intro u v huv
    unfold connected at huv ⊢
    rw [Bool.and_comm]
    exact huv
  · intro u v w huv hvw
    unfold connected at huv hvw ⊢
    rw [Bool.and_eq_true] at huv hvw ⊢
    rcases mem_table_iff.mp huv.1 with ⟨hu, huv'⟩
    rcases mem_table_iff.mp huv.2 with ⟨_, hvu⟩
    rcases mem_table_iff.mp hvw.1 with ⟨_, hvw'⟩
    rcases mem_table_iff.mp hvw.2 with ⟨hw, hwv⟩
    exact ⟨mem_table_iff.mpr ⟨hu, huv'.trans hvw'⟩, mem_table_iff.mpr ⟨hw, hwv.trans hvu⟩⟩

end Digraph

namespace CallGraph

variable {p : Program} {c : CallGraph}

/- Calls add edges, and no vertices. -/
theorem size_foldl_addEdge
    (c : CallGraph)
    (caller : FunctionId)
    (callees : List FunctionId)
    (site : CallSiteId) :
    (callees.foldl (fun c callee =>
        ({ c with
          usesOf := appendTo c.usesOf callee site }).addEdge caller callee) c).digraph.size =
      c.digraph.size := by
  induction callees generalizing c with
  | nil => rfl
  | cons callee rest ih =>
    rw [List.foldl_cons, ih]
    unfold addEdge
    split <;> rfl

theorem size_foldl_addCallSite
    (c : CallGraph)
    (sites : List CallSite) :
    (sites.foldl (addCallSite p) c).digraph.size = c.digraph.size := by
  induction sites generalizing c with
  | nil => rfl
  | cons cs rest ih =>
    rw [List.foldl_cons, ih]
    exact size_foldl_addEdge _ cs.caller (matchingCallees p cs) cs.id

/- Every function of a program is in a component. -/
theorem exists_component
    {f : FunctionDef}
    (hf : f ∈ p.functions) :
    ∃ fs ∈ (ofProgram p).components, f.id ∈ fs := by
  rcases List.mem_iff_getElem?.mp (List.mem_map_of_mem hf) with ⟨i, hi⟩
  have hLt : i < (p.functions.map FunctionDef.id).length := (List.getElem?_eq_some_iff.mp hi).1
  have hAll : ∀ d : Digraph, d.size = (p.functions.map FunctionDef.id).length →
      ∃ fs ∈ d.components.map fun vs => sortMembers p (vs.filterMap fun v =>
          (p.functions.map FunctionDef.id)[v]?),
        f.id ∈ fs := by
    intro d hSize
    rcases Digraph.exists_component (hSize ▸ hLt) with ⟨vs, hvs, hiv⟩
    refine ⟨_, List.mem_map_of_mem hvs, ?_⟩
    unfold sortMembers
    rw [List.mem_mergeSort]
    exact List.mem_filterMap.mpr ⟨i, hiv, hi⟩
  exact hAll _ (size_foldl_addCallSite _ p.sortedCallSites)

end CallGraph

end HeapShape
