import HeapShape.Proofs.CallGraph.Components
import Mathlib.Data.Finset.Card
import Mathlib.Data.Finset.Range
import Mathlib.Data.List.Nodup
import Mathlib.Data.List.Perm.Basic

/-
  Components, inner ones first.

  A walk leaves a vertex after all that it newly enters from there. So
  whatever a vertex leads to is left no later than some vertex that is
  connected with it, and the class that is listed at its last vertex comes
  after all classes that it leads to. Together the classes list every vertex
  once.

  Main declarations:
    * `Digraph.Left`
    * `Digraph.perm_flatten_components`
    * `Digraph.mem_component_iff`
    * `Digraph.exists_earlier_component`
-/

-- Paths Off Some Vertices

namespace HeapShape

namespace Digraph

/- Edges lead to vertices. -/
def InRange
    (d : Digraph) : Prop :=
  ∀ e ∈ d.edges, e.2 < d.size

/- A path that enters none of some vertices. -/
def PathOff
    (d : Digraph)
    (V : Nat → Prop) : Nat → Nat → Prop :=
  Relation.ReflTransGen fun u v =>
    v ∈ d.successors u ∧ ¬ V v

variable {d : Digraph} {U V W : Nat → Prop} {u v x y : Nat}

theorem mem_successors_iff :
    v ∈ d.successors u ↔ (u, v) ∈ d.edges := by
  unfold successors
  rw [List.mem_reverse, List.mem_map]
  constructor
  · rintro ⟨⟨a, b⟩, hMem, rfl⟩
    rcases List.mem_filter.mp hMem with ⟨hEdge, hEq⟩
    cases beq_iff_eq.mp hEq
    exact hEdge
  · intro hEdge
    exact ⟨(u, v), List.mem_filter.mpr ⟨hEdge, beq_self_eq_true u⟩, rfl⟩

theorem InRange.lt_size
    (hd : d.InRange)
    (hEdge : v ∈ d.successors u) :
    v < d.size :=
  hd (u, v) (mem_successors_iff.mp hEdge)

/- What avoids more avoids less. -/
theorem PathOff.mono
    (hPath : d.PathOff W x y)
    (hLess : ∀ z, V z → W z) :
    d.PathOff V x y := by
  refine Relation.ReflTransGen.mono ?_ x y hPath
  intro a b hEdge
  exact ⟨hEdge.1, fun hb => hEdge.2 (hLess b hb)⟩

theorem pathOff_none_iff :
    d.PathOff (fun _ => False) x y ↔ d.Path x y := by
  unfold PathOff Path
  simp only [not_false_eq_true, and_true]

/- A path avoids some more vertices, or it meets one. -/
theorem PathOff.split
    (hPath : d.PathOff V x y)
    (U : Nat → Prop) :
    d.PathOff (fun z => V z ∨ U z) x y ∨ ∃ z, U z ∧ d.PathOff V x z ∧
      d.PathOff V z y := by
  unfold PathOff at hPath
  induction hPath with
  | refl => exact Or.inl .refl
  | @tail b c hBefore hEdge ih =>
    rcases ih with hOff | ⟨z, hz, hTo, hFrom⟩
    · by_cases hc : U c
      · exact Or.inr ⟨c, hc, hBefore.tail hEdge, .refl⟩
      · refine Or.inl (hOff.tail ⟨hEdge.1, ?_⟩)
        rintro (hOld | hNew)
        · exact hEdge.2 hOld
        · exact hc hNew
    · exact Or.inr ⟨z, hz, hTo, hFrom.tail hEdge⟩

-- Vertices That Were Left

/-
  The vertices that a walk has left since it had entered those of `V`, the
  latest first. What a vertex leads to is left no later than a vertex that
  is connected with it.
-/
structure Left
    (d : Digraph)
    (V : Nat → Prop)
    (vs : List Nat) : Prop where
  nodup : vs.Nodup
  fresh : ∀ x ∈ vs, ¬ V x
  closed : ∀ x ∈ vs, ∀ y ∈ d.successors x, V y ∨ y ∈ vs
  ordered : ∀ x ∈ vs, ∀ y, d.PathOff V x y →
    ∃ later x' earlier, vs = later ++ x' :: earlier ∧
      y ∈ x' :: earlier ∧
      d.PathOff V x x' ∧ d.PathOff V x' x

variable {vs ws : List Nat}

theorem Left.nil
    (d : Digraph)
    (V : Nat → Prop) :
    d.Left V [] :=
  ⟨List.nodup_nil, nofun, nofun, nofun⟩

/- Paths stay inside what is closed. -/
theorem mem_of_closed
    (hClosed : ∀ x ∈ vs, ∀ y ∈ d.successors x, V y ∨ y ∈ vs)
    (hx : x ∈ vs)
    (hPath : d.PathOff V x y) :
    y ∈ vs := by
  unfold PathOff at hPath
  induction hPath with
  | refl => exact hx
  | tail _ hEdge ih => exact (hClosed _ ih _ hEdge.1).resolve_left hEdge.2

/- Two stretches of a walk. -/
theorem Left.append
    (hvs : d.Left V vs)
    (hws : d.Left (fun x => V x ∨ x ∈ vs) ws) :
    d.Left V (ws ++ vs) where
  nodup := by
    refine List.nodup_append.mpr ⟨hws.nodup, hvs.nodup, ?_⟩
    rintro a ha b hb rfl
    exact hws.fresh a ha (Or.inr hb)
  fresh := by
    intro x hx hOld
    rcases List.mem_append.mp hx with hNew | hFirst
    · exact hws.fresh x hNew (Or.inl hOld)
    · exact hvs.fresh x hFirst hOld
  closed := by
    intro x hx y hy
    rw [List.mem_append]
    rcases List.mem_append.mp hx with hNew | hFirst
    · rcases hws.closed x hNew y hy with (hV | hOld) | hIn
      · exact Or.inl hV
      · exact Or.inr (Or.inr hOld)
      · exact Or.inr (Or.inl hIn)
    · exact (hvs.closed x hFirst y hy).imp_right Or.inr
  ordered := by
    intro x hx y hPath
    rcases List.mem_append.mp hx with hNew | hFirst
    · rcases hPath.split (· ∈ vs) with hOff | ⟨z, hz, _, hFrom⟩
      · rcases hws.ordered x hNew y hOff with ⟨later, x', earlier, rfl, hy, hTo, hBack⟩
        refine ⟨later, x', earlier ++ vs, List.append_assoc _ _ _,
          List.mem_append_left vs hy, ?_, ?_⟩
        · exact hTo.mono fun _ => Or.inl
        · exact hBack.mono fun _ => Or.inl
      · -- The path goes back to what was left before.
        have hy := mem_of_closed hvs.closed hz hFrom
        rcases List.append_of_mem hNew with ⟨later, earlier, rfl⟩
        refine ⟨later, x, earlier ++ vs, List.append_assoc _ _ _, ?_, .refl, .refl⟩
        exact List.mem_cons_of_mem x (List.mem_append_right earlier hy)
    · rcases hvs.ordered x hFirst y hPath with ⟨later, x', earlier, rfl, hy, hTo, hBack⟩
      exact ⟨ws ++ later, x', earlier, (List.append_assoc _ _ _).symm, hy, hTo, hBack⟩

/- A vertex is left after all that was entered from it. -/
theorem Left.cons
    (hvs : d.Left (fun x => V x ∨ x = v) vs)
    (hv : ¬ V v)
    (hNext : ∀ y ∈ d.successors v, (V y ∨ y = v) ∨ y ∈ vs)
    (hReach : ∀ x ∈ vs, d.PathOff V v x) :
    d.Left V (v :: vs) := by
  have hClosed : ∀ x ∈ v :: vs, ∀ y ∈ d.successors x, V y ∨ y ∈ v :: vs := by
    intro x hx y hy
    have hCases : (V y ∨ y = v) ∨ y ∈ vs := by
      rcases List.mem_cons.mp hx with rfl | hx
      · exact hNext y hy
      · exact hvs.closed x hx y hy
    rw [List.mem_cons]
    tauto
  have hStart : ∀ y, d.PathOff V v y → y ∈ v :: vs :=
    fun y => mem_of_closed hClosed List.mem_cons_self
  refine ⟨?_, ?_, hClosed, ?_⟩
  · exact List.nodup_cons.mpr ⟨fun hMem => hvs.fresh v hMem (Or.inr rfl), hvs.nodup⟩
  · intro x hx
    rcases List.mem_cons.mp hx with rfl | hx
    · exact hv
    · exact fun hOld => hvs.fresh x hx (Or.inl hOld)
  · intro x hx y hPath
    rcases List.mem_cons.mp hx with rfl | hIn
    · exact ⟨[], x, vs, rfl, hStart y hPath, .refl, .refl⟩
    · rcases hPath.split (· = v) with hOff | ⟨z, rfl, hTo, hFrom⟩
      · rcases hvs.ordered x hIn y hOff with ⟨later, x', earlier, rfl, hy, hTo, hBack⟩
        refine ⟨v :: later, x', earlier, rfl, hy, ?_, ?_⟩
        · exact hTo.mono fun _ => Or.inl
        · exact hBack.mono fun _ => Or.inl
      · exact ⟨[], z, vs, rfl, hStart y hFrom, hTo, hReach x hIn⟩

/- The vertices that were not entered. -/
def unentered
    (d : Digraph)
    (seen : OrdSet Nat) : Nat :=
  ((Finset.range d.size).filter
    fun v => seen.contains v = false).card

/- A walk that goes on, and what it leaves. -/
structure Walk.Leaves
    (d : Digraph)
    (w w' : Walk)
    (vs : List Nat) : Prop where
  finished : w'.finished = vs ++ w.finished
  visited : ∀ x, x ∈ w'.visited ↔ x ∈ w.visited ∨ x ∈ vs
  left : d.Left (· ∈ w.visited) vs

variable {w w₁ w₂ : Walk}

theorem Walk.Leaves.refl
    (d : Digraph)
    (w : Walk) :
    w.Leaves d w [] where
  finished := rfl
  visited := by simp
  left := .nil d _

theorem Walk.Leaves.trans
    (h₁ : w.Leaves d w₁ vs)
    (h₂ : w₁.Leaves d w₂ ws) :
    w.Leaves d w₂ (ws ++ vs) where
  finished := by
    rw [h₂.finished, h₁.finished, List.append_assoc]
  visited := by
    intro x
    rw [h₂.visited, h₁.visited, List.mem_append]
    tauto
  left := by
    have hSeen : (· ∈ w₁.visited) = fun x => x ∈ w.visited ∨ x ∈ vs :=
      funext fun x => propext (h₁.visited x)
    exact h₁.left.append (hSeen ▸ h₂.left)

/- Fewer vertices are left to enter. -/
theorem Walk.Leaves.unentered_le
    (h : w.Leaves d w₁ vs) :
    d.unentered w₁.visited ≤ d.unentered w.visited := by
  refine Finset.card_le_card ?_
  intro x hx
  rw [Finset.mem_filter] at hx ⊢
  refine ⟨hx.1, Bool.eq_false_iff.mpr fun hOld => ?_⟩
  rw [(h.visited x).mpr (Or.inl hOld)] at hx
  cases hx.2

theorem unentered_insert_lt
    {seen : OrdSet Nat}
    (hv : v < d.size)
    (hNew : seen.contains v = false) :
    d.unentered (seen.insert v) < d.unentered seen := by
  refine Finset.card_lt_card (Finset.ssubset_iff_subset_ne.mpr ⟨?_, ?_⟩)
  · intro x hx
    rw [Finset.mem_filter] at hx ⊢
    rw [OrdSet.contains_insert] at hx
    refine ⟨hx.1, ?_⟩
    split at hx
    · cases hx.2
    · exact hx.2
  · intro hEq
    have hMem : v ∈ (Finset.range d.size).filter fun v => seen.contains v = false :=
      Finset.mem_filter.mpr ⟨Finset.mem_range.mpr hv, hNew⟩
    rw [← hEq, Finset.mem_filter] at hMem
    rw [OrdSet.contains_insert] at hMem
    simp at hMem

/-
  The walk from some vertices, if the walk from one is as told.
-/
theorem Walk.Leaves.foldl
    {visit : Walk → Nat → Walk}
    {bound : Nat}
    (hVisit : ∀ (w : Walk) (v : Nat), v < d.size →
      d.unentered w.visited < bound →
      ∃ vs, w.Leaves d (visit w v) vs ∧ (v ∈ w.visited ∨ v ∈ vs) ∧
        ∀ x ∈ vs, d.PathOff (· ∈ w.visited) v x ∧ v ∉ w.visited)
    {starts : List Nat}
    (hStarts : ∀ v ∈ starts, v < d.size)
    (w : Walk)
    (hBound : d.unentered w.visited < bound) :
    ∃ vs, w.Leaves d (starts.foldl visit w) vs ∧ (∀ v ∈ starts, v ∈ w.visited ∨ v ∈ vs) ∧
      ∀ x ∈ vs, ∃ v ∈ starts, v ∉ w.visited ∧ d.PathOff (· ∈ w.visited) v x := by
  induction starts generalizing w with
  | nil => exact ⟨[], .refl d w, nofun, nofun⟩
  | cons v rest ih =>
    rw [List.forall_mem_cons] at hStarts
    rcases hVisit w v hStarts.1 hBound with ⟨vs, hFirst, hIn, hFrom⟩
    rcases ih hStarts.2 (visit w v) (hFirst.unentered_le.trans_lt hBound) with
      ⟨ws, hRest, hInRest, hFromRest⟩
    refine ⟨ws ++ vs, hFirst.trans hRest, ?_, ?_⟩
    · intro u hu
      rw [List.mem_append]
      rcases List.mem_cons.mp hu with rfl | hu
      · exact hIn.imp_right Or.inr
      · have hCases := hInRest u hu
        rw [hFirst.visited] at hCases
        tauto
    · intro x hx
      rcases List.mem_append.mp hx with hx | hx
      · rcases hFromRest x hx with ⟨u, hu, hNew, hPath⟩
        refine ⟨u, List.mem_cons_of_mem v hu, ?_, ?_⟩
        · exact fun hOld =>
            hNew ((hFirst.visited u).mpr (Or.inl hOld))
        · exact hPath.mono fun z hz =>
            (hFirst.visited z).mpr (Or.inl hz)
      · exact ⟨v, List.mem_cons_self, (hFrom x hx).2, (hFrom x hx).1⟩

/- The walk from one vertex. -/
theorem left_visitWithin
    (hd : d.InRange)
    (fuel : Nat)
    (w : Walk)
    (v : Nat)
    (hv : v < d.size)
    (hFuel : d.unentered w.visited < fuel) :
    ∃ vs, w.Leaves d (d.visitWithin fuel w v) vs ∧ (v ∈ w.visited ∨ v ∈ vs) ∧
      ∀ x ∈ vs, d.PathOff (· ∈ w.visited) v x ∧ v ∉ w.visited := by
  induction fuel generalizing w v with
  | zero => exact absurd hFuel (Nat.not_lt_zero _)
  | succ fuel ih =>
    unfold visitWithin
    split
    · next hOld =>
      exact ⟨[], .refl d w, Or.inl hOld, fun _ hx => absurd hx List.not_mem_nil⟩
    · next hNot =>
      have hNew : w.visited.contains v = false := Bool.eq_false_iff.mpr hNot
      have hLess : d.unentered (w.visited.insert v) <
          fuel := by
        have hDrop := unentered_insert_lt hv hNew
        omega
      rcases Walk.Leaves.foldl ih (fun u hu => hd.lt_size hu)
          { w with visited := w.visited.insert v }
          hLess with
        ⟨vs, hInner, hNext, hFrom⟩
      have hSeen : (· ∈ w.visited.insert v) = fun x => x ∈ w.visited ∨ x = v := by
        funext x
        rw [OrdSet.mem_insert_iff]
        exact propext or_comm
      have hLeft := hInner.left
      dsimp only at hInner hNext hFrom hLeft
      rw [hSeen] at hLeft
      have hReach : ∀ x ∈ vs, d.PathOff (· ∈ w.visited) v x := by
        intro x hx
        rcases hFrom x hx with ⟨u, hu, hFresh, hPath⟩
        have hOff : u ∉ w.visited := fun hOld => hFresh
          ((OrdSet.mem_insert_iff _ _ _).mpr (Or.inr hOld))
        refine Relation.ReflTransGen.head ⟨hu, hOff⟩ ?_
        exact hPath.mono fun z hz =>
          (OrdSet.mem_insert_iff _ _ _).mpr (Or.inr hz)
      refine ⟨v :: vs, ⟨?_, ?_, ?_⟩, Or.inr List.mem_cons_self, ?_⟩
      · exact congrArg (v :: ·) hInner.finished
      · intro x
        rw [hInner.visited, OrdSet.mem_insert_iff, List.mem_cons]
        tauto
      · refine hLeft.cons hNot ?_ hReach
        intro y hy
        have hCases := hNext y hy
        rw [OrdSet.mem_insert_iff] at hCases
        tauto
      · intro x hx
        refine ⟨?_, hNot⟩
        rcases List.mem_cons.mp hx with rfl | hx
        · exact .refl
        · exact hReach x hx

/- The order of leaving lists every vertex once. -/
theorem left_finishOrder
    (hd : d.InRange) :
    d.Left (fun _ => False) d.finishOrder.reverse ∧
      d.finishOrder.Perm (List.range d.size) := by
  have hStarts : ∀ v ∈ List.range d.size, v < d.size :=
    fun v hv => List.mem_range.mp hv
  have hBound : d.unentered ({} : Walk).visited < d.size + 1 := by
    have hLe := Finset.card_filter_le (Finset.range d.size)
      fun v => ({} : Walk).visited.contains v = false
    rw [Finset.card_range] at hLe
    exact Nat.lt_succ_of_le hLe
  rcases Walk.Leaves.foldl (left_visitWithin hd (d.size + 1)) hStarts {} hBound with
    ⟨vs, hWalk, hIn, hFrom⟩
  have hNone : (· ∈ ({} : Walk).visited) = fun _ => False := by
    funext x
    exact eq_false nofun
  have hLeft := hWalk.left
  rw [hNone] at hLeft
  have hOrder : d.finishOrder = vs.reverse := by
    unfold finishOrder
    dsimp only
    rw [hWalk.finished]
    exact congrArg List.reverse (List.append_nil vs)
  rw [hOrder, List.reverse_reverse]
  refine ⟨hLeft, ?_⟩
  refine (List.perm_ext_iff_of_nodup (List.nodup_reverse.mpr hLeft.nodup) List.nodup_range).mpr ?_
  intro x
  rw [List.mem_reverse, List.mem_range]
  constructor
  · intro hx
    rcases hFrom x hx with ⟨v, hv, _, hPath⟩
    rcases Relation.ReflTransGen.cases_tail hPath with rfl | ⟨y, _, hEdge, _⟩
    · exact hStarts _ hv
    · exact hd.lt_size hEdge
  · intro hx
    exact (hIn x (List.mem_range.mpr hx)).resolve_left nofun

-- Classes

variable {same : Nat → Nat → Bool} {before : List Nat} {c : List Nat}

/- A class is that of a listed vertex. -/
theorem exists_last_of_mem_classes
    (hRefl : ∀ v ∈ vs, same v v = true)
    (hMem : c ∈ classesInOrder same before vs) :
    ∃ v ∈ vs, ∀ x ∈ c, same v x = true := by
  induction vs generalizing before with
  | nil => cases hMem
  | cons v rest ih =>
    rw [List.forall_mem_cons] at hRefl
    unfold classesInOrder at hMem
    dsimp only at hMem
    have hLater : c ∈ classesInOrder same (before ++ [v])
        rest → ∃ w ∈ v :: rest, ∀ x ∈ c, same w x = true := by
      intro hIn
      rcases ih hRefl.2 hIn with ⟨w, hw, hAll⟩
      exact ⟨w, List.mem_cons_of_mem v hw, hAll⟩
    split at hMem
    · exact hLater hMem
    · rcases List.mem_cons.mp hMem with rfl | hMem
      · refine ⟨v, List.mem_cons_self, ?_⟩
        intro x hx
        rcases List.mem_append.mp hx with hx | hx
        · exact (List.mem_filter.mp hx).2
        · cases List.mem_singleton.mp hx
          exact hRefl.1
      · exact hLater hMem

variable {done rest : List (List Nat)}

/-
  A class is listed where its last vertex is, and the classes after it have
  their last vertices after that one.
-/
theorem exists_last_of_classes_eq
    (hRefl : ∀ v ∈ vs, same v v = true)
    (hEq : classesInOrder same before vs = done ++ c :: rest) :
    ∃ l v r, vs = l ++ v :: r ∧ c = (before ++ l).filter (same v) ++ [v] ∧
      (∀ w ∈ r, same v w = false) ∧
      ∀ c' ∈ rest, ∃ w ∈ r, ∀ x ∈ c', same w x = true := by
  induction vs generalizing before done with
  | nil => simp [classesInOrder] at hEq
  | cons v vs ih =>
    rw [List.forall_mem_cons] at hRefl
    unfold classesInOrder at hEq
    dsimp only at hEq
    have hLater : ∀ done, classesInOrder same (before ++ [v]) vs = done ++ c :: rest →
        ∃ l w r, v :: vs = l ++ w :: r ∧ c = (before ++ l).filter (same w) ++ [w] ∧
          (∀ x ∈ r, same w x = false) ∧
          ∀ c' ∈ rest, ∃ x ∈ r, ∀ y ∈ c', same x y = true := by
      intro done hEq
      rcases ih hRefl.2 hEq with ⟨l, w, r, rfl, hc, hLast, hAfter⟩
      rw [List.append_assoc] at hc
      exact ⟨v :: l, w, r, rfl, hc, hLast, hAfter⟩
    split at hEq
    · exact hLater done hEq
    · next hNone =>
      cases done with
      | nil =>
        rcases List.cons.inj hEq with ⟨rfl, rfl⟩
        refine ⟨[], v, vs, rfl, ?_, ?_, ?_⟩
        · rw [List.append_nil]
        · intro w hw
          rw [Bool.eq_false_iff]
          exact fun hSame => hNone (List.any_eq_true.mpr ⟨w, hw, hSame⟩)
        · intro c' hc'
          exact exists_last_of_mem_classes hRefl.2 hc'
      | cons first done => exact hLater done (List.cons.inj hEq).2

/- Two disjoint parts of a list. -/
theorem perm_filter_or
    {α : Type}
    {p q : α → Bool}
    {l : List α}
    (hApart : ∀ x ∈ l, p x = true → q x = false) :
    (l.filter p ++ l.filter q).Perm (l.filter fun x => p x || q x) := by
  induction l with
  | nil => exact .refl []
  | cons x rest ih =>
    rw [List.forall_mem_cons] at hApart
    cases hp : p x with
    | true =>
      simp only [List.filter_cons, hp, hApart.1 hp, Bool.true_or, if_true, Bool.false_eq_true,
        if_false, List.cons_append]
      exact (ih hApart.2).cons x
    | false =>
      cases hq : q x with
      | true =>
        simp only [List.filter_cons, hp, hq, Bool.false_or, if_true, Bool.false_eq_true, if_false]
        exact List.perm_middle.trans ((ih hApart.2).cons x)
      | false =>
        simp only [List.filter_cons, hp, hq, Bool.false_or, Bool.false_eq_true, if_false]
        exact ih hApart.2

/- Every vertex is listed once, in one class. -/
theorem perm_flatten_classes
    (hSymm : ∀ u v, same u v = true → same v u = true)
    (hTrans : ∀ u v w, same u v = true → same v w = true → same u w = true)
    (before vs : List Nat) :
    (classesInOrder same before vs).flatten.Perm
      (before.filter (fun b => vs.any (same b)) ++ vs) := by
  induction vs generalizing before with
  | nil => simp [classesInOrder]
  | cons v vs ih =>
    unfold classesInOrder
    dsimp only
    have hRest := ih (before ++ [v])
    rw [List.filter_append] at hRest
    split
    · next hLater =>
      -- The vertex waits for a later one of its class.
      have hOne : [v].filter (fun b => vs.any (same b)) = [v] := by
        rw [List.filter_singleton, hLater]
        rfl
      have hSame : before.filter (fun b => (v :: vs).any (same b)) =
          before.filter (fun b => vs.any (same b)) := by
        refine List.filter_congr ?_
        intro b _
        rw [List.any_cons, Bool.or_eq_right_iff_imp]
        intro hbv
        rcases List.any_eq_true.mp hLater with ⟨w, hw, hvw⟩
        exact List.any_eq_true.mpr ⟨w, hw, hTrans b v w hbv hvw⟩
      rw [hOne, List.append_assoc] at hRest
      rw [hSame]
      exact hRest
    · next hNone =>
      have hOne : [v].filter (fun b => vs.any (same b)) = [] := by
        rw [List.filter_singleton, Bool.eq_false_iff.mpr hNone]
        rfl
      have hParts : (before.filter (same v) ++
          before.filter (fun b => vs.any (same b))).Perm (before.filter
              fun b => (v :: vs).any (same b)) := by
        -- A later vertex of the class would be after `v`.
        refine (perm_filter_or ?_).trans (.of_eq ?_)
        · intro b _ hvb
          rw [List.any_eq_false]
          intro w hw hbw
          exact hNone (List.any_eq_true.mpr ⟨w, hw, hTrans v b w hvb hbw⟩)
        · refine List.filter_congr ?_
          intro b _
          have hSwap : same v b = same b v := Bool.eq_iff_iff.mpr ⟨hSymm v b, hSymm b v⟩
          rw [List.any_cons, hSwap]
      rw [hOne, List.append_nil] at hRest
      rw [List.flatten_cons, List.append_assoc]
      refine ((hRest.cons v).append_left _).trans ?_
      refine List.Perm.trans ?_ (hParts.append_right _)
      rw [List.append_assoc]
      exact List.perm_middle.symm.append_left _

/- Two vertices are connected by paths in both directions. -/
theorem connected_iff
    {u v : Nat} :
    connected (fun v =>
        ((List.range d.size).map d.reachable).toArray.getD v OrdSet.empty) u v = true ↔
      (u < d.size ∧ v < d.size) ∧ d.Path u v ∧ d.Path v u := by
  unfold connected
  rw [Bool.and_eq_true]
  constructor
  · rintro ⟨huv, hvu⟩
    rcases mem_table_iff.mp huv with ⟨hu, huv⟩
    rcases mem_table_iff.mp hvu with ⟨hv, hvu⟩
    exact ⟨⟨hu, hv⟩, huv, hvu⟩
  · rintro ⟨⟨hu, hv⟩, huv, hvu⟩
    exact ⟨mem_table_iff.mpr ⟨hu, huv⟩, mem_table_iff.mpr ⟨hv, hvu⟩⟩

/- The components list every vertex once. -/
theorem perm_flatten_components
    (hd : d.InRange) :
    d.components.flatten.Perm (List.range d.size) := by
  unfold components
  refine (perm_flatten_classes ?_ ?_ [] _).trans (left_finishOrder hd).2
  · intro u v huv
    rw [connected_iff] at huv ⊢
    exact ⟨huv.1.symm, huv.2.symm⟩
  · intro u v w huv hvw
    rw [connected_iff] at huv hvw ⊢
    exact ⟨⟨huv.1.1, hvw.1.2⟩, huv.2.1.trans hvw.2.1, hvw.2.2.trans huv.2.2⟩

/-
  Where a component is listed: at its last vertex in the order of leaving.
-/
theorem exists_last_of_components_eq
    (hd : d.InRange)
    (hEq : d.components = done ++ c :: rest) :
    ∃ l v r, d.finishOrder = l ++ v :: r ∧
      (∀ x, x ∈ c ↔ x < d.size ∧ d.Path v x ∧ d.Path x v) ∧
      (∀ x ∈ r, ¬ (d.Path v x ∧ d.Path x v)) ∧
      ∀ c' ∈ rest, ∃ w ∈ r, ∀ x ∈ c', d.Path w x ∧ d.Path x w := by
  have hPerm := (left_finishOrder hd).2
  have hRange : ∀ x, x ∈ d.finishOrder ↔ x < d.size := by
    intro x
    rw [hPerm.mem_iff, List.mem_range]
  unfold components at hEq
  have hRefl : ∀ v ∈ d.finishOrder, connected (fun v =>
      ((List.range d.size).map d.reachable).toArray.getD v OrdSet.empty) v v = true := by
    intro v hv
    have hLt := (hRange v).mp hv
    exact connected_iff.mpr ⟨⟨hLt, hLt⟩, .refl, .refl⟩
  rcases exists_last_of_classes_eq hRefl hEq with ⟨l, v, r, hOrder, rfl, hLast, hAfter⟩
  have hMem : ∀ x, x ∈ l ++ v :: r ↔ x < d.size := by
    intro x
    rw [← hOrder]
    exact hRange x
  have hv : v < d.size := (hMem v).mp (List.mem_append_right l List.mem_cons_self)
  have hLast' : ∀ x ∈ r, ¬ (d.Path v x ∧ d.Path x v) := by
    intro x hx hBoth
    have hLt := (hMem x).mp (List.mem_append_right l (List.mem_cons_of_mem v hx))
    exact Bool.eq_false_iff.mp (hLast x hx) (connected_iff.mpr ⟨⟨hv, hLt⟩, hBoth⟩)
  refine ⟨l, v, r, hOrder, ?_, hLast', ?_⟩
  · intro x
    rw [List.nil_append, List.mem_append, List.mem_filter, connected_iff, List.mem_singleton]
    constructor
    · rintro (⟨_, ⟨_, hx⟩, hBoth⟩ | rfl)
      · exact ⟨hx, hBoth⟩
      · exact ⟨hv, .refl, .refl⟩
    · rintro ⟨hx, hBoth⟩
      rcases List.mem_append.mp ((hMem x).mpr hx) with hl | hr
      · exact Or.inl ⟨hl, ⟨hv, hx⟩, hBoth⟩
      · rcases List.mem_cons.mp hr with rfl | hr
        · exact Or.inr rfl
        · exact absurd hBoth (hLast' x hr)
  · intro c' hc'
    rcases hAfter c' hc' with ⟨w, hw, hAll⟩
    exact ⟨w, hw, fun x hx =>
      (connected_iff.mp (hAll x hx)).2⟩

/- A component is a class of connected vertices. -/
theorem mem_component_iff
    (hd : d.InRange)
    (hc : c ∈ d.components)
    (hu : u ∈ c) :
    v ∈ c ↔ v < d.size ∧ d.Path u v ∧ d.Path v u := by
  rcases List.append_of_mem hc with ⟨done, rest, hEq⟩
  rcases exists_last_of_components_eq hd hEq with ⟨_, w, _, _, hMem, _, _⟩
  rcases (hMem u).mp hu with ⟨_, hwu, huw⟩
  rw [hMem]
  constructor
  · rintro ⟨hv, hwv, hvw⟩
    exact ⟨hv, huw.trans hwv, hvw.trans hwu⟩
  · rintro ⟨hv, huv, hvu⟩
    exact ⟨hv, hwu.trans huv, hvu.trans huw⟩

/- What a component leads to is not listed after it. -/
theorem exists_earlier_component
    (hd : d.InRange)
    (hEq : d.components = done ++ c :: rest)
    (hu : u ∈ c)
    (hPath : d.Path u v) :
    ∃ c' ∈ done ++ [c], v ∈ c' := by
  rcases exists_last_of_components_eq hd hEq with ⟨l, x, r, hOrder, hMem, hLast, hAfter⟩
  rcases (hMem u).mp hu with ⟨huLt, hxu, hux⟩
  have hv : v < d.size := by
    rcases Relation.ReflTransGen.cases_tail hPath with rfl | ⟨_, _, hEdge⟩
    · exact huLt
    · exact hd.lt_size hEdge
  rcases exists_component hv with ⟨c', hc', hvc'⟩
  rw [hEq, List.append_cons, List.mem_append] at hc'
  rcases hc' with hc' | hc'
  · exact ⟨c', hc', hvc'⟩
  · -- Some vertex of `c` would be left after its last one.
    rcases hAfter c' hc' with ⟨w, hw, hAll⟩
    have hLeft := (left_finishOrder hd).1
    rcases hLeft.ordered u (List.mem_reverse.mpr ((left_finishOrder hd).2.mem_iff.mpr
          (List.mem_range.mpr huLt))) w
        (pathOff_none_iff.mpr (hPath.trans (hAll v hvc').2)) with
      ⟨later, u', earlier, hSplit, hwu', hTo, hBack⟩
    rw [pathOff_none_iff] at hTo hBack
    have hu' : u' ∉ r := fun hMem => hLast u' hMem ⟨hxu.trans hTo, hBack.trans hux⟩
    have hNodup := hLeft.nodup
    rw [List.nodup_reverse, hOrder] at hNodup
    rw [List.reverse_eq_iff, hOrder, List.reverse_append,
      List.reverse_cons, List.append_cons] at hSplit
    rw [List.append_cons] at hNodup
    have hDisjoint : w ∉ l ++ [x] := fun hMem =>
      (List.nodup_append.mp hNodup).2.2 w hMem w hw rfl
    rcases List.append_eq_append_iff.mp hSplit with ⟨more, hWhole, hRest⟩ | ⟨more, hWhole, hRest⟩
    · cases more using List.reverseRecOn with
      | nil =>
        refine absurd ?_ hDisjoint
        rw [List.append_nil] at hWhole
        rw [← hWhole]
        simpa [or_comm] using hwu'
      | append_singleton more last _ =>
        rw [← List.append_assoc] at hWhole
        rcases List.append_inj_right' hWhole rfl with h
        cases h
        refine absurd ?_ hu'
        rw [hRest]
        simp
    · refine absurd ?_ hDisjoint
      rw [hWhole]
      refine List.mem_append_left more ?_
      simpa [or_comm] using hwu'

end Digraph

end HeapShape
