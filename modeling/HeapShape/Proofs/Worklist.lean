import HeapShape.Worklist
import HeapShape.Proofs.Checked

/-
  Draining a work list.

  What one step keeps, a whole run keeps. If the steps never fail, a run
  ends with an empty work list or at its limit. If each step brings the end
  nearer, no limit is met. A run whose steps change nothing meets each item
  once.

  Main declarations:
    * `Worklist.mem_pushAll_iff`
    * `Worklist.Approaches`
    * `Worklist.drainWithin_of_approaches`
    * `Worklist.drainWithin_of_idle`
-/

-- Waiting Items

namespace HeapShape

open Checked

namespace Worklist

variable {α : Type} [Ord α] [Std.LawfulEqOrd α] {w rest : Worklist α} {a b : α}

/- The next item is the first one of the queue. -/
theorem queue_of_pop?
    (hPop : w.pop? = some (a, rest)) :
    w.queue = a :: rest.queue := by
  rcases w with ⟨_ | ⟨b, queue⟩, _, _, _⟩
  · cases hPop
  · cases hPop
    rfl

theorem pop?_eq_none_iff :
    w.pop? = none ↔ w.queue = [] := by
  rcases w with ⟨_ | ⟨b, queue⟩, _, _, _⟩
  · exact ⟨fun _ => rfl, fun _ => rfl⟩
  · exact ⟨nofun, nofun⟩

variable [Std.TransOrd α]

theorem mem_push_iff :
    b ∈ (w.push a).queue ↔ b ∈ w.queue ∨ b = a := by
  classical
  rw [← (w.push a).agree, ← w.agree, or_comm]
  exact OrdSet.mem_insert_iff _ _ _

/- Queued items wait behind those that waited before. -/
theorem mem_pushAll_iff
    {items : List α} :
    b ∈ (w.pushAll items).queue ↔ b ∈ w.queue ∨ b ∈ items := by
  unfold pushAll
  induction items generalizing w with
  | nil => simp
  | cons a rest ih => rw [List.foldl_cons, ih, mem_push_iff, List.mem_cons, or_assoc]

theorem length_le_pushAll
    (w : Worklist α)
    (items : List α) :
    w.queue.length ≤ (w.pushAll items).queue.length := by
  unfold pushAll
  induction items generalizing w with
  | nil => exact Nat.le_refl _
  | cons a rest ih =>
    refine Nat.le_trans ?_ (ih (w.push a))
    unfold push
    dsimp only
    split
    · exact Nat.le_refl _
    · simp

end Worklist

-- Runs

namespace Worklist

variable {α σ : Type} [Ord α] [Std.LawfulEqOrd α] {step : Step α σ} {limit left done : Nat}
variable {state : σ} {w rest : Worklist α} {a : α}

theorem drainWithin_of_none
    (hPop : w.pop? = none) :
    drainWithin limit step left done state w =
      .ok { outcome := .ok done, state := state, rest := w } := by
  unfold drainWithin
  rw [hPop]

theorem drainWithin_zero
    (hPop : w.pop? = some (a, rest)) :
    drainWithin limit step 0 done state w = exhausted limit done state rest := by
  unfold drainWithin
  rw [hPop]

/- A run that may go on hands out the next item. -/
theorem drainWithin_succ
    (hPop : w.pop? = some (a, rest)) :
    drainWithin limit step (left + 1) done state w = (do
      let r ← step a state rest
      match r.1 with
      | .ok () => drainWithin limit step left (done + 1) r.2.1 r.2.2
      | .error e => return { outcome := .error e, state := r.2.1, rest := r.2.2 }) := by
  rewrite [drainWithin, hPop]
  rfl

/- A property that steps keep while they do not fail. -/
def Keeps
    (step : Step α σ)
    (P : σ → List α → Prop) : Prop :=
  ∀ a rest state answer state' w',
    P state (a :: rest.queue) →
    step a state rest = .ok (answer, state', w') →
    answer = .ok () ∧ P state' w'.queue

variable {P : σ → List α → Prop} {run : Run α σ}

/-
  A run whose steps keep a property ends with it, either at the limit or
  with no waiting item.
-/
theorem drainWithin_spec
    (hKeeps : Keeps step P)
    (hStart : P state w.queue)
    (hRun : drainWithin limit step left done state w = .ok run) :
    (∃ n, run.outcome = .ok n ∧ P run.state []) ∨
      ∃ n, run.outcome = .error (.iterationLimit n limit) ∧
        ∃ queue, P run.state queue := by
  induction left generalizing done state w with
  | zero =>
    cases hPop : w.pop? with
    | none =>
      rw [drainWithin_of_none hPop] at hRun
      cases hRun
      exact Or.inl ⟨done, rfl, pop?_eq_none_iff.mp hPop ▸ hStart⟩
    | some next =>
      rw [drainWithin_zero hPop, exhausted] at hRun
      split at hRun
      · cases hRun
      · cases hRun
        exact Or.inr ⟨done, rfl, w.queue, hStart⟩
  | succ left ih =>
    cases hPop : w.pop? with
    | none =>
      rw [drainWithin_of_none hPop] at hRun
      cases hRun
      exact Or.inl ⟨done, rfl, pop?_eq_none_iff.mp hPop ▸ hStart⟩
    | some next =>
      rw [drainWithin_succ hPop] at hRun
      rcases of_bind hRun with ⟨⟨answer, state', w'⟩, hStep, hRest⟩
      rw [queue_of_pop? hPop] at hStart
      rcases hKeeps _ _ _ _ _ _ hStart hStep with ⟨rfl, hNext⟩
      exact ih hNext hRest

/- Steps that end well make a run that ends well. -/
theorem yields_drainWithin
    {Q : σ → Prop}
    (hStep : ∀ a state w, Q state → Yields (step a state w) fun r => Q r.2.1)
    (hStart : Q state) :
    Yields (drainWithin limit step left done state w) fun run => Q run.state := by
  induction left generalizing done state w with
  | zero =>
    cases hPop : w.pop? with
    | none => exact drainWithin_of_none hPop ▸ .ok hStart
    | some next =>
      rw [drainWithin_zero hPop, exhausted]
      split
      · exact Or.inl rfl
      · exact .ok hStart
  | succ left ih =>
    cases hPop : w.pop? with
    | none => exact drainWithin_of_none hPop ▸ .ok hStart
    | some next =>
      rw [drainWithin_succ hPop]
      refine (hStep _ state _ hStart).bind ?_
      rintro ⟨answer, next, w⟩ hNext
      cases answer with
      | ok _ => exact ih hNext
      | error e => exact .ok hNext

/-
  A run counts its items. If no step takes items out of the queue, those
  that wait at the start are counted.
-/
theorem le_of_drainWithin
    (hKeeps : ∀ a state w answer state' w',
      step a state w = .ok (answer, state', w') →
      w.queue.length ≤ w'.queue.length)
    {n : Nat}
    (hRun : drainWithin limit step left done state w = .ok run)
    (hOk : run.outcome = .ok n) :
    done + w.queue.length ≤ n ∧ n ≤ done + left := by
  induction left generalizing done state w with
  | zero =>
    cases hPop : w.pop? with
    | none =>
      rw [drainWithin_of_none hPop] at hRun
      cases hRun
      cases hOk
      rw [pop?_eq_none_iff.mp hPop]
      exact ⟨Nat.le_refl _, Nat.le_refl _⟩
    | some next =>
      rw [drainWithin_zero hPop, exhausted] at hRun
      split at hRun
      · cases hRun
      · cases hRun
        cases hOk
  | succ left ih =>
    cases hPop : w.pop? with
    | none =>
      rw [drainWithin_of_none hPop] at hRun
      cases hRun
      cases hOk
      rw [pop?_eq_none_iff.mp hPop]
      exact ⟨Nat.le_refl _, Nat.le_add_right _ _⟩
    | some next =>
      rw [drainWithin_succ hPop] at hRun
      rcases of_bind hRun with ⟨⟨answer, state', w'⟩, hStep, hRest⟩
      have hLength := hKeeps _ state _ answer state' w' hStep
      rw [queue_of_pop? hPop, List.length_cons]
      cases answer with
      | ok _ =>
        have hCount := ih hRest
        dsimp only at hCount
        omega
      | error e =>
        cases hRest
        cases hOk

/-
  Steps that end well and come nearer to the end of the run. How far that
  is, is no less than the number of items that wait. Only if `F` holds may a
  step overflow.
-/
structure Approaches
    (F : Prop)
    (step : Step α σ)
    (P : σ → List α → Prop)
    (far : σ → List α → Nat) : Prop where
  waiting : ∀ state queue, queue.length ≤ far state queue
  nearer : ∀ a rest state, P state (a :: rest.queue) →
    YieldsUnless F (step a state rest)
      fun r => r.1 = .ok () ∧ P r.2.1 r.2.2.queue ∧
        far r.2.1 r.2.2.queue < far state (a :: rest.queue)

variable {F : Prop} {far : σ → List α → Nat}

omit [Std.LawfulEqOrd α] in
theorem Approaches.keeps
    (hNear : Approaches F step P far) :
    Keeps step P := by
  intro a rest state answer state' w' hBefore hRun
  rcases (hNear.nearer a rest state hBefore).of_eq_ok hRun with ⟨hOk, hAfter, _⟩
  exact ⟨hOk, hAfter⟩

/- Such a run ends by itself, whatever its limit. -/
theorem drainWithin_of_approaches
    (hNear : Approaches F step P far)
    {limit' left' : Nat}
    (hStart : P state w.queue)
    (hLeft : far state w.queue ≤ left)
    (hLeft' : far state w.queue ≤ left') :
    drainWithin limit' step left' done state w =
      drainWithin limit step left done state w ∧
    YieldsUnless F (drainWithin limit step left done state w)
      fun run => ∃ n ≤ done + far state w.queue, run.outcome = .ok n := by
  induction left generalizing left' done state w with
  | zero =>
    have hFar := hNear.waiting state w.queue
    have hPop : w.pop? = none := pop?_eq_none_iff.mpr (List.eq_nil_of_length_eq_zero (by omega))
    rw [drainWithin_of_none hPop, drainWithin_of_none hPop]
    exact ⟨rfl, .ok ⟨done, Nat.le_add_right _ _, rfl⟩⟩
  | succ left ih =>
    cases hPop : w.pop? with
    | none =>
      rw [drainWithin_of_none hPop, drainWithin_of_none hPop]
      exact ⟨rfl, .ok ⟨done, Nat.le_add_right _ _, rfl⟩⟩
    | some next =>
      have hFar := hNear.waiting state w.queue
      rw [queue_of_pop? hPop] at hStart hLeft hLeft' hFar ⊢
      obtain ⟨left', rfl⟩ : ∃ k, left' = k + 1 :=
        Nat.exists_eq_add_one.mpr (by rw [List.length_cons] at hFar; omega)
      rw [drainWithin_succ hPop, drainWithin_succ hPop]
      rcases hNear.nearer _ _ state hStart with
        ⟨hF, hOver⟩ | ⟨⟨_, next', w'⟩, hRun, rfl, hNext, hLess⟩
      · rw [hOver]
        exact ⟨rfl, Or.inl ⟨hF, rfl⟩⟩
      · rw [hRun, ok_bind, ok_bind]
        dsimp only at hLess hNext ⊢
        have hRest := @ih (done + 1) next' w' left' hNext (by omega) (by omega)
        refine ⟨hRest.1, hRest.2.imp ?_⟩
        rintro run ⟨n, hn, hOk⟩
        exact ⟨n, by omega, hOk⟩

/- Where no step changes anything, each item is met once. -/
theorem drainWithin_of_idle
    (hIdle : ∀ a ∈ w.queue, ∀ rest, step a state rest = .ok (.ok (), state, rest))
    (hLeft : w.queue.length ≤ left) :
    ∃ rest, drainWithin limit step left done state w = .ok {
      outcome := .ok (done + w.queue.length), state := state, rest := rest } := by
  induction left generalizing done w with
  | zero =>
    have hNil := List.eq_nil_of_length_eq_zero (Nat.le_zero.mp hLeft)
    rw [drainWithin_of_none (pop?_eq_none_iff.mpr hNil), hNil]
    exact ⟨w, rfl⟩
  | succ left ih =>
    cases hPop : w.pop? with
    | none =>
      rw [drainWithin_of_none hPop, pop?_eq_none_iff.mp hPop]
      exact ⟨w, rfl⟩
    | some next =>
      rw [queue_of_pop? hPop] at hIdle hLeft ⊢
      have hSum : done + (next.2.queue.length + 1) = done + 1 + next.2.queue.length := by omega
      rw [drainWithin_succ hPop, hIdle _ List.mem_cons_self, ok_bind, List.length_cons, hSum]
      exact ih (fun b hb => hIdle b (List.mem_cons_of_mem _ hb)) (Nat.le_of_succ_le_succ hLeft)

end Worklist

end HeapShape
