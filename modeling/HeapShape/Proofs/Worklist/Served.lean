import HeapShape.Proofs.Worklist

/-
  No waiting item is forgotten.

  A run is a sequence of visits: the next item is handed to the step, and
  what the step asks for is queued. An item that is queued, before or during
  the run, is taken later on or still waits. So a run that ends with an
  empty queue has handed out every item after it was queued last.

  Main declarations:
    * `Worklist.Follows.taken`
    * `Worklist.drain_ends`
    * `Worklist.drain_eq_iterationLimit_iff`
    * `Worklist.drained_items_are_served`
-/

-- Events

namespace HeapShape

open Checked

namespace Worklist

/- An item is queued, or taken from the queue. -/
inductive Event
    (α : Type) where
  | push (a : α)
  | take (a : α)

variable {α σ : Type} [Ord α] [Std.LawfulEqOrd α] [Std.TransOrd α]

/- A work list becomes another one by some events. -/
inductive Follows :
    Worklist α → List (Event α) → Worklist α → Prop where
  | nil {w : Worklist α} :
      Follows w [] w
  | push {w w' : Worklist α} {a : α} {events : List (Event α)} :
      Follows (w.push a) events w' →
      Follows w (.push a :: events) w'
  | take {w rest w' : Worklist α} {a : α} {events : List (Event α)} :
      w.pop? = some (a, rest) →
      Follows rest events w' →
      Follows w (.take a :: events) w'

variable {w v w' rest : Worklist α} {a : α} {events more post : List (Event α)}

theorem Follows.append
    (hFirst : Follows w events v)
    (hRest : Follows v more w') :
    Follows w (events ++ more) w' := by
  induction hFirst with
  | nil => exact hRest
  | push _ ih => exact .push (ih hRest)
  | take hPop _ ih => exact .take hPop (ih hRest)

theorem follows_pushAll
    (w : Worklist α)
    (items : List α) :
    Follows w (items.map .push) (w.pushAll items) := by
  induction items generalizing w with
  | nil => exact .nil
  | cons a items ih => exact .push (ih (w.push a))

/- A waiting item is taken, or it still waits. -/
theorem Follows.taken_of_mem
    (hFollows : Follows w events w')
    (ha : a ∈ w.queue) :
    .take a ∈ events ∨ a ∈ w'.queue := by
  induction hFollows with
  | nil => exact .inr ha
  | push _ ih => exact (ih (mem_push_iff.mpr (.inl ha))).imp_left (List.mem_cons_of_mem _)
  | take hPop _ ih =>
    rw [queue_of_pop? hPop] at ha
    rcases List.mem_cons.mp ha with rfl | ha
    · exact .inl List.mem_cons_self
    · exact (ih ha).imp_left (List.mem_cons_of_mem _)

/- An item is taken after it was queued, or it still waits. -/
theorem Follows.taken
    (hFollows : Follows w events w')
    (hPost : (.push a :: post) <:+ events) :
    .take a ∈ post ∨ a ∈ w'.queue := by
  induction hFollows with
  | nil => cases List.suffix_nil.mp hPost
  | push hRest ih =>
    rcases List.suffix_cons_iff.mp hPost with hHere | hLater
    · cases hHere
      exact hRest.taken_of_mem (mem_push_iff.mpr (.inr rfl))
    · exact ih hLater
  | take _ _ ih =>
    rcases List.suffix_cons_iff.mp hPost with hHere | hLater
    · cases hHere
    · exact ih hLater

-- Visits

/-
  What a step makes of an item: its verdict, the next state and the items to
  queue. It may look at what is waiting.
-/
abbrev Body
    (α σ : Type)
    [Ord α] :=
  α → σ → Worklist α →
    Checked (Except AnalysisError Unit × σ × List α)

/- The step that queues the items it asks for. -/
def pushing
    (body : Body α σ) : Step α σ :=
  fun a s w => do
    let r ← body a s w
    return (r.1, r.2.1, w.pushAll r.2.2)

/- An item that was handed out, and what was queued then. -/
structure Visit
    (α : Type) where
  item : α
  pushed : List α

def Visit.trace
    (visit : Visit α) : List (Event α) :=
  .take visit.item :: visit.pushed.map .push

/- Steps that end well, from a state and a work list. -/
inductive Visits
    (body : Body α σ) :
    σ → Worklist α → List (Visit α) → σ → Worklist α → Prop where
  | nil {s : σ} {w : Worklist α} :
      Visits body s w [] s w
  | cons {s t s' : σ} {w rest w' : Worklist α} {a : α} {items : List α} {vs : List (Visit α)} :
      w.pop? = some (a, rest) →
      body a s rest = .ok (.ok (), t, items) →
      Visits body t (rest.pushAll items) vs s' w' →
      Visits body s w (⟨a, items⟩ :: vs) s' w'

variable {body : Body α σ} {s s' t : σ} {vs : List (Visit α)} {limit left done : Nat}

theorem Visits.follows
    (hVisits : Visits body s w vs s' w') :
    Follows w (vs.flatMap Visit.trace) w' := by
  induction hVisits with
  | nil => exact .nil
  | cons hPop _ _ ih => exact .take hPop ((follows_pushAll _ _).append ih)

/- A run goes through its visits, counting them. -/
theorem Visits.drainWithin_eq
    (hVisits : Visits body s w vs s' w') :
    drainWithin limit (pushing body) (vs.length + left) done s w =
      drainWithin limit (pushing body) left (done + vs.length) s' w' := by
  induction hVisits generalizing done with
  | nil => rw [List.length_nil, Nat.zero_add, Nat.add_zero]
  | cons hPop hBody _ ih =>
    rw [List.length_cons, Nat.add_right_comm, drainWithin_succ hPop, pushing, hBody]
    exact ih.trans (by rw [Nat.add_right_comm, Nat.add_assoc])

theorem Visits.drain_eq
    (hVisits : Visits body s w vs s' w')
    (hLeft : allowed limit = vs.length + left) :
    drain limit (pushing body) s w =
      drainWithin limit (pushing body) left vs.length s' w' := by
  rw [drain, hLeft, hVisits.drainWithin_eq, Nat.zero_add]

/-
  Visits can be made until nothing waits, enough of them are made, or the
  next step does not end well.
-/
theorem exists_visits
    (body : Body α σ)
    (left : Nat)
    (s : σ)
    (w : Worklist α) :
    ∃ vs s' w', Visits body s w vs s' w' ∧ vs.length ≤ left ∧
      (vs.length = left ∨ ∀ a rest, w'.pop? = some (a, rest) →
        ∀ t items, body a s' rest ≠ .ok (.ok (), t, items)) := by
  induction left generalizing s w with
  | zero => exact ⟨[], s, w, .nil, Nat.le_refl _, .inl rfl⟩
  | succ left ih =>
    by_cases hNext : ∃ a rest t items,
        w.pop? = some (a, rest) ∧ body a s rest = .ok (.ok (), t, items)
    · rcases hNext with ⟨a, rest, t, items, hPop, hBody⟩
      rcases ih t (rest.pushAll items) with ⟨vs, s', w', hVisits, hLe, hEnd⟩
      exact ⟨_, s', w', .cons hPop hBody hVisits, Nat.succ_le_succ hLe,
        hEnd.imp_left (congrArg Nat.succ)⟩
    · refine ⟨[], s, w, .nil, Nat.zero_le _, .inr ?_⟩
      intro a rest hPop t items hBody
      exact hNext ⟨a, rest, t, items, hPop, hBody⟩

-- Ends Of Runs

/-
  How a run ends after a number of visits, and how often its step was run by
  then.
-/
inductive Ends
    (limit : Nat)
    (body : Body α σ)
    (s : σ)
    (w : Worklist α)
    (count : Nat) :
    Nat → Checked (Run α σ) → Prop where
  | drained :
      w.pop? = none →
      Ends limit body s w count count
        (.ok { outcome := .ok count, state := s, rest := w })
  | stopped {a : α} {rest : Worklist α} :
      w.pop? = some (a, rest) →
      count = allowed limit →
      Ends limit body s w count count (exhausted limit count s rest)
  | failed {a : α} {rest : Worklist α} {e : AnalysisError} {t : σ} {items : List α} :
      w.pop? = some (a, rest) →
      count < allowed limit →
      body a s rest = .ok (.error e, t, items) →
      Ends limit body s w count (count + 1)
        (.ok { outcome := .error e, state := t, rest := rest.pushAll items })
  | faulted {a : α} {rest : Worklist α} {e : Fault} :
      w.pop? = some (a, rest) →
      count < allowed limit →
      body a s rest = .error e →
      Ends limit body s w count (count + 1) (.error e)

/- Every run makes some visits and ends after them. -/
theorem drain_ends
    (limit : Nat)
    (body : Body α σ)
    (s : σ)
    (w : Worklist α) :
    ∃ vs s' w' n, Visits body s w vs s' w' ∧ n ≤ allowed limit ∧
      Ends limit body s' w' vs.length n (drain limit (pushing body) s w) := by
  rcases exists_visits body (allowed limit) s w with ⟨vs, s', w', hVisits, hLe, hEnd⟩
  rcases Nat.exists_eq_add_of_le hLe with ⟨left, hLeft⟩
  refine ⟨vs, s', w', ?_⟩
  rw [hVisits.drain_eq hLeft]
  cases hPop : w'.pop? with
  | none =>
    rw [drainWithin_of_none hPop]
    exact ⟨_, hVisits, hLe, .drained hPop⟩
  | some next =>
    cases left with
    | zero =>
      rw [drainWithin_zero hPop]
      exact ⟨_, hVisits, hLe, .stopped hPop hLeft.symm⟩
    | succ left =>
      have hBody := hEnd.resolve_left (by omega) _ _ hPop
      rw [drainWithin_succ hPop, pushing]
      cases hStep : body next.1 s' next.2 with
      | error e => exact ⟨_, hVisits, by omega, .faulted hPop (by omega) hStep⟩
      | ok r =>
        rcases r with ⟨e | _, t, items⟩
        · exact ⟨_, hVisits, by omega, .failed hPop (by omega) hStep⟩
        · exact absurd hStep (hBody t items)

/- A run that ends well has made its visits, and none is left to make. -/
theorem drained_of_drain
    {n : Nat}
    (hRun : drain limit (pushing body) s w =
      .ok { outcome := .ok n, state := s', rest := rest }) :
    rest.queue = [] ∧ ∃ vs, Visits body s w vs s' rest ∧ vs.length = n := by
  rcases drain_ends limit body s w with ⟨vs, t, v, _, hVisits, _, hEnds⟩
  rw [hRun] at hEnds
  generalize hResult : Except.ok _ = result at hEnds
  cases hEnds with
  | drained hPop =>
    cases hResult
    exact ⟨pop?_eq_none_iff.mp hPop, vs, hVisits, rfl⟩
  | stopped _ _ =>
    unfold exhausted at hResult
    split at hResult <;> cases hResult
  | failed _ _ _ => cases hResult
  | faulted _ _ _ => cases hResult

theorem allowed_of_pos
    (hLimit : 0 < limit) :
    allowed limit = limit :=
  if_neg (Nat.ne_of_gt hLimit)

/- When the limit is reported: by the run, or by a step. -/
theorem drain_eq_iterationLimit_iff
    (hLimit : 0 < limit) :
    (∃ run, drain limit (pushing body) s w = .ok run ∧
        run.outcome = .error (.iterationLimit limit limit)) ↔
      (∃ vs s' w', Visits body s w vs s' w' ∧ vs.length = limit ∧ w'.queue ≠ []) ∨
      ∃ vs s' w' a rest t items, Visits body s w vs s' w' ∧ vs.length < limit ∧
        w'.pop? = some (a, rest) ∧
        body a s' rest = .ok (.error (.iterationLimit limit limit), t, items) := by
  have hAllowed := allowed_of_pos hLimit
  constructor
  · rintro ⟨run, hRun, hOutcome⟩
    rcases drain_ends limit body s w with ⟨vs, s', w', _, hVisits, _, hEnds⟩
    rw [hRun] at hEnds
    generalize hResult : Except.ok _ = result at hEnds
    cases hEnds with
    | drained _ =>
      cases hResult
      cases hOutcome
    | stopped hPop hCount =>
      refine .inl ⟨vs, s', w', hVisits, hCount.trans hAllowed, ?_⟩
      rw [queue_of_pop? hPop]
      exact List.cons_ne_nil _ _
    | failed hPop hCount hBody =>
      cases hResult
      cases hOutcome
      exact .inr ⟨vs, s', w', _, _, _, _, hVisits, hAllowed ▸ hCount, hPop, hBody⟩
    | faulted _ _ _ => cases hResult
  · rintro (⟨vs, s', w', hVisits, hLength, hQueue⟩ |
      ⟨vs, s', w', a, rest, t, items, hVisits, hLength, hPop, hBody⟩)
    · rcases Option.ne_none_iff_exists'.mp (mt pop?_eq_none_iff.mp hQueue) with ⟨_, hPop⟩
      have hLeft : allowed limit = vs.length + 0 := hAllowed.trans hLength.symm
      rw [hVisits.drain_eq hLeft, drainWithin_zero hPop, exhausted, if_neg (Nat.ne_of_gt hLimit),
        hLength]
      exact ⟨_, rfl, rfl⟩
    · rcases Nat.exists_eq_add_of_lt hLength with ⟨left, hMore⟩
      have hLeft : allowed limit = vs.length + (left + 1) := hAllowed.trans hMore
      rw [hVisits.drain_eq hLeft, drainWithin_succ hPop, pushing, hBody]
      exact ⟨_, rfl, rfl⟩

/-
  Take any step and any work list made from the empty one by queuing and
  taking items. No item waits twice, and those that wait are the pending
  ones. A run that ends well made as many visits as it says, none is left
  waiting, and after each time an item was queued it was taken: by the step,
  or before the run. A run under a limit runs its step no more often than
  that, and reports the limit if and only if something waits after so many
  visits, or else a step answers with that very error.
-/
theorem drained_items_are_served
    (body : Body α σ)
    (limit : Nat)
    (s : σ)
    {before : List (Event α)}
    (hBuilt : Follows {} before w) :
    (∀ events v, Follows ({} : Worklist α) events v →
      v.queue.Nodup ∧ ∀ a, v.contains a = true ↔ a ∈ v.queue) ∧
    (∀ n s' rest, drain limit (pushing body) s w =
        .ok { outcome := .ok n, state := s', rest := rest } →
      rest.queue = [] ∧ ∃ vs, Visits body s w vs s' rest ∧ vs.length = n ∧
        ∀ a post, (.push a :: post) <:+ before ++ vs.flatMap Visit.trace → .take a ∈ post) ∧
    (0 < limit → (∃ vs s' w' n, Visits body s w vs s' w' ∧ n ≤ limit ∧
        Ends limit body s' w' vs.length n (drain limit (pushing body) s w)) ∧
      ((∃ run, drain limit (pushing body) s w = .ok run ∧
          run.outcome = .error (.iterationLimit limit limit)) ↔
        (∃ vs s' w', Visits body s w vs s' w' ∧ vs.length = limit ∧ w'.queue ≠ []) ∨
        ∃ vs s' w' a rest t items, Visits body s w vs s' w' ∧ vs.length < limit ∧
          w'.pop? = some (a, rest) ∧
          body a s' rest = .ok (.error (.iterationLimit limit limit), t, items))) := by
  refine ⟨fun _ v _ => ⟨v.distinct, v.agree⟩, ?_, ?_⟩
  · intro n s' rest hRun
    rcases drained_of_drain hRun with ⟨hNil, vs, hVisits, hCount⟩
    refine ⟨hNil, vs, hVisits, hCount, fun a post hPost => ?_⟩
    refine ((hBuilt.append hVisits.follows).taken hPost).resolve_right ?_
    rw [hNil]
    exact List.not_mem_nil
  · intro hLimit
    have hEnds := drain_ends limit body s w
    rw [allowed_of_pos hLimit] at hEnds
    exact ⟨hEnds, drain_eq_iterationLimit_iff hLimit⟩

/- Each item wakes its successor and 2, up to 2 itself. -/
def waking : Body Nat Unit :=
  fun a _ _ => .ok (.ok (), (), if a < 2 then [a + 1, 2] else [])

/-
  Two items wait at the start, one of them after it had been taken. Five
  visits are made under a limit of five, and one of them is missing under a
  limit of four.
-/
theorem drained_items_are_served_of_waking :
    ∃ w, Follows {} [.push 0, .push 1, .take 0, .push 0] w ∧
      (∃ vs rest, Visits waking () w vs () rest ∧ vs.length = 5 ∧ rest.queue = []) ∧
      ∃ vs rest, Visits waking () w vs () rest ∧ vs.length = 4 ∧ rest.queue ≠ [] := by
  have hBuilt : Follows {} [.push 0, .push 1, .take 0, .push 0] _ :=
    .push (.push (.take rfl (.push .nil)))
  refine ⟨_, hBuilt, ?_, ?_⟩
  · rcases (drained_items_are_served waking 5 () hBuilt).2.1 5 () _ rfl with
      ⟨hQueue, vs, hVisits, hLength, _⟩
    exact ⟨vs, _, hVisits, hLength, hQueue⟩
  · rcases ((drained_items_are_served waking 4 () hBuilt).2.2 (by decide)).2.mp ⟨_, rfl, rfl⟩ with
      ⟨vs, _, rest, hVisits, hLength, hQueue⟩ | ⟨_, _, _, _, _, _, _, _, _, _, hBody⟩
    · exact ⟨vs, rest, hVisits, hLength, hQueue⟩
    · cases hBody

end Worklist

end HeapShape
