import HeapShape.AnalysisError
import HeapShape.Fault
import HeapShape.Ordered.Set

/-
  Work lists.

  A work list is a queue without repetitions: an item that is waiting is not
  queued again. Which items are waiting is told by a set beside the queue.
  Draining a work list hands out the items in order to a step, which may
  queue more.

  A limit caps the number of items processed, where 0 sets none. The count
  itself is a 64-bit word, so a run without a limit faults when it leaves
  the range.

  Key definitions include:
    * `Worklist`
    * `Worklist.push`
    * `Worklist.pop?`
    * `Worklist.drain`
-/

-- Queues Without Repetitions

namespace HeapShape

/-
  Items waiting to be processed, the next one first. The pending set has the
  same items as the queue.
-/
structure Worklist
    (α : Type)
    [Ord α] where
  queue : List α
  pending : OrdSet α
  distinct : queue.Nodup
  agree : ∀ a, a ∈ pending ↔ a ∈ queue

namespace Worklist

variable {α : Type} [Ord α]

/- No item waits. -/
def empty : Worklist α where
  queue := []
  pending := ∅
  distinct := List.nodup_nil
  agree := fun _ => ⟨nofun, nofun⟩

instance : EmptyCollection (Worklist α) :=
  ⟨empty⟩

/- Whether an item is waiting. -/
def contains
    (w : Worklist α)
    (a : α) : Bool :=
  w.pending.contains a

/- The number of waiting items. -/
def size
    (w : Worklist α) : Nat :=
  w.queue.length

/- Whether no item is waiting. -/
def isEmpty
    (w : Worklist α) : Bool :=
  w.queue.isEmpty

variable [Std.LawfulEqOrd α]

/- The next item and the rest. -/
def pop? : Worklist α → Option (α × Worklist α)
| ⟨[], _, _, _⟩ => none
| ⟨a :: rest, pending, distinct, agree⟩ => some (a, {
    queue := rest
    pending := pending.erase a
    distinct := (List.nodup_cons.mp distinct).2
    agree := by
      intro b
      have hNew := (List.nodup_cons.mp distinct).1
      rw [OrdSet.mem_erase_iff, agree, List.mem_cons]
      constructor
      · rintro ⟨rfl | hRest, hne⟩
        · exact absurd rfl hne
        · exact hRest
      · intro hRest
        exact ⟨Or.inr hRest, fun hEq => hNew (hEq ▸ hRest)⟩ })

variable [Std.TransOrd α]

/- Queue an item unless it is waiting. -/
def push
    (w : Worklist α)
    (a : α) : Worklist α where
  queue := if a ∈ w.pending then w.queue else w.queue ++ [a]
  pending := w.pending.insert a
  distinct := by
    split
    · exact w.distinct
    · next hNew =>
      rw [w.agree] at hNew
      rw [List.nodup_append]
      refine ⟨w.distinct, by simp, ?_⟩
      rintro b hb _ hLast rfl
      exact hNew (List.mem_singleton.mp hLast ▸ hb)
  agree := by
    classical
    intro b
    rw [OrdSet.mem_insert_iff, w.agree]
    split
    · next hOld =>
      rw [w.agree] at hOld
      constructor
      · rintro (rfl | hMem)
        · exact hOld
        · exact hMem
      · exact Or.inr
    · rw [List.mem_append, List.mem_singleton, or_comm]

/- Queue some items in order. -/
def pushAll
    (w : Worklist α)
    (items : List α) : Worklist α :=
  items.foldl push w

end Worklist

-- Draining

namespace Worklist

variable {α σ : Type} [Ord α]

/-
  A step processes one item: it changes the state and the work list, and may
  end the run with an error. A fault leaves nothing behind.
-/
abbrev Step
    (α σ : Type)
    [Ord α] :=
  α → σ → Worklist α →
    Checked (Except AnalysisError Unit × σ × Worklist α)

/- The outcome of a run: the count or the error, the state. -/
structure Run
    (α σ : Type)
    [Ord α] where
  outcome : Except AnalysisError Nat
  state : σ
  rest : Worklist α

/- The first number that is not a 64-bit word. -/
def countBound : Nat :=
  1 <<< 64

/- What happens when the allowed items are used up. -/
def exhausted
    (limit : Nat)
    (done : Nat)
    (state : σ)
    (rest : Worklist α) : Checked (Run α σ) :=
  if limit = 0 then .error .addOverflow
  else
    .ok {
      outcome := .error (.iterationLimit done limit)
      state := state
      rest := rest }

variable [Std.LawfulEqOrd α]

/- Process at most `left` more items. -/
def drainWithin
    (limit : Nat)
    (step : Step α σ) :
    Nat → Nat → σ → Worklist α → Checked (Run α σ)
| left, done, state, w =>
    match w.pop? with
    | none =>
        .ok { outcome := .ok done, state := state, rest := w }
    | some (a, rest) =>
        match left with
        | 0 => exhausted limit done state rest
        | left + 1 => do
            let (answer, state, rest) ← step a state rest
            match answer with
            | .ok () =>
                drainWithin limit step left (done + 1) state
                  rest
            | .error e =>
                return {
                  outcome := .error e
                  state := state
                  rest := rest }

/- The number of items a limit allows. -/
def allowed
    (limit : Nat) : Nat :=
  if limit = 0 then countBound - 1 else limit

/-
  Process items until none is waiting, a step fails, or the limit is
  reached. The item met at the limit is dropped.
-/
def drain
    (limit : Nat)
    (step : Step α σ)
    (state : σ)
    (w : Worklist α) : Checked (Run α σ) :=
  drainWithin limit step (allowed limit) 0 state w

end Worklist

end HeapShape
