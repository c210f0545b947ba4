import HeapShape.Analysis
import HeapShape.Proofs.Pass.Closure
import Mathlib.Control.Traversable.Instances
import Mathlib.Data.List.Permutation

/-
  The final check.

  After the fixpoint the closures run, and then every call must be settled.
  The closures change no decision, so the check can fail at calls only that
  the fixpoint does not cover.

  Main declarations:
    * `firstUnstable_eq_error`
    * `Analysis.closeAndCheck_eq_error`
    * `fixpoint_settles_covered_calls`
-/

-- Errors Of The Check

namespace HeapShape

open Checked

variable {ctx : Context} {s t : Store} {e : AnalysisError}

/- The check names a call that needs something. -/
theorem firstUnstable_eq_error
    {ids : List CallSiteId}
    (hRun : firstUnstable ctx s ids = .ok (.error e)) :
    ∃ id cs need, ctx.callSite? id = some cs ∧ ctx.pending s cs = .ok need ∧
      need ≠ .settled ∧
      e = .unstable id need.label := by
  induction ids with
  | nil => cases hRun
  | cons id rest ih =>
    unfold firstUnstable at hRun
    split at hRun
    · exact ih hRun
    · next cs hFind =>
      rcases of_bind hRun with ⟨need, hPending, hRun⟩
      rcases CallGraph.callSite?_eq_some hFind with ⟨_, rfl⟩
      cases need with
      | settled => exact ih hRun
      | down =>
        cases hRun
        exact ⟨cs.id, cs, .down, hFind, hPending, by decide, rfl⟩
      | up =>
        cases hRun
        exact ⟨cs.id, cs, .up, hFind, hPending, by decide, rfl⟩

/- A closure that may be turned off keeps all shapes, too. -/
theorem exists_of_optional_closure
    {α : Type}
    {enabled : Bool}
    {closure : Checked (Answered ClosureStats)}
    {next : Answered (Option ClosureStats) → Checked α}
    {result : α}
    (hClosure : ∀ answer t, closure = .ok (answer, t) →
      (∃ stats, answer = .ok stats ∧ s.SameShapes t) ∨
        ∃ n limit, answer = .error (.iterationLimit n limit))
    (hRun : (if enabled = true then do
        let x ← closure
        let y ← pure (Except.map some x.1, x.2)
        next y
      else do
        let y ← pure (.ok none, s)
        next y) = .ok result) :
    (∃ stats? t, s.SameShapes t ∧
      next (.ok stats?, t) = .ok result) ∨
      ∃ n limit t, next (.error (.iterationLimit n limit), t) = .ok result := by
  split at hRun
  · rcases of_bind hRun with ⟨⟨answer, t⟩, hAnswer, hNext⟩
    rcases hClosure answer t hAnswer with ⟨stats, rfl, hShapes⟩ | ⟨n, limit, rfl⟩
    · exact Or.inl ⟨some stats, t, hShapes, hNext⟩
    · exact Or.inr ⟨n, limit, t, hNext⟩
  · exact Or.inl ⟨none, s, .refl s, hRun⟩

/-
  After the fixpoint a run fails at the limit of a closure, or at a call
  that needed something before the closures.
-/
theorem Analysis.closeAndCheck_eq_error
    {a a' : Analysis}
    (hRun : a.closeAndCheck ctx = .ok (.error e, a')) :
    (∃ n limit, e = .iterationLimit n limit) ∨ ∃ id cs need, ctx.callSite? id = some cs ∧
        ctx.pending a.store cs = .ok need ∧
        need ≠ .settled ∧ e = .unstable id need.label := by
  unfold closeAndCheck at hRun
  dsimp only at hRun
  rcases exists_of_optional_closure (fun _ _ hClosure =>
      runClosure_spec keepsShapes_reconcileScalars hClosure)
      hRun with ⟨_, s, hScalars, hRun⟩ | ⟨n, limit, s, hRun⟩
  · dsimp only at hRun
    rcases exists_of_optional_closure (fun _ _ hClosure =>
        runClosure_spec (keepsShapes_reconcileSites _) hClosure) hRun with
      ⟨_, t, hSites, hRun⟩ | ⟨n, limit, t, hRun⟩
    · dsimp only at hRun
      split at hRun
      · rcases of_bind hRun with ⟨verdict, hCheck, hRun⟩
        cases hRun
        right
        rcases firstUnstable_eq_error hCheck with ⟨id, cs, need, hFind, hPending, hRest⟩
        rw [Context.pending_eq_of_sameShapes (hScalars.trans hSites)] at hPending
        exact ⟨id, cs, need, hFind, hPending, hRest⟩
      · cases hRun
    · cases hRun
      exact Or.inl ⟨n, limit, rfl⟩
  · cases hRun
    exact Or.inl ⟨n, limit, rfl⟩

-- Stability

/- The context in which passes over a program run. -/
def Context.ofProgram
    (p : Program)
    (config : Config) : Context where
  program := p
  callGraph := CallGraph.ofProgram p
  config := config

/-
  When the fixpoint ends, every covered call is settled, and the later check
  fails at no covered call. Where functions share no graphs, every call is
  covered.
-/
theorem fixpoint_settles_covered_calls
    {p : Program}
    {config : Config}
    {s t : Store}
    {stats : FixpointStats}
    (hRun : runFixpoint (.ofProgram p config) s =
      .ok (.ok stats, t)) :
    (∀ id cs,
      (Context.ofProgram p config).callSite? id = some cs →
      (Context.ofProgram p config).Covered s cs →
      (Context.ofProgram p config).pending t cs =
        .ok .settled) ∧
    (∀ (a a' : Analysis) (id : CallSiteId) (label : String),
      a.store = t →
      a.closeAndCheck (.ofProgram p config) =
        .ok (.error (.unstable id label), a') →
      ∃ cs,
        (Context.ofProgram p config).callSite? id = some cs ∧
        ¬ (Context.ofProgram p config).Covered s cs) ∧
    ((∀ f f', s.sameGraph f f' = true → f = f') → ∀ id cs,
      (Context.ofProgram p config).callSite? id = some cs →
      (Context.ofProgram p config).Covered s cs) := by
  have hIndexes := CallGraph.indexes_ofProgram p
  have hEnd : Converging (.ofProgram p config) s t [] :=
    converging_of_runFixpoint hIndexes hRun
  have hSettled : ∀ id cs,
      (Context.ofProgram p config).callSite? id = some cs →
      (Context.ofProgram p config).Covered s cs →
      (Context.ofProgram p config).pending t cs =
        .ok .settled := by
    intro id cs hFind hCovered
    rcases hEnd.covered id cs
        (Context.lists_of_callSite? hIndexes hFind) hCovered
      with hWaits | hSettled
    · exact absurd hWaits List.not_mem_nil
    · exact hSettled
  refine ⟨hSettled, ?_, ?_⟩
  · rintro a a' id label rfl hCheck
    rcases Analysis.closeAndCheck_eq_error hCheck with
      ⟨n, limit, hLimit⟩ |
      ⟨id', cs, need, hFind, hPending, hNeed, hError⟩
    · cases hLimit
    · cases hError
      refine ⟨cs, hFind, fun hCovered => hNeed ?_⟩
      rw [hSettled id cs hFind hCovered] at hPending
      cases hPending
      rfl
  · intro hAlone id cs hFind
    exact Context.covered_of_unshared
      (Context.lists_of_callSite? hIndexes hFind) hAlone

/-
  Two callers of a function that writes to both its formals. The first
  passes one object twice, the second passes two.
-/
def twoCallers : Program where
  functions :=
    [{ id := 0, name := "fill", formals := [⟨0, true⟩, ⟨1, true⟩]
       body := [.store 0 none none, .store 1 none none] },
      { id := 1, name := "one", body := [.alloc 2 0 .heap 8 none] },
      { id := 2, name := "two", body := [.alloc 3 1 .heap 8 none, .alloc 4 2 .heap 8 none] }]
  callSites :=
    [{ id := 0, caller := 1, target := .direct 0, actuals := [some 2, some 2] },
      { id := 1, caller := 2, target := .direct 0, actuals := [some 3, some 4] }]

/-
  The first call merges the formals by a step down, and that merges the
  objects of the second call by a step up. The second call was settled
  before, and it is again.
-/
theorem fixpoint_settles_covered_calls_of_twoCallers :
    ∃ s t stats cs,
      runFixpoint (.ofProgram twoCallers {}) s =
        .ok (.ok stats, t) ∧
      stats.downSteps = 1 ∧ stats.upSteps = 1 ∧
      (Context.ofProgram twoCallers {}).callSite? 1 =
        some cs ∧
      (Context.ofProgram twoCallers {}).Covered s cs ∧
      (Context.ofProgram twoCallers {}).pending t cs =
        .ok .settled := by
  have hRun : (do
      let up ← bottomUpPass (.ofProgram twoCallers {}) {}
      let fix ← runFixpoint (.ofProgram twoCallers {}) up.2
      return (fix.1.toOption.map fun stats =>
          (stats.downSteps, stats.upSteps),
        ((Context.ofProgram twoCallers {}).callSite? 1).map
          fun cs => decide
            ((Context.ofProgram twoCallers {}).Covered
              up.2 cs))) =
        Except.ok (some (1, 1), some true) := by
    cbv
  rw [Checked.bind_eq_ok_iff] at hRun
  rcases hRun with ⟨⟨_, s⟩, _, hRun⟩
  rw [Checked.bind_eq_ok_iff] at hRun
  rcases hRun with ⟨⟨answer, t⟩, hFixpoint, hRun⟩
  rw [Checked.pure_eq_ok_iff, Prod.mk.injEq] at hRun
  rcases hRun with ⟨hSteps, hCall⟩
  cases answer with
  | error e => cases hSteps
  | ok stats =>
      cases hFind :
          (Context.ofProgram twoCallers {}).callSite? 1 with
      | none =>
          rw [hFind] at hCall
          cases hCall
      | some cs =>
          rw [hFind] at hCall
          have hCovered := of_decide_eq_true
            (Option.some.inj hCall)
          rcases Prod.mk.inj (Option.some.inj hSteps) with
            ⟨hDown, hUp⟩
          exact ⟨s, t, stats, cs, hFixpoint, hDown, hUp, rfl,
            hCovered, (fixpoint_settles_covered_calls
              hFixpoint).1 1 cs hFind hCovered⟩

/-
  Two functions that call each other, and a caller of each. The first caller
  passes one object twice, the second one passes two.
-/
def callersOfLoop : Program where
  functions :=
    [{ id := 0, name := "ping", formals := [⟨0, true⟩, ⟨1, true⟩]
       body := [.store 0 none none, .store 1 none none] },
      { id := 1, name := "pong", formals := [⟨2, true⟩, ⟨3, true⟩] },
      { id := 2, name := "one", body := [.alloc 4 0 .heap 8 none] },
      { id := 3, name := "two", body := [.alloc 5 1 .heap 8 none, .alloc 6 2 .heap 8 none] }]
  callSites :=
    [{ id := 0, caller := 0, target := .direct 1, actuals := [some 0, some 1] },
      { id := 1, caller := 1, target := .direct 0, actuals := [some 2, some 3] },
      { id := 2, caller := 2, target := .direct 0, actuals := [some 4, some 4] },
      { id := 3, caller := 3, target := .direct 1, actuals := [some 5, some 6] }]

/-
  The step down at the first call changes the graph that the loop shares.
  The second call is of the other member, is not queued, and the check finds
  it unsettled.
-/
theorem unstable_callersOfLoop :
    ∃ a, (Analysis.new {}).runContextSensitive callersOfLoop =
      .ok (.error (.unstable 3 "UP"), a) := by
  have hRun : (do
      let ran ← (Analysis.new {}).runContextSensitive callersOfLoop
      return ran.1) = Except.ok (.error (.unstable 3 "UP")) := by
    cbv
  rcases of_bind hRun with ⟨⟨answer, a⟩, hAnalysis, hRun⟩
  cases hRun
  exact ⟨a, hAnalysis⟩

end HeapShape
