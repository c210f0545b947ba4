import HeapShape.Analysis
import HeapShape.Proofs.Checked
import Mathlib.Control.Traversable.Instances
import Mathlib.Data.List.Permutation

/-
  An analysis that runs again.

  A run starts over with an empty store, so the graphs are those of a new
  analysis. The call graph is put in place when a run has its results, and
  so are the summaries of a context-sensitive run: after a run that failed
  before, both are still those of the last program whose run got so far.

  Main declarations:
    * `Analysis.overlay`
    * `Analysis.answersFrom_runAll`
    * `failed_run_keeps_complete_answers`
    * `failed_run_mixes_programs`
-/

-- What A Run Leaves In Place

namespace HeapShape

open Checked

namespace Analysis

variable {a b : Analysis} {p : Program}

/-
  What an analysis holds after a run that would leave `fresh` behind if it
  were the first.
-/
def overlay
    (old fresh : Analysis) : Analysis where
  config := old.config
  store := fresh.store
  summaries? :=
    if fresh.callGraph?.isNone
        && old.config.kind == .contextSensitive then
      old.summaries?
    else fresh.summaries?
  callGraph? := fresh.callGraph?.or old.callGraph?
  stats :=
    if old.config.kind == .contextSensitive then fresh.stats
    else old.stats

/- A context-sensitive run that has its call graph. -/
theorem overlay_eq_self
    (hKind : (a.config.kind == .contextSensitive) = true)
    (hConfig : b.config = a.config)
    {c : CallGraph}
    (hGraph : b.callGraph? = some c) :
    a.overlay b = b := by
  rcases b with ⟨_, store, summaries?, callGraph?, stats⟩
  cases hConfig
  cases hGraph
  unfold overlay
  rw [hKind]
  rfl

theorem runContextInsensitive_eq
    (hKind : (a.config.kind == .contextSensitive) = false) :
    a.runContextInsensitive p = ((new a.config).runContextInsensitive p).map
        fun ran => (ran.1, a.overlay ran.2) := by
  unfold runContextInsensitive
  rw [Checked.map_bind]
  refine bind_congr fun low => ?_
  cases low with
  | error e =>
    simp only [overlay, hKind]
    rfl
  | ok g =>
    simp only [Checked.map_bind]
    refine bind_congr fun g => ?_
    refine bind_congr fun g => ?_
    refine bind_congr fun cleaned => ?_
    simp only [overlay, hKind]
    rfl

theorem runFlat_eq
    (hKind : (a.config.kind == .contextSensitive) = false) :
    a.runFlat p = ((new a.config).runFlat p).map fun ran => (ran.1, a.overlay ran.2) := by
  unfold runFlat
  rw [runContextInsensitive_eq hKind, Checked.map_bind]
  cases (new a.config).runContextInsensitive p with
  | error fault => rfl
  | ok ran =>
    rcases ran with ⟨e | _, b⟩
    · rfl
    · rw [ok_bind]
      dsimp only
      rw [Checked.map_bind]
      rfl

theorem runBottomUp_eq
    (hKind : (a.config.kind == .contextSensitive) = false)
    (topDown : Bool) :
    a.runBottomUp p topDown = ((new a.config).runBottomUp p topDown).map
        fun ran => (ran.1, a.overlay ran.2) := by
  unfold runBottomUp
  rw [Checked.map_bind]
  refine bind_congr fun up => ?_
  rcases up with ⟨e | up, s⟩
  · simp only [overlay, hKind]
    rfl
  · cases topDown with
    | false =>
      change (s.clean >>= _) = Except.map _ (s.clean >>= _)
      rw [Checked.map_bind]
      refine bind_congr fun cleaned => ?_
      simp only [overlay, hKind]
      rfl
    | true =>
      change (_ >>= _) = Except.map _ (_ >>= _)
      rw [Checked.map_bind]
      refine bind_congr fun down => ?_
      change (down.2.clean >>= _) = Except.map _ (down.2.clean >>= _)
      rw [Checked.map_bind]
      refine bind_congr fun cleaned => ?_
      simp only [overlay, hKind]
      rfl

variable {α : Type}

/- A closure that may be turned off, and what follows it. -/
theorem exists_of_optional
    {enabled : Bool}
    {closure : Checked (Answered ClosureStats)}
    {next : Answered (Option ClosureStats) → Checked α}
    {s : Store}
    {out : α}
    (hRun :
      (if enabled = true then do
        let x ← closure
        let y ← pure (Except.map some x.1, x.2)
        next y
      else do
        let y ← pure (.ok none, s)
        next y) = .ok out) :
    ∃ y, next y = .ok out := by
  split at hRun
  · rcases of_bind hRun with ⟨x, _, hRun⟩
    exact ⟨_, hRun⟩
  · exact ⟨_, hRun⟩

/- The closures and the check change graphs and counts. -/
theorem frame_closeAndCheck
    {ctx : Context}
    {r : Except AnalysisError Unit}
    (hRun : a.closeAndCheck ctx = .ok (r, b)) :
    b.config = a.config ∧ b.summaries? = a.summaries? ∧ b.callGraph? = a.callGraph? := by
  unfold closeAndCheck at hRun
  dsimp only at hRun
  rcases exists_of_optional hRun with ⟨⟨e | scalars?, s⟩, hRun⟩
  · cases hRun
    exact ⟨rfl, rfl, rfl⟩
  · rcases exists_of_optional hRun with ⟨⟨e | sites?, t⟩, hRun⟩
    · cases hRun
      exact ⟨rfl, rfl, rfl⟩
    · dsimp only at hRun
      split at hRun
      · rcases of_bind hRun with ⟨verdict, _, hRun⟩
        cases hRun
        exact ⟨rfl, rfl, rfl⟩
      · cases hRun
        exact ⟨rfl, rfl, rfl⟩

theorem runContextSensitive_eq
    (hKind : (a.config.kind == .contextSensitive) = true) :
    a.runContextSensitive p = ((new a.config).runContextSensitive p).map
        fun ran => (ran.1, a.overlay ran.2) := by
  unfold runContextSensitive
  rw [Checked.map_bind]
  refine bind_congr fun up => ?_
  rcases up with ⟨e | up, s⟩
  · simp only [overlay, hKind]
    rfl
  · -- From here on nothing of the old state is left.
    refine (Checked.map_eq_self ?_).symm
    rintro ⟨r, b⟩ hRun
    suffices hFrame : b.config = a.config ∧ b.callGraph? = some (CallGraph.ofProgram p) by
      rw [overlay_eq_self hKind hFrame.1 hFrame.2]
    dsimp only at hRun
    rcases of_bind hRun with ⟨⟨e | fix, t⟩, _, hRun⟩
    · cases hRun
      exact ⟨rfl, rfl⟩
    · dsimp only at hRun
      rcases of_bind hRun with ⟨⟨verdict, closed⟩, hClose, hRun⟩
      rcases frame_closeAndCheck hClose with ⟨hConfig, _, hGraph⟩
      cases verdict with
      | error e =>
        cases hRun
        exact ⟨hConfig, hGraph⟩
      | ok _ =>
        dsimp only at hRun
        rcases of_bind hRun with ⟨cleaned, _, hRun⟩
        cases hRun
        exact ⟨hConfig, hGraph⟩

theorem runParts_eq
    (a : Analysis)
    (p : Program) :
    a.runParts p = ((new a.config).runParts p).map fun ran => (ran.1, a.overlay ran.2) := by
  have hNew : (new a.config).config = a.config := rfl
  unfold runParts
  rw [hNew]
  cases hKind : a.config.kind with
  | flat =>
    dsimp only
    rw [runFlat_eq (by rw [hKind]; rfl)]
    cases (new a.config).runFlat p <;> rfl
  | contextInsensitive =>
    dsimp only
    rw [runContextInsensitive_eq (by rw [hKind]; rfl)]
    cases (new a.config).runContextInsensitive p <;> rfl
  | bottomUp =>
    dsimp only
    rw [runBottomUp_eq (by rw [hKind]; rfl)]
    cases (new a.config).runBottomUp p false <;> rfl
  | bottomUpTopDown =>
    dsimp only
    rw [runBottomUp_eq (by rw [hKind]; rfl)]
    cases (new a.config).runBottomUp p true <;> rfl
  | contextSensitive =>
    dsimp only
    rw [runContextSensitive_eq (by rw [hKind]; rfl)]
    cases (new a.config).runContextSensitive p <;> rfl

/- A run is the run of a new analysis, put over the old one. -/
theorem run_eq
    (a : Analysis)
    (p : Program) :
    a.run p = ((new a.config).run p).map fun ran => (ran.1, a.overlay ran.2) := by
  unfold run
  rw [runParts_eq]
  cases (new a.config).runParts p <;> rfl

-- Complete Runs

variable {config : Config}

/-
  A run leaves the call graph of its program, or the one that was there. A
  run without an error leaves its own, and a context-sensitive run with an
  error may. Together with the call graph that run leaves summaries; other
  runs leave none when they fail.
-/
inductive Places
    {α : Type}
    (a : Analysis)
    (p : Program) : Ran α → Prop
  | ended {x : α} {b : Analysis}
      (hGraph : b.callGraph? = some (.ofProgram p))
      (hSummaries : a.config.kind = .contextSensitive →
        b.summaries?.isSome) :
      Places a p (.ok x, b)
  | failed {e : AnalysisError} {b : Analysis}
      (hGraph : b.callGraph? = a.callGraph?)
      (hSummaries : a.config.kind ≠ .contextSensitive →
        b.summaries? = none) :
      Places a p (.error e, b)
  | failedLate {e : AnalysisError} {b : Analysis}
      (hKind : a.config.kind = .contextSensitive)
      (hGraph : b.callGraph? = some (.ofProgram p))
      (hSummaries : b.summaries?.isSome) :
      Places a p (.error e, b)

theorem Places.map
    {β : Type}
    {r : Except AnalysisError α}
    (h : Places a p (r, b))
    (f : α → β) :
    Places a p (r.map f, b) := by
  cases h with
  | ended hGraph hSummaries => exact .ended hGraph hSummaries
  | failed hGraph hSummaries => exact .failed hGraph hSummaries
  | failedLate hKind hGraph hSummaries => exact .failedLate hKind hGraph hSummaries

variable {r : Except AnalysisError AnalysisStats} {ran : Ran Unit}

theorem places_runContextInsensitive
    (hKind : a.config.kind ≠ .contextSensitive)
    (hRun : a.runContextInsensitive p = .ok ran) :
    Places a p ran := by
  unfold runContextInsensitive at hRun
  rcases of_bind hRun with ⟨e | g, _, hRun⟩
  · cases hRun
    exact .failed rfl fun _ => rfl
  · dsimp only at hRun
    rcases of_bind hRun with ⟨merged, _, hRun⟩
    rcases of_bind hRun with ⟨small, _, hRun⟩
    rcases of_bind hRun with ⟨cleaned, _, hRun⟩
    cases hRun
    exact .ended rfl fun hSame => absurd hSame hKind

theorem places_runFlat
    (hKind : a.config.kind ≠ .contextSensitive)
    (hRun : a.runFlat p = .ok ran) :
    Places a p ran := by
  unfold runFlat at hRun
  rcases of_bind hRun with ⟨⟨r, b⟩, hInner, hRun⟩
  cases places_runContextInsensitive hKind hInner with
  | ended hGraph hSummaries =>
    dsimp only at hRun
    rcases of_bind hRun with ⟨flat, _, hRun⟩
    cases hRun
    exact .ended hGraph hSummaries
  | failed hGraph hSummaries =>
    cases hRun
    exact .failed hGraph hSummaries
  | failedLate hSame => exact absurd hSame hKind

theorem places_runBottomUp
    {topDown : Bool}
    {ran : Ran (BottomUpStats × Option TopDownStats)}
    (hRun : a.runBottomUp p topDown = .ok ran) :
    Places a p ran := by
  unfold runBottomUp at hRun
  rcases of_bind hRun with ⟨⟨e | up, s⟩, _, hRun⟩
  · cases hRun
    exact .failed rfl fun _ => rfl
  · cases topDown with
    | false =>
      change (s.clean >>= _) = _ at hRun
      rcases of_bind hRun with ⟨cleaned, _, hRun⟩
      cases hRun
      exact .ended rfl fun _ => rfl
    | true =>
      change (_ >>= _) = _ at hRun
      rcases of_bind hRun with ⟨down, _, hRun⟩
      change (down.2.clean >>= _) = _ at hRun
      rcases of_bind hRun with ⟨cleaned, _, hRun⟩
      cases hRun
      exact .ended rfl fun _ => rfl

theorem places_runContextSensitive
    (hKind : a.config.kind = .contextSensitive)
    {ran : Ran ContextSensitiveStats}
    (hRun : a.runContextSensitive p = .ok ran) :
    Places a p ran := by
  unfold runContextSensitive at hRun
  rcases of_bind hRun with ⟨⟨e | up, s⟩, _, hRun⟩
  · cases hRun
    exact .failed rfl fun hOther => absurd hKind hOther
  · dsimp only at hRun
    rcases of_bind hRun with ⟨⟨e | fix, t⟩, _, hRun⟩
    · cases hRun
      exact .failedLate hKind rfl rfl
    · dsimp only at hRun
      rcases of_bind hRun with ⟨⟨verdict, closed⟩, hClose, hRun⟩
      rcases frame_closeAndCheck hClose with ⟨_, hSummaries, hGraph⟩
      have hSome : closed.summaries?.isSome := by
        rw [hSummaries]
        rfl
      cases verdict with
      | error e =>
        cases hRun
        exact .failedLate hKind hGraph hSome
      | ok _ =>
        dsimp only at hRun
        rcases of_bind hRun with ⟨cleaned, _, hRun⟩
        cases hRun
        exact .ended hGraph fun _ => hSome

theorem places_runParts
    {ran : Ran AnalysisStats}
    (hRun : a.runParts p = .ok ran) :
    Places a p ran := by
  unfold runParts at hRun
  have hApart : ∀ kind : AnalysisKind, kind ≠ .contextSensitive → a.config.kind = kind →
      a.config.kind ≠ .contextSensitive := by
    rintro kind hOther rfl
    exact hOther
  split at hRun
  · next hKind =>
    rcases of_bind hRun with ⟨⟨r, b⟩, hInner, hRun⟩
    cases hRun
    exact (places_runFlat (hApart _ (by decide) hKind) hInner).map _
  · next hKind =>
    rcases of_bind hRun with ⟨⟨r, b⟩, hInner, hRun⟩
    cases hRun
    exact (places_runContextInsensitive (hApart _ (by decide) hKind) hInner).map _
  · rcases of_bind hRun with ⟨⟨r, b⟩, hInner, hRun⟩
    cases hRun
    exact (places_runBottomUp hInner).map _
  · rcases of_bind hRun with ⟨⟨r, b⟩, hInner, hRun⟩
    cases hRun
    exact (places_runBottomUp hInner).map _
  · next hKind =>
    rcases of_bind hRun with ⟨⟨r, b⟩, hInner, hRun⟩
    cases hRun
    exact (places_runContextSensitive hKind hInner).map _

theorem places_run
    {ran : Ran AnalysisStats}
    (hRun : a.run p = .ok ran) :
    Places a p ran := by
  unfold run at hRun
  rcases of_bind hRun with ⟨⟨r, b⟩, hInner, hRun⟩
  cases hRun
  exact (places_runParts hInner).map _

/-
  A new analysis gets so far on a program that it has the call graph, and it
  is then left in state `b`.
-/
structure Completes
    (config : Config)
    (p : Program)
    (b : Analysis) : Prop where
  run : ∃ r, (new config).run p = .ok (r, b)
  callGraph : b.callGraph? = some (.ofProgram p)

/- A first run has the call graph of its program or none. -/
theorem callGraph?_of_run
    (hRun : (new config).run p = .ok (r, b)) :
    Completes config p b ∨ b.callGraph? = none ∧ ∀ b', ¬ Completes config p b' := by
  have hOnly : ∀ b', Completes config p b' → b' = b := by
    rintro b' ⟨⟨r', hRun'⟩, _⟩
    rw [hRun] at hRun'
    cases hRun'
    rfl
  cases places_run hRun with
  | ended hGraph _ => exact Or.inl ⟨⟨_, hRun⟩, hGraph⟩
  | failedLate _ hGraph _ => exact Or.inl ⟨⟨_, hRun⟩, hGraph⟩
  | failed hGraph _ =>
    have hNone : b.callGraph? = none := hGraph
    refine Or.inr ⟨hNone, ?_⟩
    intro b' hDone
    cases hOnly b' hDone
    have hSome := hDone.callGraph
    rw [hNone] at hSome
    cases hSome

/- With the call graph there are summaries. -/
theorem Completes.isSome_summaries?
    (hDone : Completes config p b)
    (hKind : config.kind = .contextSensitive) :
    b.summaries?.isSome := by
  rcases hDone.run with ⟨r, hRun⟩
  cases places_run hRun with
  | ended _ hSummaries => exact hSummaries hKind
  | failedLate _ _ hSummaries => exact hSummaries
  | failed hGraph _ =>
    have hSome := hDone.callGraph
    rw [hGraph] at hSome
    cases hSome

-- Runs One After The Other

variable {a' : Analysis}

/- Run on some programs, whatever the runs answer. -/
def runAll
    (a : Analysis)
    (ps : List Program) : Checked Analysis :=
  ps.foldlM (fun a p => do return (← a.run p).2) a

/-
  The program that the call graph of an analysis is of, and in a
  context-sensitive one the summaries too: the last of its programs that got
  so far.
-/
inductive AnswersFrom
    (config : Config) : List Program → Analysis → Prop
  | nothing {ps : List Program} {a : Analysis}
      (hNone : ∀ q ∈ ps, ∀ b, ¬ Completes config q b)
      (hGraph : a.callGraph? = none)
      (hSummaries : config.kind = .contextSensitive →
        a.summaries? = some {}) :
      AnswersFrom config ps a
  | last {older later : List Program} {q : Program}
      {a b : Analysis}
      (hDone : Completes config q b)
      (hLater : ∀ q ∈ later, ∀ b, ¬ Completes config q b)
      (hGraph : a.callGraph? = b.callGraph?)
      (hSummaries : config.kind = .contextSensitive →
        a.summaries? = b.summaries?) :
      AnswersFrom config (older ++ q :: later) a

variable {ps : List Program}

/- One more run. -/
theorem AnswersFrom.run
    (hPast : AnswersFrom config ps a)
    (hConfig : a.config = config)
    (hRun : a.run p = .ok (r, a')) :
    a'.config = config ∧ AnswersFrom config (ps ++ [p]) a' := by
  rw [run_eq, map_eq_ok_iff] at hRun
  rcases hRun with ⟨⟨r, b⟩, hFresh, hRun⟩
  cases hRun
  rw [hConfig] at hFresh
  refine ⟨hConfig, ?_⟩
  rcases callGraph?_of_run hFresh with hDone | ⟨hNone, hNever⟩
  · have hLater : ∀ q ∈ ([] : List Program), ∀ b, ¬ Completes config q b :=
      fun _ hq => absurd hq List.not_mem_nil
    refine .last hDone hLater ?_ ?_
    · simp only [overlay, hDone.callGraph, Option.some_or]
    · intro _
      simp only [overlay, hDone.callGraph, Option.isNone_some,
        Bool.false_and, Bool.false_eq_true, if_false]
  · -- The answers stay the same, and `p` is no source of any.
    have hGraph : (a.overlay b).callGraph? =
        a.callGraph? := by
      simp only [overlay, hNone, Option.none_or]
    have hSummaries : config.kind = .contextSensitive →
        (a.overlay b).summaries? = a.summaries? := by
      intro hKind
      simp only [overlay, hNone, hConfig, hKind,
        Option.isNone_none, Bool.true_and, beq_self_eq_true,
        if_true]
    cases hPast with
    | nothing hNone' hGraph' hSummaries' =>
      refine .nothing ?_ (hGraph.trans hGraph') ?_
      · intro q hq
        rcases List.mem_append.mp hq with hOld | hNew
        · exact hNone' q hOld
        · cases List.mem_singleton.mp hNew
          exact hNever
      · intro hKind
        exact (hSummaries hKind).trans (hSummaries' hKind)
    | last hDone hLater hGraph' hSummaries' =>
      rw [List.append_assoc, List.cons_append]
      refine .last hDone ?_ (hGraph.trans hGraph') ?_
      · intro q hq
        rcases List.mem_append.mp hq with hOld | hNew
        · exact hLater q hOld
        · cases List.mem_singleton.mp hNew
          exact hNever
      · intro hKind
        exact (hSummaries hKind).trans (hSummaries' hKind)

/- What a run of programs leaves behind. -/
theorem AnswersFrom.foldlM
    {past : List Program}
    (hPast : AnswersFrom config past a)
    (hConfig : a.config = config)
    (hRun : a.runAll ps = .ok a') :
    a'.config = config ∧ AnswersFrom config (past ++ ps) a' := by
  induction ps generalizing a past with
  | nil =>
    cases hRun
    rw [List.append_nil]
    exact ⟨hConfig, hPast⟩
  | cons p rest ih =>
    unfold runAll at hRun
    rw [List.foldlM_cons] at hRun
    rcases of_bind hRun with ⟨next, hStep, hRun⟩
    rcases of_bind hStep with ⟨⟨r, b⟩, hFirst, hStep⟩
    cases hStep
    rcases hPast.run hConfig hFirst with ⟨hConfig, hPast⟩
    rw [List.append_cons]
    exact ih hPast hConfig hRun

theorem answersFrom_runAll
    (hRun : (new config).runAll ps = .ok a) :
    a.config = config ∧ AnswersFrom config ps a := by
  have hNew : AnswersFrom config [] (new config) := by
    refine .nothing (fun _ hq => absurd hq List.not_mem_nil)
      rfl ?_
    intro hKind
    unfold new
    rw [hKind]
  exact hNew.foldlM rfl hRun

end Analysis

/-
  After a run that failed, the graphs are those that the failed run leaves
  in a new analysis. How calls were resolved is told by the last program
  that got its call graph, and that is the failed one only if the analysis
  is context-sensitive and its bottom-up pass ended. The summaries of a
  context-sensitive analysis are of the same program; other analyses show
  their graphs as summaries.
-/
theorem failed_run_keeps_complete_answers
    {config : Config}
    {ps : List Program}
    {p : Program}
    {a a' : Analysis}
    {e : AnalysisError}
    (hPast : (Analysis.new config).runAll ps = .ok a)
    (hRun : a.run p = .ok (.error e, a')) :
    ∃ fresh,
      (Analysis.new config).run p = .ok (.error e, fresh) ∧
      (∀ f, a'.graph? f = fresh.graph? f) ∧
      (config.kind ≠ .contextSensitive →
        (∀ f, a'.summaryGraph? f = fresh.graph? f) ∧
        ∀ b, ¬ Analysis.Completes config p b) ∧
      ((∀ q ∈ ps ++ [p], ∀ b,
          ¬ Analysis.Completes config q b) ∧
        (∀ cs, a'.callResolution? cs = none) ∧
        (config.kind = .contextSensitive →
          ∀ f, a'.summaryGraph? f = none) ∨
      ∃ older q later b,
        ps ++ [p] = older ++ q :: later ∧
        Analysis.Completes config q b ∧
        (∀ q ∈ later, ∀ b,
          ¬ Analysis.Completes config q b) ∧
        (∀ cs, a'.callResolution? cs =
          (CallGraph.ofProgram q).resolution? cs) ∧
        (config.kind = .contextSensitive →
          ∀ f, a'.summaryGraph? f = b.summaryGraph? f)) := by
  rcases Analysis.answersFrom_runAll hPast with
    ⟨hConfig, hAnswers⟩
  rcases hAnswers.run hConfig hRun with ⟨_, hAnswers'⟩
  rw [Analysis.run_eq, Checked.map_eq_ok_iff] at hRun
  rcases hRun with ⟨⟨r, fresh⟩, hFresh, hRun⟩
  cases hRun
  rw [hConfig] at hFresh
  refine ⟨fresh, hFresh, fun f => rfl, ?_, ?_⟩
  · intro hKind
    cases Analysis.places_run hFresh with
    | failedLate hSame => exact absurd hSame hKind
    | failed hGraph hSummaries =>
        have hNone : fresh.callGraph? = none := hGraph
        refine ⟨?_, ?_⟩
        · intro f
          have hStore : (a.overlay fresh).summaryStore =
              fresh.store := by
            unfold Analysis.summaryStore Analysis.overlay
            rw [hConfig, hSummaries hKind]
            simp [hKind]
          unfold Analysis.summaryGraph?
          rw [hStore]
          rfl
        · rintro b ⟨⟨r, hRun⟩, hGraph'⟩
          rw [hFresh] at hRun
          cases hRun
          rw [hNone] at hGraph'
          cases hGraph'
  · generalize hAll : ps ++ [p] = all at hAnswers' ⊢
    cases hAnswers' with
    | nothing hNone hGraph hSummaries =>
        refine Or.inl ⟨hNone, ?_, ?_⟩
        · intro cs
          unfold Analysis.callResolution?
          rw [hGraph]
          rfl
        · intro hKind f
          unfold Analysis.summaryGraph? Analysis.summaryStore
          rw [hSummaries hKind]
          rfl
    | @last older later q _ b hDone hLater hGraph
        hSummaries =>
        refine Or.inr ⟨older, q, later, b, rfl, hDone,
          hLater, ?_, ?_⟩
        · intro cs
          unfold Analysis.callResolution?
          rw [hGraph, hDone.callGraph]
          rfl
        · intro hKind f
          unfold Analysis.summaryGraph? Analysis.summaryStore
          rcases Option.isSome_iff_exists.mp
              (hDone.isSome_summaries? hKind) with
            ⟨t, hSome⟩
          rw [hSummaries hKind, hSome]
          rfl

/- One function hands an object to another. -/
def passesObject : Program where
  functions :=
    [{ id := 0, name := "take", formals := [⟨0, true⟩] },
      { id := 1, name := "main", body := [.alloc 1 0 .heap 8 none] }]
  callSites :=
    [{ id := 0, caller := 1, target := .direct 0, actuals := [some 1] }]

/- A field too far into an object for its address. -/
def reachesFar : Program where
  functions :=
    [{ id := 5, name := "far", formals := [⟨9, true⟩], body := [.fieldAddr 10 9 4294967295,
         .fieldAddr 11 10 1] }]

/- How the one call of the first program is resolved. -/
def passedTo : CallResolution where
  callSite := 0
  caller := 1
  callees := [0]
  fullyResolved := true

/-
  Every analysis that ended on the first program and failed on the second
  still tells how the call of the first one was resolved. The second has no
  calls.
-/
theorem failed_run_mixes_programs
    (kind : AnalysisKind) :
    reachesFar.callSites = [] ∧ ∃ a a' e, (Analysis.new { kind := kind }).runAll
        [passesObject] = .ok a ∧
      a.run reachesFar = .ok (.error e, a') ∧
      a'.callResolution? 0 = some passedTo := by
  have hRun : (do
      let a ← (Analysis.new { kind := kind }).runAll [passesObject]
      let ran ← a.run reachesFar
      return (ran.1.isOk, ran.2.callResolution? 0)) =
      Except.ok (false, some passedTo) := by
    cases kind <;> cbv
  rcases of_bind hRun with ⟨a, hFirst, hRun⟩
  rcases of_bind hRun with ⟨⟨r, a'⟩, hSecond, hRun⟩
  cases r with
  | error e =>
    rw [pure_eq_ok_iff] at hRun
    exact ⟨rfl, a, a', e, hFirst, hSecond, congrArg Prod.snd hRun⟩
  | ok stats => cases hRun

/-
  The second program has no calls, so what is told of calls after it failed
  is told of the first one.
-/
theorem failed_run_keeps_complete_answers_of_reachesFar :
    ∃ a a' e fresh b,
      (Analysis.new {}).runAll [passesObject] = .ok a ∧
      a.run reachesFar = .ok (.error e, a') ∧
      (Analysis.new {}).run reachesFar =
        .ok (.error e, fresh) ∧
      (∀ f, a'.graph? f = fresh.graph? f) ∧
      Analysis.Completes {} passesObject b ∧
      (∀ cs, a'.callResolution? cs =
        (CallGraph.ofProgram passesObject).resolution? cs) ∧
      ∀ f, a'.summaryGraph? f = b.summaryGraph? f := by
  rcases failed_run_mixes_programs .contextSensitive with
    ⟨_, a, a', e, hFirst, hSecond, hTold⟩
  rcases failed_run_keeps_complete_answers hFirst hSecond with
    ⟨fresh, hFresh, hGraphs, _, hAnswers⟩
  rcases hAnswers with ⟨_, hNone, _⟩ |
    ⟨older, q, later, b, hAll, hDone, _, hCalls, hSummaries⟩
  · rw [hNone] at hTold
    cases hTold
  · have hMem : q ∈ [passesObject, reachesFar] := by
      change q ∈ [passesObject] ++ [reachesFar]
      rw [hAll]
      exact List.mem_append_right older List.mem_cons_self
    rcases List.mem_cons.mp hMem with rfl | hMem
    · exact ⟨a, a', e, fresh, b, hFirst, hSecond, hFresh,
        hGraphs, hDone, hCalls, hSummaries rfl⟩
    · cases List.mem_singleton.mp hMem
      have hOther : (CallGraph.ofProgram
          reachesFar).resolution? 0 = none := by
        cbv
      rw [hCalls, hOther] at hTold
      cases hTold

end HeapShape
