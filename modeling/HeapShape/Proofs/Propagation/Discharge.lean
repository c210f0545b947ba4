import HeapShape.Proofs.Pass.Fixpoint
import HeapShape.Proofs.Propagation.TopDown

/-
  A step of propagation settles what it was taken for.

  A call that asks for a step up does not ask for it again after the step,
  and neither does one that asks for a step down. Both hold as long as no
  array changes its stride on the way: the copies are aligned once, when
  they are made, and the test of the call aligns the graphs anew.

  Main declarations:
    * `Store.FitsCall`
    * `Copier.KeepsStrides`
    * `Context.yields_decide`
    * `propagation_step_discharges_decision`
-/

-- Stores And Strides

namespace HeapShape

open Checked Graph Copier

/-
  What a call can count on in a store: well-formed graphs of one
  configuration, values of the caller that are bound once, and a result only
  if the callee returns a pointer.
-/
structure Store.FitsCall
    (s : Store)
    (cs : CallSite)
    (callee : FunctionDef) : Prop where
  wellFormed : ∀ f g, s.graph? f = some g → g.WellFormed
  config : ∀ f e g h, s.graph? f = some g →
    s.graph? e = some h → g.config = h.config
  apart : ∀ g, s.graph? cs.caller = some g → g.Apart
  result : ∀ g c, s.graph? callee.id = some g →
    g.roots.get? (.result callee.id) = some c →
      callee.returnsPointer = true

/-
  Every array that was there before, and every array that is copied, lies at
  the end in an array of its stride or in a collapsed node.
-/
structure Copier.KeepsStrides
    (before : Graph)
    (k : Copier) : Prop where
  own : Graph.KeepsStrides before k.dest
  copied : ∀ src c n, k.copies.get? src = some c →
    k.source.slot src = .live n → n.isArray = true →
      k.dest.StrideKept c n.size

variable {before : Graph} {k : Copier}

/- So strides are the same wherever arrays are arrays. -/
theorem Copier.KeepsStrides.strides
    (hKeeps : k.KeepsStrides before)
    (hk : k.Pictured) :
    SameStrides before k.dest ∧ k.Strides k.dest := by
  refine ⟨hKeeps.own.sameStrides hk.dest, ?_⟩
  intro src c n hCopy hLive hArray
  exact (hKeeps.copied src c n hCopy hLive hArray).strideAt hk.dest

instance
    (before : Graph)
    (k : Copier) : Decidable (k.KeepsStrides before) :=
  decidable_of_iff
    (Graph.KeepsStrides before k.dest ∧
      ∀ p ∈ k.source.liveNodes, p.2.isArray = true →
        ∀ c ∈ k.copies.get? p.1,
          k.dest.StrideKept c p.2.size) <| by
    constructor
    · rintro ⟨hOwn, hAll⟩
      refine ⟨hOwn, ?_⟩
      intro src c n hCopy hLive hArray
      exact hAll (src, n) (mem_liveNodes.mpr hLive) hArray c
        hCopy
    · rintro ⟨hOwn, hCopied⟩
      refine ⟨hOwn, ?_⟩
      rintro ⟨src, n⟩ hMem hArray c hCopy
      exact hCopied src c n hCopy (mem_liveNodes.mp hMem)
        hArray

-- Decisions

open Graph Copier Simulation

variable {ctx : Context} {s t : Store} {cs : CallSite} {callee : FunctionDef}
variable {callerGraph calleeGraph : Graph}

/- A decision follows from the test of the call. -/
theorem Context.yields_decide
    {P : Propagation → Prop}
    (hCallee : calleeGraph.WellFormed)
    (hCaller : callerGraph.WellFormed)
    (hPair : s.pair? cs.caller callee.id = some (callerGraph, calleeGraph))
    (hSettled : P .settled)
    (hDown : ∀ sim,
      ofCall cs callee calleeGraph callerGraph = .ok sim →
      sim.isFunction = true →
      sim.isInjective ctx.config.fixpoint.onlyModifiedInjectivity = .ok false → P .down)
    (hUp : ∀ sim,
      ofCall cs callee calleeGraph callerGraph = .ok sim →
      sim.isFunction = false → P .up) :
    Yields (ctx.decide s cs callee) P := by
  unfold Context.decide
  rw [hPair]
  refine (yields_ofCall hCallee hCaller cs callee).and_eq.bind ?_
  rintro sim ⟨_, hSim⟩
  dsimp only
  split
  · next hFunction =>
    refine (sim.yields_isInjective _).and_eq.bind ?_
    rintro injective ⟨_, hInjective⟩
    cases injective with
    | true => exact .ok hSettled
    | false => exact .ok (hDown sim hSim hFunction hInjective)
  · next hFunction =>
    exact .ok (hUp sim hSim (Bool.eq_false_iff.mpr hFunction))

/- After a step up the caller simulates the callee. -/
theorem bottomUpStep_discharges
    (hs : s.FitsCall cs callee)
    (hRun : bottomUpStep ctx.config s cs callee = .ok (some t))
    (hStrides : ∀ calleeGraph callerGraph k,
      s.pair? callee.id cs.caller = some (calleeGraph, callerGraph) →
      bottomUpCopy ctx.config cs callee calleeGraph
        callerGraph = .ok k → k.KeepsStrides callerGraph) :
    Yields (ctx.decide t cs callee) (· ≠ .up) := by
  rcases bottomUpStep_eq_some hRun with
    ⟨calleeGraph, callerGraph, k, h, hPair, hCopy, hCompress,
      rfl⟩
  rcases Store.pair?_eq_some_iff.mp hPair with ⟨_, hCalleeGraph, hCallerGraph⟩
  have hCallee := hs.wellFormed _ _ hCalleeGraph
  have hCaller := hs.wellFormed _ _ hCallerGraph
  rcases bottomUpCopy_eq_ok (E := False) hCallee hCaller hCopy False.elim with
    ⟨_, _, ⟨_, hFirst⟩, _⟩
  have hKept := (hStrides _ _ k hPair hCopy).strides hFirst.pictured
  rcases bottomUpCopy_eq_ok hCallee hCaller hCopy (fun _ => hKept) with
    ⟨rfl, _, ⟨cells, hk⟩, hApart⟩
  have hh := Compressed.of_compress hk.pictured.dest hCompress
  have hSim := hk.isSimulation hKept.2 (hApart (hs.apart _ hCallerGraph)) hh
  refine Context.yields_decide hCallee hh.wellFormed
    (Store.pair?_swap (Store.pair?_setGraph hPair h))
    Propagation.noConfusion
    (fun _ _ _ _ => Propagation.noConfusion) ?_
  intro sim hOf hNot
  rw [(places_below hh.wellFormed hOf hSim).1] at hNot
  cases hNot

/- After a step down no caller node holds two callee nodes. -/
theorem topDownStep_discharges
    {count : Nat}
    (hs : s.FitsCall cs callee)
    (hRun : topDownStep ctx.config s cs callee = .ok (some (count, t)))
    (hStrides : ∀ callerGraph calleeGraph k,
      s.pair? cs.caller callee.id = some (callerGraph, calleeGraph) →
      topDownCopy ctx.config.cloning cs callee callerGraph
        calleeGraph = .ok k → k.KeepsStrides calleeGraph) :
    Yields (ctx.decide t cs callee) (· ≠ .down) := by
  rcases topDownStep_eq_some hRun with
    ⟨callerGraph, calleeGraph, k, h, hPair, hCopy, hCollect,
      rfl⟩
  rcases Store.pair?_eq_some_iff.mp hPair with ⟨_, hCallerGraph, hCalleeGraph⟩
  have hCallee := hs.wellFormed _ _ hCalleeGraph
  have hCaller := hs.wellFormed _ _ hCallerGraph
  have hResult := fun c => hs.result _ c hCalleeGraph
  rcases topDownCopy_eq_ok (E := False) hCaller hCallee hResult hCopy False.elim with ⟨_, _, hFirst⟩
  have hKept := (hStrides _ _ k hPair hCopy).strides hFirst.pictured
  rcases topDownCopy_eq_ok hCaller hCallee hResult hCopy (fun _ => hKept) with ⟨rfl, hConfig, hk⟩
  have hh : Collected k.dest h := by
    rcases hCollect with ⟨_, hPrune⟩ | ⟨_, hCompress⟩
    · exact .of_pruneForeign hk.pictured.dest hPrune
    · exact (Compressed.of_compress hk.pictured.dest hCompress).toCollected
  have hSame : k.dest.config = k.source.config :=
    hConfig.trans (hs.config _ _ _ _ hCalleeGraph hCallerGraph)
  refine Context.yields_decide hh.wellFormed hCaller
    (Store.pair?_setGraph hPair h) Propagation.noConfusion ?_
    (fun _ _ _ => Propagation.noConfusion)
  intro sim hOf hFunction hInjective
  have hApart := hk.apart hKept.2 hSame hh hOf hFunction
  rw [isInjective_of_apart hApart] at hInjective
  cases hInjective

-- Discharge

open Graph Copier

/- Copying a callee up to its caller changes no strides. -/
def Store.KeepsStridesUp
    (s : Store)
    (config : Config)
    (cs : CallSite)
    (callee : FunctionDef) : Prop :=
  ∀ calleeGraph callerGraph k,
    s.pair? callee.id cs.caller =
      some (calleeGraph, callerGraph) →
    bottomUpCopy config cs callee calleeGraph callerGraph =
      .ok k → k.KeepsStrides callerGraph

/- Copying a caller down to its callee changes no strides. -/
def Store.KeepsStridesDown
    (s : Store)
    (config : Config)
    (cs : CallSite)
    (callee : FunctionDef) : Prop :=
  ∀ callerGraph calleeGraph k,
    s.pair? cs.caller callee.id =
      some (callerGraph, calleeGraph) →
    topDownCopy config.cloning cs callee callerGraph
      calleeGraph = .ok k → k.KeepsStrides calleeGraph

/-
  A call that asks for a step can take it, and if no strides change on the
  way it does not ask for that step again.
-/
theorem propagation_step_discharges_decision
    (ctx : Context)
    {s : Store}
    {cs : CallSite}
    {callee : FunctionDef}
    (hs : s.FitsCall cs callee) :
    (ctx.decide s cs callee = .ok .up →
      ∀ t?, bottomUpStep ctx.config s cs callee = .ok t? →
      ∃ t, t? = some t ∧
        (s.KeepsStridesUp ctx.config cs callee →
          Checked.Yields (ctx.decide t cs callee)
            (· ≠ .up))) ∧
    (ctx.decide s cs callee = .ok .down →
      ∀ t?, topDownStep ctx.config s cs callee = .ok t? →
      ∃ count t, t? = some (count, t) ∧
        (s.KeepsStridesDown ctx.config cs callee →
          Checked.Yields (ctx.decide t cs callee)
            (· ≠ .down))) := by
  constructor
  · intro hUp t? hRun
    rcases exists_pair_of_decide hUp Propagation.noConfusion
      with ⟨callerGraph, calleeGraph, hPair⟩
    rcases bottomUpStep_eq_ok hPair t? hRun with ⟨g, rfl⟩
    exact ⟨_, rfl, bottomUpStep_discharges hs hRun⟩
  · intro hDown t? hRun
    rcases exists_pair_of_decide hDown Propagation.noConfusion
      with ⟨callerGraph, calleeGraph, hPair⟩
    rcases topDownStep_eq_ok hPair t? hRun with ⟨n, g, rfl⟩
    exact ⟨n, _, rfl, topDownStep_discharges hs hRun⟩

/- Whether roots bind one value as formal and as scalar. -/
def Root.clashes : Root → Root → Bool
| .formal v, .scalar w => v == w
| _, _ => false

instance
    (g : Graph) : Decidable g.Apart :=
  decidable_of_iff
    (∀ e ∈ g.roots.entries, ∀ e' ∈ g.roots.entries,
      e.1.clashes e'.1 = false) <| by
    constructor
    · intro hAll v c hFormal
      cases hScalar : g.roots.get? (.scalar v) with
      | none => rfl
      | some d =>
          have hNot := hAll _
            ((OrdMap.get?_eq_some_iff _ _ _).mp hFormal) _
            ((OrdMap.get?_eq_some_iff _ _ _).mp hScalar)
          simp [Root.clashes] at hNot
    · rintro hApart ⟨r, c⟩ hMem ⟨r', c'⟩ hMem'
      cases r with
      | formal v =>
          cases r' with
          | scalar w =>
              have hFormal :=
                (OrdMap.get?_eq_some_iff _ _ _).mpr hMem
              have hScalar :=
                (OrdMap.get?_eq_some_iff _ _ _).mpr hMem'
              have hNone := hApart v c hFormal
              refine beq_eq_false_iff_ne.mpr ?_
              rintro rfl
              rw [hNone] at hScalar
              cases hScalar
          | _ => rfl
      | _ => rfl

/- Two well-formed graphs make a store that fits a call. -/
theorem Store.fitsCall_ofPair
    (hCallee : calleeGraph.WellFormed)
    (hCaller : callerGraph.WellFormed)
    (hConfig : calleeGraph.config = callerGraph.config)
    (hApart : calleeGraph.Apart ∧ callerGraph.Apart)
    (hReturns : callee.returnsPointer = true) :
    (ofPair calleeGraph callerGraph).FitsCall cs callee where
  wellFormed := by
    intro f g hGraph
    rcases eq_of_ofPair hGraph with rfl | rfl
    · exact hCallee
    · exact hCaller
  config := by
    intro f e g h hg hh
    rcases eq_of_ofPair hg with rfl | rfl <;>
      rcases eq_of_ofPair hh with rfl | rfl
    · rfl
    · exact hConfig
    · exact hConfig.symm
    · rfl
  apart := by
    intro g hGraph
    rcases eq_of_ofPair hGraph with rfl | rfl
    · exact hApart.1
    · exact hApart.2
  result := fun _ _ _ _ => hReturns

/- Two objects that are written, kept apart by the callee. -/
def pairCallee : List Update :=
  [.createNode (Flags.ofList [.modified]) 8,
    .createNode (Flags.ofList [.modified]) 8,
    .merge (.bindRoot (.formal 0) (some ⟨0, 0⟩)),
    .merge (.bindRoot (.formal 1) (some ⟨1, 0⟩))]

/- One object that is passed twice. -/
def pairCaller : List Update :=
  [.createNode Flags.empty 8,
    .merge (.bindRoot (.scalar 7) (some ⟨0, 0⟩))]

def pairCall : CallSite :=
  { id := 4, caller := 1, target := .direct 0
    actuals := [some 7, some 7] }

def pairFunction : FunctionDef :=
  { id := 0, name := "pair", returnsPointer := true
    formals := [{ value := 0, isPointer := true },
      { value := 1, isPointer := true }] }

/-
  The callee of the first call brings links that its caller lacks. The
  callee of the second call keeps apart what its caller passes twice.
-/
theorem propagation_step_discharges_decision_of_pairs :
    (∃ s t, s.FitsCall fillCall fillFunction ∧
      Context.decide ⟨{}, {}, {}⟩ s fillCall fillFunction =
        .ok .up ∧
      bottomUpStep {} s fillCall fillFunction =
        .ok (some t) ∧
      Checked.Yields (Context.decide ⟨{}, {}, {}⟩ t fillCall
        fillFunction) (· ≠ .up)) ∧
    ∃ s count t, s.FitsCall pairCall pairFunction ∧
      Context.decide ⟨{}, {}, {}⟩ s pairCall pairFunction =
        .ok .down ∧
      topDownStep {} s pairCall pairFunction =
        .ok (some (count, t)) ∧
      Checked.Yields (Context.decide ⟨{}, {}, {}⟩ t pairCall
        pairFunction) (· ≠ .down) := by
  constructor
  · rcases Update.exists_runs {} fillCallee fillCaller
        (P := fun g h =>
          g.config = h.config ∧ (g.Apart ∧ h.Apart) ∧
          Context.decide ⟨{}, {}, {}⟩ (Store.ofPair g h)
            fillCall fillFunction = .ok .up ∧
          (bottomUpStep {} (Store.ofPair g h) fillCall
            fillFunction).map Option.isSome = .ok true ∧
          (bottomUpCopy {} fillCall fillFunction g h).map
            (fun k => decide (k.KeepsStrides h)) = .ok true)
        (by decide) (by decide +kernel) with
      ⟨callee, caller, _, _, hCallee, hCaller, hConfig, hApart,
        hUp, hStep, hStrides⟩
    have hs : (Store.ofPair callee caller).FitsCall fillCall
        fillFunction :=
      Store.fitsCall_ofPair hCallee hCaller hConfig hApart rfl
    rcases Checked.map_eq_ok_iff.mp hStep with ⟨t?, hRun, _⟩
    rcases (propagation_step_discharges_decision ⟨{}, {}, {}⟩
        hs).1 hUp t? hRun with ⟨t, rfl, hDone⟩
    refine ⟨_, t, hs, hUp, hRun, hDone ?_⟩
    intro calleeGraph callerGraph k hPair hCopy
    cases hPair
    rcases Checked.map_eq_ok_iff.mp hStrides with
      ⟨k', hCopy', hKeeps⟩
    cases hCopy.symm.trans hCopy'
    exact of_decide_eq_true hKeeps
  · rcases Update.exists_runs {} pairCallee pairCaller
        (P := fun g h =>
          g.config = h.config ∧ (g.Apart ∧ h.Apart) ∧
          Context.decide ⟨{}, {}, {}⟩ (Store.ofPair g h)
            pairCall pairFunction = .ok .down ∧
          (topDownStep {} (Store.ofPair g h) pairCall
            pairFunction).map Option.isSome = .ok true ∧
          (topDownCopy {} pairCall pairFunction h g).map
            (fun k => decide (k.KeepsStrides g)) = .ok true)
        (by decide) (by decide +kernel) with
      ⟨callee, caller, _, _, hCallee, hCaller, hConfig, hApart,
        hDown, hStep, hStrides⟩
    have hs : (Store.ofPair callee caller).FitsCall pairCall
        pairFunction :=
      Store.fitsCall_ofPair hCallee hCaller hConfig hApart rfl
    rcases Checked.map_eq_ok_iff.mp hStep with ⟨t?, hRun, _⟩
    rcases (propagation_step_discharges_decision ⟨{}, {}, {}⟩
        hs).2 hDown t? hRun with ⟨count, t, rfl, hDone⟩
    refine ⟨_, count, t, hs, hDown, hRun, hDone ?_⟩
    intro callerGraph calleeGraph k hPair hCopy
    cases hPair
    rcases Checked.map_eq_ok_iff.mp hStrides with
      ⟨k', hCopy', hKeeps⟩
    cases hCopy.symm.trans hCopy'
    exact of_decide_eq_true hKeeps

/- Two formals in one array, a stride apart. -/
def narrowCallee : List Update :=
  [.createNode Flags.empty 8,
    .merge (.setArray 0 8),
    .merge (.bindRoot (.formal 0) (some ⟨0, 0⟩)),
    .merge (.bindRoot (.formal 1) (some ⟨0, 8⟩))]

/- An array of a wider stride, and another object. -/
def wideCaller : List Update :=
  [.createNode Flags.empty 64,
    .merge (.setArray 0 16),
    .createNode Flags.empty 8,
    .merge (.bindRoot (.scalar 7) (some ⟨0, 0⟩)),
    .merge (.bindRoot (.scalar 8) (some ⟨1, 0⟩))]

def wideCall : CallSite :=
  { id := 4, caller := 1, target := .direct 0
    actuals := [some 7, some 8] }

/-
  Where strides change, a step can be asked for again. The copy of the
  narrow array is widened, so the second object comes to lie in the middle
  of an element. Both formals had one address in the callee, and the caller
  has two for them.
-/
theorem step_up_repeats_at_wider_array :
    ∃ s t, s.FitsCall wideCall pairFunction ∧
      Context.decide ⟨{}, {}, {}⟩ s wideCall pairFunction = .ok .up ∧
      bottomUpStep {} s wideCall pairFunction = .ok (some t) ∧
      Context.decide ⟨{}, {}, {}⟩ t wideCall pairFunction = .ok .up := by
  rcases Update.exists_runs {} narrowCallee wideCaller (P := fun g h =>
        g.config = h.config ∧ (g.Apart ∧ h.Apart) ∧
        Context.decide ⟨{}, {}, {}⟩ (Store.ofPair g h) wideCall pairFunction = .ok .up ∧
        (do
          let t? ← bottomUpStep {} (Store.ofPair g h) wideCall pairFunction
          Context.decide ⟨{}, {}, {}⟩ (t?.getD {}) wideCall pairFunction) = .ok .up)
      (by decide) (by decide +kernel) with
    ⟨callee, caller, _, _, hCallee, hCaller, hConfig, hApart, hUp, hAgain⟩
  rcases of_bind hAgain with ⟨t?, hRun, hAgain⟩
  cases t? with
  | none => cases hAgain
  | some t =>
    exact ⟨_, t, Store.fitsCall_ofPair hCallee hCaller hConfig hApart rfl, hUp, hRun, hAgain⟩

end HeapShape
