import HeapShape.Proofs.CallGraph.Components
import HeapShape.Proofs.Pass.Marked
import HeapShape.Proofs.Pass.Stable

/-
  Memory that unknown code has been handed is marked.

  After a bottom-up or a context-insensitive run, the values of every call
  of unknown code lie in marked nodes. All the memory that they reached at
  the turn of the call stays marked. All that they reach in the end is
  marked, too, if no call that is resolved later in the same graph has a
  callee with a body. Such a callee may link memory to what was marked
  before.

  Main declarations:
    * `Graph.Holds`
    * `Context.Quiet`
    * `unknown_calls_mark_memory`
    * `unmarked_linksLate`
-/

-- Cleaning

namespace HeapShape

open Checked

namespace Graph

variable {g h : Graph} {count : Nat} {cs : CallSite}

/- Recorded calls are forgotten and dead nodes freed. -/
theorem clean_eq_ok
    (hg : g.WellFormed)
    (hRun : g.clean = .ok (count, h)) :
    Rests g g.clearCallSites ∧ Collected g.clearCallSites h := by
  have hCleared : Rests g g.clearCallSites := .of_same hg rfl rfl rfl rfl
  exact ⟨hCleared, .of_removeDead hCleared.later.wellFormed hRun⟩

theorem Tends.clean
    (hg : g.WellFormed)
    (hRun : g.clean = .ok (count, h)) :
    Tends g h := by
  rcases clean_eq_ok hg hRun with ⟨hCleared, hCollected⟩
  exact (Tends.join .forget hCleared.later).trans
    (.free (.inr ⟨count, hRun⟩) hCollected)

theorem CallSealed.clean
    (hg : g.WellFormed)
    (hSealed : g.CallSealed cs)
    (hRun : g.clean = .ok (count, h)) :
    h.CallSealed cs := by
  rcases clean_eq_ok hg hRun with ⟨hCleared, hCollected⟩
  exact (hSealed.calm hg hCleared.calm hCleared.later).collected hCollected

end Graph

-- One Graph For A Program

/- The call of a number, if its caller has a body. -/
def Context.ownCall
    (ctx : Context)
    (id : CallSiteId) : List CallSite :=
  (ctx.callSite? id).toList.filter fun cs =>
    (ctx.function? cs.caller).any FunctionDef.hasBody

/- A graph in order, with the formals of all functions. -/
structure Graph.Holds
    (ctx : Context)
    (g : Graph) : Prop where
  wellFormed : g.WellFormed
  origin : ∀ f, ctx.function? f.id = some f →
    f.hasBody = true →
    g.LoweredFrom ctx.program ctx.config.graph f.id
  binds : ∀ f, ctx.function? f.id = some f →
    f.hasBody = true → g.BindsFormals f

/-
  What resolving a call does to the one graph of a program.
-/
structure Graph.Settles
    (ctx : Context)
    (cs : CallSite)
    (g h : Graph) : Prop where
  tends : Tends g h
  calm : ctx.definedCallees cs = [] →
    ∀ c, g.CallSealed c → h.CallSealed c
  isSealed : ctx.IsUnknown cs →
    h.Handed ctx.program ctx.config.graph cs ∧
      h.CallSealed cs

variable {cs : CallSite}

/- A call with an unknown callee is not complete. -/
theorem Context.IsUnknown.merge_test_eq_true
    {ctx : Context}
    {r : CallResolution}
    (hUnknown : ctx.IsUnknown cs)
    (hr : ctx.callGraph.resolution? cs.id = some r) :
    (!(r.fullyResolved && r.callees.length == (ctx.definedCallees cs).length)
      || (ctx.definedCallees cs).isEmpty) = true := by
  have hCallees : ctx.callees cs = r.callees.filterMap ctx.function? := by
    unfold Context.callees
    rw [hr]
  have hBound : (ctx.callees cs).length ≤ r.callees.length := by
    rw [hCallees]
    exact List.length_filterMap_le _ _
  rcases hUnknown with ⟨_, hr', hWhy⟩
  rw [hr] at hr'
  cases hr'
  rcases hWhy with hPart | hNone | ⟨f, hf, hBody⟩
  · rw [hPart]
    rfl
  · have hEmpty : ctx.definedCallees cs = [] := by
      unfold Context.definedCallees
      rw [hCallees, hNone]
      rfl
    rw [hEmpty]
    exact Bool.or_true _
  · -- One callee is left out, so the lengths differ.
    have hLess : (ctx.definedCallees cs).length < (ctx.callees cs).length := by
      refine List.length_filter_lt_length_iff_exists.mpr ⟨f, hf, ?_⟩
      rw [hBody]
      exact Bool.false_ne_true
    have hTest : (r.callees.length == (ctx.definedCallees cs).length) = false := by
      rw [beq_eq_false_iff_ne]
      omega
    rw [hTest, Bool.and_false]
    rfl

/- One call is resolved. -/
theorem Attends.one
    {σ : Type}
    {M S : σ → Prop}
    {Harmless : CallSite → Prop}
    {c : CallSite}
    {s t : σ}
    (hMarked : c = cs ∨ M s → M t)
    (hSealed : c = cs → S t)
    (hCalm : Harmless c → S s → S t) :
    Attends M S Harmless cs [c] s t where
  marked := by
    intro h
    rw [List.mem_singleton, eq_comm] at h
    exact hMarked h
  isSealed := by
    intro hAfter h
    by_cases hEq : c = cs
    · exact hSealed hEq
    · rw [List.mem_singleton, eq_comm, or_iff_right hEq] at h
      refine hCalm (hAfter c ?_) h
      simp [callsAfter, hEq]

namespace Graph

variable {ctx : Context} {cs c : CallSite} {g h : Graph}

theorem Holds.tends
    (hg : g.Holds ctx)
    (hgh : Tends g h) :
    h.Holds ctx where
  wellFormed := hgh.wellFormed
  origin := by
    rcases hgh.proceeds with ⟨_, hOn⟩
    exact fun f hFind hBody =>
      (hg.origin f hFind hBody).proceeds hOn
  binds := fun f hFind hBody =>
    hgh.binds f (hg.binds f hFind hBody)

/- The callees with a body are connected in the graph. -/
theorem Holds.tends_resolveAll
    (hg : g.Holds ctx)
    (hRun : (ctx.definedCallees cs).foldlM (fun g callee => resolveInPlace g cs callee) g = .ok h) :
    Tends g h := by
  refine foldlM_induction (P := Tends g) ?_ (.refl hg.wellFormed) hRun
  intro g₁ callee hMem g₂ hTends hStep
  rcases List.mem_filter.mp hMem with ⟨hMem, hBody⟩
  have hg₁ := hg.tends hTends
  have hBinds := hg₁.binds callee (Context.function?_of_mem_callees hMem) hBody
  exact hTends.trans (.join (.connect hStep)
    (.resolveInPlace hg₁.wellFormed hBinds hStep))

/- What is left to do after the callees are connected. -/
theorem Holds.settles_mark
    (hg : g.Holds ctx)
    {g₁ : Graph}
    {caller : FunctionDef}
    (hCaller : ctx.function? cs.caller = some caller)
    (hBody : caller.hasBody = true)
    (hCallees : (ctx.definedCallees cs).foldlM
      (fun g callee => resolveInPlace g cs callee) g = .ok g₁)
    (hMark : markExternal g₁ cs = .ok h) :
    Settles ctx cs g h := by
  have hFirst := hg.tends_resolveAll hCallees
  rcases Rests.markExternal hFirst.wellFormed hMark with ⟨hRests, hSealed⟩
  have hFrom := (hg.tends hFirst).origin caller
  rw [(CallGraph.function?_eq_some hCaller).2] at hFrom
  refine ⟨hFirst.trans (.join (.mark hMark) hRests.later), ?_, fun _ =>
    ⟨.of_markExternal hFirst.wellFormed (hFrom hCaller hBody) hMark, hSealed⟩⟩
  intro hEmpty d hd
  rw [hEmpty] at hCallees
  cases hCallees
  exact hd.calm hg.wellFormed hRests.calm hRests.later

/- A settled call has been attended to. -/
theorem Settles.attends
    (hgh : Settles ctx c g h)
    (hUnknown : ctx.IsUnknown cs) :
    Attends (Graph.Handed ctx.program ctx.config.graph cs) (fun g => g.CallSealed cs)
      (fun c => ctx.definedCallees c = []) cs [c] g h := by
  refine .one ?_ ?_ fun hEmpty => hgh.calm hEmpty cs
  · intro hOr
    rcases hOr with rfl | hHanded
    · exact (hgh.isSealed hUnknown).1
    · exact hgh.tends.handed hHanded
  · rintro rfl
    exact (hgh.isSealed hUnknown).2

variable {id : CallSiteId}

/- The call of a caller with a body is resolved. -/
theorem Holds.settles_mergeCall
    (hg : g.Holds ctx)
    {caller : FunctionDef}
    (hFind : ctx.callSite? id = some c)
    (hCaller : ctx.function? c.caller = some caller)
    (hBody : caller.hasBody = true)
    (hRun : Analysis.mergeCall ctx g id = .ok h) :
    Settles ctx c g h := by
  unfold Analysis.mergeCall at hRun
  rw [hFind] at hRun
  dsimp only at hRun
  rw [hCaller] at hRun
  dsimp only at hRun
  rw [if_pos hBody] at hRun
  rcases of_bind hRun with ⟨g₁, hCallees, hRun⟩
  cases hr : ctx.callGraph.resolution? c.id with
  | none =>
    rw [hr] at hRun
    exact hg.settles_mark hCaller hBody hCallees hRun
  | some r =>
    rw [hr] at hRun
    dsimp only at hRun
    split at hRun
    · exact hg.settles_mark hCaller hBody hCallees hRun
    · next hSkip =>
      cases hRun
      refine ⟨hg.tends_resolveAll hCallees, ?_, ?_⟩
      · intro hEmpty
        rw [hEmpty] at hSkip
        exact (hSkip (Bool.or_true _)).elim
      · intro hUnknown
        exact (hSkip (hUnknown.merge_test_eq_true hr)).elim

/- The calls of a program get their turns in one graph. -/
theorem Holds.attends_mergeCall
    (hg : g.Holds ctx)
    (hUnknown : ctx.IsUnknown cs)
    (hRun : Analysis.mergeCall ctx g id = .ok h) :
    h.Holds ctx ∧ Attends (Graph.Handed ctx.program ctx.config.graph cs) (fun g => g.CallSealed cs)
        (fun c => ctx.definedCallees c = []) cs
        (ctx.ownCall id) g h := by
  have hSkipped : ctx.ownCall id = [] → Analysis.mergeCall ctx g id = .ok g →
      h.Holds ctx ∧ Attends (Graph.Handed ctx.program ctx.config.graph cs) (fun g => g.CallSealed cs)
          (fun c => ctx.definedCallees c = []) cs
          (ctx.ownCall id) g h := by
    intro hNone hSame
    rw [hRun] at hSame
    cases hSame
    rw [hNone]
    exact ⟨hg, .refl g⟩
  cases hFind : ctx.callSite? id with
  | none =>
    refine hSkipped ?_ ?_
    · rw [Context.ownCall, hFind]
      rfl
    · rw [Analysis.mergeCall, hFind]
  | some c =>
    have hOwn : ctx.ownCall id = [c].filter fun cs =>
        (ctx.function? cs.caller).any
          FunctionDef.hasBody := by
      rw [Context.ownCall, hFind, Option.toList_some]
    rw [List.filter_singleton] at hOwn
    cases hCaller : ctx.function? c.caller with
    | none =>
      refine hSkipped ?_ ?_
      · rw [hOwn, hCaller]
        rfl
      · simp only [Analysis.mergeCall, hFind, hCaller]
    | some caller =>
      rw [hCaller, Option.any_some] at hOwn
      cases hBody : caller.hasBody with
      | false =>
        refine hSkipped ?_ ?_
        · rw [hOwn, hBody]
          rfl
        · simp only [Analysis.mergeCall, hFind, hCaller, hBody, Bool.false_eq_true, if_false]
      | true =>
        have hStep := hg.settles_mergeCall hFind hCaller hBody hRun
        rw [hOwn, hBody]
        exact ⟨hg.tends hStep.tends, hStep.attends hUnknown⟩

end Graph

-- Runs

/- The calls of a run, in the order of their turns. -/
def Context.agenda
    (ctx : Context) : List CallSite :=
  match ctx.config.kind with
  | .contextInsensitive =>
    ctx.callGraph.order.flatMap ctx.ownCall
  | _ => ctx.callGraph.components.flatMap ctx.callsOf

/-
  Callees with a body are connected to no call that has its turn after a
  call and works on the same graph.
-/
def Context.Quiet
    (ctx : Context)
    (cs : CallSite) : Prop :=
  ∀ c ∈ callsAfter cs ctx.agenda,
    ctx.config.kind = .contextInsensitive ∨
      ctx.Together c.caller cs.caller →
    ctx.definedCallees c = []

/- A function with a body calls unknown code. -/
structure Context.CallsUnknown
    (ctx : Context)
    (cs : CallSite) : Prop where
  found : ctx.callSite? cs.id = some cs
  caller : ∃ f, ctx.function? cs.caller = some f ∧
    f.hasBody = true
  unknown : ctx.IsUnknown cs

instance
    (ctx : Context)
    (cs : CallSite) : Decidable (ctx.IsUnknown cs) :=
  decidable_of_iff
    ((ctx.callGraph.resolution? cs.id).any (fun r =>
      !r.fullyResolved || r.callees.isEmpty
        || (ctx.callees cs).any fun f => !f.hasBody) = true)
    (by simp [Context.IsUnknown, Option.any_eq_true,
      or_assoc])

instance
    (ctx : Context)
    (cs : CallSite) : Decidable (ctx.CallsUnknown cs) :=
  decidable_of_iff
    (ctx.callSite? cs.id = some cs ∧
      (ctx.function? cs.caller).any FunctionDef.hasBody =
        true ∧
      ctx.IsUnknown cs)
    ⟨fun h => ⟨h.1, (Option.any_eq_true _ _).mp h.2.1, h.2.2⟩,
      fun h => ⟨h.found, (Option.any_eq_true _ _).mpr h.caller,
        h.unknown⟩⟩

instance
    (ctx : Context)
    (e f : FunctionId) : Decidable (ctx.Together e f) :=
  inferInstanceAs (Decidable (∃ fs ∈ _, _))

instance
    (ctx : Context)
    (cs : CallSite) : Decidable (ctx.Quiet cs) :=
  inferInstanceAs (Decidable (∀ c ∈ _, _ → _))

/-
  The call had its turn in the graph of its caller, and is sealed if all is
  quiet after it.
-/
def Analysis.MarksCall
    (a : Analysis)
    (ctx : Context)
    (cs : CallSite) : Prop :=
  ∃ g, a.graph? cs.caller = some g ∧
    g.Handed ctx.program ctx.config.graph cs ∧
    (ctx.Quiet cs → g.CallSealed cs)

section Runs

variable {a a' : Analysis} {p : Program} {config : Config} {cs : CallSite}

theorem Context.CallsUnknown.mem_sortedCallSites
    (hcs : (Context.ofProgram p config).CallsUnknown cs) :
    cs ∈ p.sortedCallSites :=
  CallGraph.mem_sortedCallSites_iff.mpr (CallGraph.callSite?_eq_some hcs.found).1

theorem Context.CallsUnknown.caller_mem
    (hcs : (Context.ofProgram p config).CallsUnknown cs) :
    cs.caller ∈ (p.functions.filter FunctionDef.hasBody).map FunctionDef.id := by
  rcases hcs.caller with ⟨f, hFind, hBody⟩
  rcases CallGraph.function?_eq_some hFind with ⟨hf, hId⟩
  rw [← hId]
  exact List.mem_map_of_mem (List.mem_filter.mpr ⟨hf, hBody⟩)

/- Such a call has its turn in the graph of the program. -/
theorem Context.CallsUnknown.mem_ownCalls
    (hcs : (Context.ofProgram p config).CallsUnknown cs) :
    cs ∈ (CallGraph.ofProgram p).order.flatMap (Context.ofProgram p config).ownCall := by
  refine List.mem_flatMap.mpr ⟨cs.id, ?_, ?_⟩
  · rw [(CallGraph.indexes_ofProgram p).order]
    exact List.mem_map_of_mem hcs.mem_sortedCallSites
  · rcases hcs.caller with ⟨f, hFind, hBody⟩
    rw [Context.ownCall, hcs.found]
    refine List.mem_filter.mpr ⟨List.mem_singleton_self cs, ?_⟩
    rw [hFind, Option.any_some, hBody]

/- It has its turn with the component of its caller. -/
theorem Context.CallsUnknown.exists_component
    (hcs : (Context.ofProgram p config).CallsUnknown cs) :
    ∃ fs ∈ (CallGraph.ofProgram p).components, cs.caller ∈ (Context.ofProgram p config).members fs ∧
        cs ∈ (Context.ofProgram p config).callsOf fs := by
  rcases hcs.caller with ⟨f, hFind, hBody⟩
  rcases CallGraph.function?_eq_some hFind with ⟨hf, hId⟩
  rcases CallGraph.exists_component hf with ⟨fs, hfs, hIn⟩
  have hMember : cs.caller ∈ (Context.ofProgram p config).members fs := by
    rw [← hId] at hFind ⊢
    exact List.mem_map_of_mem (Context.mem_bodies_iff.mpr ⟨hIn, hFind, hBody⟩)
  exact ⟨fs, hfs, hMember, Context.mem_callsOf hMember
    ((CallGraph.indexes_ofProgram p).defs cs hcs.mem_sortedCallSites) hcs.found⟩

/- A lowered program has the formals of its functions. -/
theorem holds_of_lowerFunctions
    (hWords : p.InWords)
    (config : Config)
    {g : Graph}
    (hRun : lowerFunctions p
      (p.functions.filter FunctionDef.hasBody)
      { config := config.graph } = .ok (.ok g)) :
    g.Holds (.ofProgram p config) := by
  rcases bindsFormals_of_lowerFunctions hWords (fun f hf => List.mem_of_mem_filter hf) config.graph
      hRun with
    ⟨hg, hBinds⟩
  have hMem : ∀ f, (Context.ofProgram p config).function? f.id = some f →
      f.hasBody = true → f ∈ p.functions.filter FunctionDef.hasBody :=
    fun f hFind hBody => List.mem_filter.mpr
      ⟨(CallGraph.function?_eq_some hFind).1, hBody⟩
  refine ⟨hg, fun f hFind hBody => ?_, fun f hFind hBody => hBinds f (hMem f hFind hBody)⟩
  exact ⟨_, g, _, List.mem_map_of_mem (hMem f hFind hBody), hRun, .start⟩

theorem marksCall_of_runContextInsensitive
    (hWords : p.InWords)
    (hKind : a.config.kind = .contextInsensitive)
    (hcs : (Context.ofProgram p a.config).CallsUnknown cs)
    (hRun : a.runContextInsensitive p = .ok (.ok (), a')) :
    a'.MarksCall (.ofProgram p a.config) cs := by
  unfold Analysis.runContextInsensitive at hRun
  dsimp only at hRun
  rcases of_bind hRun with ⟨lowered, hLower, hRun⟩
  cases lowered with
  | error e => cases hRun
  | ok g =>
    dsimp only at hRun
    rcases of_bind hRun with ⟨g₁, hCalls, hRun⟩
    rcases of_bind hRun with ⟨g₂, hCompress, hRun⟩
    rcases of_bind hRun with ⟨⟨count, g₃⟩, hClean, hRun⟩
    cases hRun
    rcases Attends.foldlM (fun g id _ h hg =>
        hg.attends_mergeCall hcs.unknown)
        (holds_of_lowerFunctions hWords a.config hLower)
        hCalls with
      ⟨hg₁, hAttends⟩
    have hPacked := (Graph.Compressed.of_compress hg₁.wellFormed hCompress).toCollected
    have hg₂ := hPacked.wellFormed
    have hg₃ := (Graph.clean_eq_ok hg₂ hClean).2.wellFormed
    have hNoted := Graph.Rests.foldl_addFunction hg₃
      ((p.functions.filter FunctionDef.hasBody).map FunctionDef.id)
    have hGraph := Store.graph?_insert (s := {}) (e := cs.caller) nofun
      ((p.functions.filter FunctionDef.hasBody).map FunctionDef.id) g₃
    rw [if_pos hcs.caller_mem] at hGraph
    refine ⟨_, hGraph, ?_, ?_⟩
    · have hHanded := hAttends.marked (.inl hcs.mem_ownCalls)
      exact (((Graph.Tends.free (.inl hCompress) hPacked).trans
        (.clean hg₂ hClean)).trans (.join (.note _) hNoted.later)).handed hHanded
    · intro hQuiet
      have hSealed : g₁.CallSealed cs := by
        refine hAttends.isSealed ?_ (.inl hcs.mem_ownCalls)
        intro c hc
        refine hQuiet c ?_ (.inl hKind)
        rw [Context.agenda]
        simpa only [Context.ofProgram, hKind] using hc
      exact ((hSealed.collected hPacked).clean hg₂ hClean).calm hg₃ hNoted.calm hNoted.later

theorem marksCall_of_runBottomUp
    (hWords : p.InWords)
    (hKind : a.config.kind = .bottomUp)
    (hcs : (Context.ofProgram p a.config).CallsUnknown cs)
    {answer : BottomUpStats × Option TopDownStats}
    (hRun : a.runBottomUp p false = .ok (.ok answer, a')) :
    a'.MarksCall (.ofProgram p a.config) cs := by
  unfold Analysis.runBottomUp at hRun
  dsimp only at hRun
  rcases of_bind hRun with ⟨⟨up, s⟩, hPass, hRun⟩
  cases up with
  | error e => cases hRun
  | ok up =>
    dsimp only at hRun
    rw [if_neg Bool.false_ne_true] at hRun
    rcases of_bind hRun with ⟨⟨_, _⟩, hPure, hRun⟩
    cases hPure
    rcases of_bind hRun with ⟨⟨counts, t⟩, hClean, hRun⟩
    cases hRun
    have hDefs := (CallGraph.indexes_ofProgram p).defs cs hcs.mem_sortedCallSites
    have hPasses : Store.Passes (.ofProgram p a.config) cs _ _ {} s :=
      Store.passes_bottomUpPass hWords hcs.unknown hDefs hcs.found hPass
    rcases hcs.exists_component with ⟨fs, hfs, hMember, hTurn⟩
    have hOwns := hPasses.owns cs.caller (.inr (List.mem_flatMap.mpr ⟨fs, hfs, hMember⟩))
    rcases Option.isSome_iff_exists.mp hOwns with ⟨i, hi⟩
    rcases Option.isSome_iff_exists.mp (Store.isSome_graph?_iff.mpr
          ⟨i, hi, hPasses.grouped.bound _ i hi⟩) with
      ⟨g, hGraph⟩
    have hg := hPasses.grouped.wellFormed _ g hGraph
    rcases (Store.mapGraphs_eq_ok hClean).2 _ g hGraph with ⟨count, h, hStep, hFinal⟩
    have hListed := List.mem_flatMap.mpr ⟨fs, hfs, hTurn⟩
    refine ⟨h, hFinal, ?_, ?_⟩
    · exact (Graph.Tends.clean hg hStep).handed (hPasses.attends.marked (.inl hListed) g hGraph)
    · intro hQuiet
      refine (hPasses.attends.isSealed ?_ (.inl hListed) g hGraph).clean hg hStep
      intro c hc hShared
      refine hQuiet c ?_ (.inr hShared)
      rw [Context.agenda]
      simpa only [Context.ofProgram, hKind] using hc

/- A run of one of the two kinds marks the call. -/
theorem Analysis.marksCall_of_run
    (hWords : p.InWords)
    (hKind : a.config.kind = .bottomUp ∨
      a.config.kind = .contextInsensitive)
    {stats : AnalysisStats}
    (hRun : a.run p = .ok (.ok stats, a'))
    (hcs : (Context.ofProgram p a.config).CallsUnknown cs) :
    a'.MarksCall (.ofProgram p a.config) cs := by
  unfold Analysis.run Analysis.runParts at hRun
  rcases of_bind hRun with ⟨⟨answer, a₁⟩, hParts, hRun⟩
  cases answer with
  | error e => cases hRun
  | ok blank =>
    cases hRun
    rcases hKind with hKind | hKind
    · rw [hKind] at hParts
      rcases of_bind hParts with ⟨⟨up, _⟩, hUp, hParts⟩
      cases up with
      | error e => cases hParts
      | ok answer =>
        cases hParts
        exact marksCall_of_runBottomUp hWords hKind hcs hUp
    · rw [hKind] at hParts
      rcases of_bind hParts with ⟨⟨whole, _⟩, hWhole, hParts⟩
      cases whole with
      | error e => cases hParts
      | ok answer =>
        cases hParts
        exact marksCall_of_runContextInsensitive hWords hKind
          hcs hWhole

end Runs

/-
  After a bottom-up or a context-insensitive run, a call of unknown code has
  its values in marked nodes. All that they reached at the turn of the call
  was marked then and is marked still, whatever node it has become. All that
  they reach in the end is marked, if the run connects no callee to a later
  call in the same graph.
-/
theorem unknown_calls_mark_memory
    (a : Analysis)
    (p : Program)
    (hWords : p.InWords)
    (hKind : a.config.kind = .bottomUp ∨
      a.config.kind = .contextInsensitive)
    {stats : AnalysisStats}
    {a' : Analysis}
    (hRun : a.run p = .ok (.ok stats, a'))
    {cs : CallSite}
    (hcs : (Context.ofProgram p a.config).CallsUnknown cs) :
    ∃ g, a'.graph? cs.caller = some g ∧
      g.CallMarked cs ∧
      (∃ before turn R,
        before.LoweredFrom p a.config.graph cs.caller ∧
        markExternal before cs = .ok turn ∧
        turn.CallSealed cs ∧
        Graph.Proceeds turn R g ∧
        ∀ x n y, turn.slot x = .live n → n.Marked → R x y →
          ∃ n', g.slot y = .live n' ∧ n'.Marked) ∧
      ((Context.ofProgram p a.config).Quiet cs →
        g.CallSealed cs) := by
  rcases Analysis.marksCall_of_run hWords hKind hRun hcs with
    ⟨g, hGraph, ⟨before, turn, R, hFrom, hMark, hTurn, hThen,
      hOn⟩, hSealed⟩
  refine ⟨g, hGraph, hOn.callMarked (hThen.marked hTurn),
    ⟨before, turn, R, hFrom, hMark, hThen, hOn, ?_⟩, hSealed⟩
  intro x n y hLive hn hy
  exact hOn.marked hLive hn hy

/- An object with a link to another is handed over. -/
def handsOver : Program where
  functions :=
    [{ id := 0, name := "main", body := [.alloc 0 0 .heap 8 none, .alloc 1 1 .heap 8 none,
         .store 0 (some 1) none] },
      { id := 1, name := "hand", formals := [⟨2, true⟩], isDeclaration := true }]
  callSites :=
    [{ id := 0, caller := 0, target := .direct 1, actuals := [some 0] }]

theorem unknown_calls_mark_memory_of_handsOver :
    ∃ stats a g cs,
      (Analysis.new { kind := .bottomUp }).run handsOver =
        .ok (.ok stats, a) ∧
      (Context.ofProgram handsOver
        { kind := .bottomUp }).CallsUnknown cs ∧
      cs.values = [0] ∧
      a.graph? cs.caller = some g ∧ g.CallSealed cs := by
  have hRun : (do
      let ran ←
        (Analysis.new { kind := .bottomUp }).run handsOver
      return ran.1.toOption.isSome) = Except.ok true := by
    cbv
  rw [Checked.bind_eq_ok_iff] at hRun
  rcases hRun with ⟨⟨answer, a⟩, hRun, hOk⟩
  cases answer with
  | error e => cases hOk
  | ok stats =>
      have hcs : (Context.ofProgram handsOver
          { kind := .bottomUp }).CallsUnknown
            { id := 0
              caller := 0
              target := .direct 1
              actuals := [some 0] } :=
        of_decide_eq_true (by cbv)
      rcases unknown_calls_mark_memory _ handsOver (by decide)
          (.inl rfl) hRun hcs with
        ⟨g, hGraph, _, _, hSealed⟩
      exact ⟨stats, a, g, _, hRun, hcs, rfl, hGraph,
        hSealed (of_decide_eq_true (by cbv))⟩

/- A link to an unmarked node breaks the seal of a call. -/
theorem Graph.not_callSealed_of_link
    {g : Graph}
    {v : ValueId}
    (hv : v ∈ cs.values)
    {c t : Cell}
    {f : Field}
    {n m : Node}
    (hRoot : g.roots.get? (g.callRoot v) = some c)
    (hFrom : g.slot c.node = .live n)
    (hLink : n.links.get? f = some t)
    (hTo : g.slot t.node = .live m)
    (hm : ¬ m.Marked) :
    ¬ g.CallSealed cs := by
  intro hSealed
  rcases hSealed v hv with ⟨d, hRoot', hSeals⟩
  rw [hRoot] at hRoot'
  cases hRoot'
  have hReaches : g.Reaches c.node t.node :=
    .link (.here (.live hFrom)) ⟨n, f, 0, hFrom, hLink, .live hTo⟩
  exact hm (hSeals t.node m hReaches hTo)

/-
  One object is handed over, then it is linked to another by a call of a
  function with a body.
-/
def linksLate : Program where
  functions :=
    [{ id := 0, name := "main", body := [.alloc 0 0 .heap 8 none, .alloc 1 1 .heap 8 none] },
      { id := 1, name := "hand", formals := [⟨2, true⟩], isDeclaration := true },
      { id := 2, name := "link", formals := [⟨3, true⟩, ⟨4, true⟩]
        body := [.store 3 (some 4) none] }]
  callSites :=
    [{ id := 0, caller := 0, target := .direct 1, actuals := [some 0] },
      { id := 1, caller := 0, target := .direct 2, actuals := [some 0, some 1] }]

/-
  The second object can be reached from the first one when the run ends, and
  it is not marked.
-/
theorem unmarked_linksLate
    (kind : AnalysisKind)
    (hKind : kind = .bottomUp ∨ kind = .contextInsensitive) :
    ∃ stats a g cs, (Analysis.new { kind := kind }).run linksLate = .ok (.ok stats, a) ∧
      (Context.ofProgram linksLate { kind := kind }).CallsUnknown cs ∧
      a.graph? cs.caller = some g ∧ ¬ g.CallSealed cs := by
  have hRun : (do
      let ran ← (Analysis.new { kind := kind }).run linksLate
      return (ran.1.toOption.isSome, (ran.2.graph? 0).bind fun g =>
          (g.roots.get? (g.callRoot 0)).bind fun c =>
            (g.slot c.node).node?.bind fun n =>
              (n.links.get? ⟨0, none⟩).bind fun t =>
                (g.slot t.node).node?.map fun m =>
                  decide m.Marked)) =
        Except.ok (true, some false) := by
    rcases hKind with rfl | rfl
    · cbv
    · cbv
  rcases of_bind hRun with ⟨⟨answer, a⟩, hRun, hEnd⟩
  rw [pure_eq_ok_iff, Prod.mk.injEq] at hEnd
  rcases hEnd with ⟨hOk, hEnd⟩
  simp only [Option.bind_eq_some_iff, Option.map_eq_some_iff,
    decide_eq_false_iff_not, Slot.node?_eq_some_iff] at hEnd
  rcases hEnd with ⟨g, hGraph, c, hRoot, n, hFrom, t, hLink, m, hTo, hm⟩
  have hcs : (Context.ofProgram linksLate { kind := kind }).CallsUnknown
      { id := 0, caller := 0, target := .direct 1, actuals := [some 0] } := by
    rcases hKind with rfl | rfl
    · exact of_decide_eq_true (by cbv)
    · exact of_decide_eq_true (by cbv)
  cases answer with
  | error e => cases hOk
  | ok stats =>
    exact ⟨stats, a, g, _, hRun, hcs, hGraph,
      Graph.not_callSealed_of_link List.mem_cons_self hRoot hFrom hLink hTo hm⟩

end HeapShape
