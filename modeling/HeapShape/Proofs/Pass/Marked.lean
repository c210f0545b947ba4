import HeapShape.Pass.BottomUp
import HeapShape.Proofs.CallGraph
import HeapShape.Proofs.Lowering.Progress
import HeapShape.Proofs.Propagation.Marked
import HeapShape.Proofs.Store

/-
  Calls of unknown code in a bottom-up pass.

  A call is marked when it is resolved. Calls that follow in the same graph
  leave it marked. They may link its memory to more memory, unless they have
  no callee with a body.

  Main declarations:
    * `Context.IsUnknown`
    * `Store.Grouped.resolves_resolveCall`
    * `Store.Passes`
    * `Store.passes_bottomUpPass`
-/

-- Formals Of Lowered Functions

namespace HeapShape

open Checked Graph

variable {p : Program} {f : FunctionDef} {fs : List FunctionDef} {g h : Graph}

/- Formals get their cells one after the other. -/
theorem binds_formalCells
    (hg : g.WellFormed)
    {formals : List Formal}
    (hRun : formals.foldlM (fun g formal => do
      let found ← g.formalCell formal.value
      return found.2) g = .ok h) :
    Later g h ∧ ∀ formal ∈ formals, ∃ c, h.roots.get? (.formal formal.value) =
      some c := by
  induction formals generalizing g with
  | nil =>
    cases hRun
    exact ⟨.refl hg, nofun⟩
  | cons formal rest ih =>
    rw [List.foldlM_cons] at hRun
    rcases of_bind hRun with ⟨g₁, hFirst, hRest⟩
    rcases of_bind hFirst with ⟨⟨c, _⟩, hBind, hPure⟩
    cases hPure
    have hBound := Carries.bindRoot (E := False) hg hBind
    rcases ih hBound.later.wellFormed hRest with ⟨hLater, hAll⟩
    refine ⟨hBound.later.trans hLater, ?_⟩
    intro other hMem
    rcases List.mem_cons.mp hMem with rfl | hMem
    · rcases (hBound.here nofun).2.1 with ⟨d, hRoot, _⟩
      exact ⟨d, hLater.roots _ d hRoot⟩
    · exact hAll other hMem

theorem bindsFormals_of_lowerSignature
    (hg : g.WellFormed)
    (hRun : lowerSignature f g = .ok h) :
    h.BindsFormals f := by
  unfold lowerSignature at hRun
  rcases of_bind hRun with ⟨g₁, hFormals, hRun⟩
  rcases binds_formalCells hg hFormals with ⟨hLater, hAll⟩
  have hBinds : g₁.BindsFormals f :=
    fun formal hMem hPointer => hAll formal (List.mem_filter.mpr ⟨hMem, hPointer⟩)
  split at hRun
  · rcases of_bind hRun with ⟨⟨c, _⟩, hBind, hPure⟩
    cases hPure
    have hBound := Carries.bindRoot (E := False) hLater.wellFormed hBind
    exact hBinds.imp fun r d hRoot =>
      ⟨d, hBound.later.roots r d hRoot⟩
  · cases hRun
    exact hBinds

/- A function gets its formals, and no other loses one. -/
theorem gives_lowerFunction_bindsFormals
    (hg : g.WellFormed)
    (hSizes : ∀ decl ∈ p.globals, decl.size < wordBound)
    (hWords : ∀ op ∈ f.body, op.inWords = true) :
    (lowerFunction p f g).Gives fun h =>
      h.WellFormed ∧ h.BindsFormals f ∧ ∀ e, g.BindsFormals e → h.BindsFormals e := by
  unfold lowerFunction
  refine Yields.bind ((evolves_lowerSignature (fun _ => False) (fun _ => False)
    (hg.addFunction f.id)).and_eq) ?_
  rintro g₁ ⟨hSigned, hRun⟩
  refine Yields.imp (gives_lowerBody (fun _ => False)
    (fun _ => False) hSigned.wellFormed hSizes hWords
    fun _ _ _ _ => not_false) ?_
  intro r hr h hEq
  have hBody := hr h hEq
  refine ⟨hBody.wellFormed, ?_, fun e hBinds => ?_⟩
  · exact (bindsFormals_of_lowerSignature (hg.addFunction f.id) hRun).imp fun root c hRoot =>
        ⟨c, hBody.roots root c hRoot⟩
  · exact hBinds.imp fun root c hRoot =>
      ⟨c, (hSigned.trans hBody).roots root c hRoot⟩

/- Functions are lowered with their formals, in turn. -/
theorem gives_foldl_bindsFormals
    (hSizes : ∀ decl ∈ p.globals, decl.size < wordBound)
    (hWords : ∀ f ∈ fs, ∀ op ∈ f.body, op.inWords = true)
    {done : List FunctionDef}
    {m : Lowered}
    (hm : m.Gives fun g => g.WellFormed ∧ ∀ e ∈ done, g.BindsFormals e) :
    (fs.foldl (fun m f => m.andThen (lowerFunction p f)) m).Gives fun h =>
        h.WellFormed ∧ ∀ e, e ∈ done ∨ e ∈ fs → h.BindsFormals e := by
  induction fs generalizing done m with
  | nil =>
    refine Yields.imp hm ?_
    intro r hr h hEq
    refine ⟨(hr h hEq).1, fun e he => ?_⟩
    rcases he with he | he
    · exact (hr h hEq).2 e he
    · cases he
  | cons f rest ih =>
    rw [List.forall_mem_cons] at hWords
    have hNext : (m.andThen (lowerFunction p f)).Gives fun h => h.WellFormed ∧
          ∀ e ∈ f :: done, h.BindsFormals e := by
      refine hm.andThen ?_
      rintro g ⟨hg, hDone⟩
      refine Yields.imp (gives_lowerFunction_bindsFormals hg hSizes hWords.1) ?_
      intro r hr h hEq
      rcases hr h hEq with ⟨hh, hBinds, hKeeps⟩
      refine ⟨hh, fun e he => ?_⟩
      rcases List.mem_cons.mp he with rfl | he
      · exact hBinds
      · exact hKeeps e (hDone e he)
    refine Yields.imp (ih hWords.2 hNext) ?_
    intro r hr h hEq
    refine ⟨(hr h hEq).1, fun e he => (hr h hEq).2 e ?_⟩
    rw [List.mem_cons] at he ⊢
    tauto

theorem bindsFormals_of_lowerFunctions
    (hWords : p.InWords)
    (hFs : ∀ f ∈ fs, f ∈ p.functions)
    (config : GraphConfig)
    (hRun : lowerFunctions p fs { config := config } =
      .ok (.ok h)) :
    h.WellFormed ∧ ∀ f ∈ fs, h.BindsFormals f := by
  have hStart : Lowered.Gives (.ok (.ok { config := config })) fun g => g.WellFormed ∧
        ∀ e ∈ ([] : List FunctionDef), g.BindsFormals e := by
    refine Yields.ok ?_
    rintro _ ⟨⟩
    exact ⟨(Kept.empty (P := fun _ => False) config).wellFormed, nofun⟩
  have hEnd := gives_foldl_bindsFormals hWords.1 (fun f hf => hWords.2 f (hFs f hf)) hStart
  rcases hEnd.of_eq_ok hRun h rfl with ⟨hh, hBinds⟩
  exact ⟨hh, fun f hf => hBinds f (Or.inr hf)⟩

-- Calls In Order

/-
  A call that may run code without a body: it is not fully resolved, it has
  no callee, or one of them has no body.
-/
def Context.IsUnknown
    (ctx : Context)
    (cs : CallSite) : Prop :=
  ∃ r, ctx.callGraph.resolution? cs.id = some r ∧
    (r.fullyResolved = false ∨ r.callees = [] ∨
      ∃ f ∈ ctx.callees cs, f.hasBody = false)

/- Two functions of one component. -/
def Context.Together
    (ctx : Context)
    (e f : FunctionId) : Prop :=
  ∃ fs ∈ ctx.callGraph.components, e ∈ fs ∧ f ∈ fs

/- The calls after the last occurrence of one, from behind. -/
def callsAfter
    (cs : CallSite)
    (calls : List CallSite) : List CallSite :=
  calls.reverse.takeWhile (· ≠ cs)

variable {ctx : Context} {c : CallSite}

theorem Context.function?_of_mem_callees
    {cs : CallSite}
    (hMem : f ∈ ctx.callees cs) :
    ctx.function? f.id = some f := by
  unfold Context.callees at hMem
  split at hMem
  · rcases List.mem_filterMap.mp hMem with ⟨id, _, hFind⟩
    rw [(CallGraph.function?_eq_some hFind).2]
    exact hFind
  · cases hMem

/- The test that a pass makes. -/
theorem Context.IsUnknown.test_eq_true
    {cs : CallSite}
    {r : CallResolution}
    (hUnknown : ctx.IsUnknown cs)
    (hr : ctx.callGraph.resolution? cs.id = some r) :
    (!r.fullyResolved || r.callees.isEmpty
      || (ctx.callees cs).any fun f => !f.hasBody) = true := by
  rcases hUnknown with ⟨_, hr', hWhy⟩
  rw [hr] at hr'
  cases hr'
  rcases hWhy with hPart | hNone | ⟨f, hf, hBody⟩
  · rw [hPart]
    rfl
  · rw [hNone]
    exact Bool.or_eq_true_iff.mpr (Or.inl (Bool.or_true _))
  · refine Bool.or_eq_true_iff.mpr (Or.inr ?_)
    exact List.any_eq_true.mpr ⟨f, hf, by rw [hBody]; rfl⟩

/-
  What resolving some calls does for one of them. It has a first property
  afterwards, and a second if those that follow it are harmless.
-/
structure Attends
    {σ : Type}
    (M S : σ → Prop)
    (Harmless : CallSite → Prop)
    (cs : CallSite)
    (calls : List CallSite)
    (s t : σ) : Prop where
  marked : cs ∈ calls ∨ M s → M t
  isSealed : (∀ c ∈ callsAfter cs calls, Harmless c) →
    cs ∈ calls ∨ S s → S t

variable {σ α : Type} {M S : σ → Prop} {H : CallSite → Prop} {cs : CallSite}
variable {calls calls' : List CallSite} {r s t : σ}

/- More calls before it change nothing. -/
theorem mem_callsAfter_append_right
    (hc : c ∈ callsAfter cs calls') :
    c ∈ callsAfter cs (calls ++ calls') := by
  unfold callsAfter at hc ⊢
  rw [List.reverse_append, List.takeWhile_append]
  split
  · exact List.mem_append_left _ ((List.takeWhile_sublist _).mem hc)
  · exact hc

/- It may be the last one before others. -/
theorem mem_callsAfter_append_left
    (hc : c ∈ callsAfter cs calls)
    (hNot : cs ∉ calls') :
    c ∈ callsAfter cs (calls ++ calls') := by
  unfold callsAfter at hc ⊢
  rw [List.reverse_append, List.takeWhile_append_of_pos]
  · exact List.mem_append_right _ hc
  · intro x hx
    rw [decide_eq_true_iff]
    rintro rfl
    exact hNot (List.mem_reverse.mp hx)

theorem Attends.refl
    (s : σ) :
    Attends M S H cs [] s s where
  marked := fun h => h.resolve_left List.not_mem_nil
  isSealed := fun _ h => h.resolve_left List.not_mem_nil

theorem Attends.trans
    (hrs : Attends M S H cs calls r s)
    (hst : Attends M S H cs calls' s t) :
    Attends M S H cs (calls ++ calls') r t where
  marked := by
    intro h
    by_cases hLast : cs ∈ calls'
    · exact hst.marked (.inl hLast)
    · rw [List.mem_append, or_iff_left hLast] at h
      exact hst.marked (.inr (hrs.marked h))
  isSealed := by
    intro hAfter h
    have hEnd : ∀ c ∈ callsAfter cs calls', H c :=
      fun c hc => hAfter c (mem_callsAfter_append_right hc)
    by_cases hLast : cs ∈ calls'
    · exact hst.isSealed hEnd (.inl hLast)
    · rw [List.mem_append, or_iff_left hLast] at h
      refine hst.isSealed hEnd (.inr (hrs.isSealed ?_ h))
      exact fun c hc =>
        hAfter c (mem_callsAfter_append_left hc hLast)

/- Where a call is among others, the start is no matter. -/
theorem Attends.of_mem
    (hst : Attends M S H cs calls s t)
    (hMem : cs ∈ calls)
    (r : σ) :
    Attends M S H cs calls r t where
  marked := fun _ => hst.marked (.inl hMem)
  isSealed := fun hAfter _ => hst.isSealed hAfter (.inl hMem)

/- Calls are resolved item by item. -/
theorem Attends.foldlM
    {J : σ → Prop}
    {step : σ → α → Checked σ}
    {callsOf : α → List CallSite}
    {items : List α}
    (hStep : ∀ s, ∀ a ∈ items, ∀ t, J s → step s a = .ok t → J t ∧
        Attends M S H cs (callsOf a) s t)
    (hs : J s)
    (hRun : items.foldlM step s = .ok t) :
    J t ∧ Attends M S H cs (items.flatMap callsOf) s t := by
  induction items generalizing s with
  | nil =>
    cases hRun
    exact ⟨hs, .refl _⟩
  | cons a rest ih =>
    rw [List.foldlM_cons] at hRun
    rcases of_bind hRun with ⟨s₁, hFirst, hRest⟩
    rcases hStep s a List.mem_cons_self s₁ hs hFirst with ⟨hs₁, hAttends⟩
    rcases ih (fun s b hb =>
        hStep s b (List.mem_cons_of_mem a hb)) hs₁ hRest
      with ⟨ht, hMore⟩
    rw [List.flatMap_cons]
    exact ⟨ht, hAttends.trans hMore⟩

-- Graphs In Which Calls Stay Marked

/- What steps of a run make of a graph. It keeps its formals. -/
structure Graph.Tends
    (g h : Graph) : Prop where
  wellFormed : h.WellFormed
  proceeds : ∃ R, Proceeds g R h
  binds : ∀ f, g.BindsFormals f → h.BindsFormals f

namespace Graph

variable {i : Graph}

theorem Tends.refl
    (hg : g.WellFormed) :
    Tends g g :=
  ⟨hg, ⟨Eq, .start⟩, fun _ hBinds => hBinds⟩

theorem Tends.trans
    (hgh : Tends g h)
    (hhi : Tends h i) :
    Tends g i where
  wellFormed := hhi.wellFormed
  proceeds := by
    rcases hgh.proceeds with ⟨_, hFirst⟩
    rcases hhi.proceeds with ⟨_, hSecond⟩
    exact hFirst.trans hSecond
  binds := fun f hBinds => hhi.binds f (hgh.binds f hBinds)

theorem Tends.join
    (hStep : Joins g h)
    (hgh : Outlives g h) :
    Tends g h :=
  ⟨hgh.wellFormed, ⟨_, .join .start hStep hgh⟩,
    fun _ hBinds => hBinds.outlives hgh⟩

theorem Tends.free
    (hStep : Frees g h)
    (hgh : Collected g h) :
    Tends g h :=
  ⟨hgh.wellFormed, ⟨_, .free .start hStep hgh⟩,
    fun _ hBinds => hBinds.collected hgh⟩

theorem Tends.handed
    (hgh : Tends g h)
    {p : Program}
    {config : GraphConfig}
    (hHanded : Handed p config cs g) :
    Handed p config cs h := by
  rcases hgh.proceeds with ⟨_, hOn⟩
  exact hHanded.proceeds hOn

theorem Rests.foldl_addFunction
    (hg : g.WellFormed)
    (fs : List FunctionId) :
    Rests g (fs.foldl addFunction g) := by
  induction fs generalizing g with
  | nil => exact .refl hg
  | cons f rest ih =>
    have hNoted : Rests g (g.addFunction f) := .of_same hg rfl rfl rfl rfl
    exact hNoted.trans (ih hNoted.later.wellFormed)

end Graph

/- The graph of one function may have gone on. -/
structure Store.Tends
    (f : FunctionId)
    (s t : Store) : Prop where
  owners : SameOwners s t
  graphs : ∀ e g, s.graph? e = some g → ∃ h,
    t.graph? e = some h ∧ Graph.Tends g h ∧
      (s.sameGraph f e = false → h = g)

namespace Store

open Graph

variable {f : FunctionId} {r s t : Store}

theorem Tends.refl
    (hs : ∀ e g, s.graph? e = some g → g.WellFormed) :
    s.Tends f s :=
  ⟨.refl s, fun e g hGraph =>
    ⟨g, hGraph, .refl (hs e g hGraph), fun _ => rfl⟩⟩

theorem Tends.trans
    (hrs : r.Tends f s)
    (hst : s.Tends f t) :
    r.Tends f t := by
  refine ⟨hrs.owners.trans hst.owners, ?_⟩
  intro e g hGraph
  rcases hrs.graphs e g hGraph with ⟨g₁, hGraph₁, hFirst, hSame₁⟩
  rcases hst.graphs e g₁ hGraph₁ with ⟨g₂, hGraph₂, hSecond, hSame₂⟩
  refine ⟨g₂, hGraph₂, hFirst.trans hSecond, ?_⟩
  intro hApart
  rw [hSame₂ (by rw [hrs.owners.sameGraph_eq, hApart]), hSame₁ hApart]

/- A graph that was there before the steps. -/
theorem Tends.exists_graph
    (hst : s.Tends f t)
    {e : FunctionId}
    (hGraph : t.graph? e = some h) :
    ∃ g, s.graph? e = some g ∧ Graph.Tends g h ∧ (s.sameGraph f e = false → h = g) := by
  have hSome : (s.graph? e).isSome = true := by
    rw [← hst.owners.isSome_graph?, hGraph]
    rfl
  rcases Option.isSome_iff_exists.mp hSome with ⟨g, hOld⟩
  rcases hst.graphs e g hOld with ⟨_, hNew, hTends⟩
  rw [hGraph] at hNew
  cases hNew
  exact ⟨g, hOld, hTends⟩

theorem Tends.setGraph
    (hs : ∀ e g, s.graph? e = some g → g.WellFormed)
    (hGraph : s.graph? f = some g)
    (hgh : Graph.Tends g h) :
    s.Tends f (s.setGraph f h) := by
  refine ⟨sameOwners_setGraph s f h, ?_⟩
  intro e g' hOld
  rw [graph?_setGraph hGraph]
  split
  · next hSame =>
    rw [graph?_of_sameGraph hSame, hGraph] at hOld
    cases hOld
    refine ⟨h, rfl, hgh, ?_⟩
    intro hApart
    rw [hSame] at hApart
    cases hApart
  · exact ⟨g', hOld, .refl (hs e g' hOld), fun _ => rfl⟩

end Store

-- One Call

/-
  Graphs are shared inside components only. Each is in order and has the
  formals of its functions.
-/
structure Store.Grouped
    (ctx : Context)
    (s : Store) : Prop where
  wellFormed : ∀ f g, s.graph? f = some g → g.WellFormed
  origin : ∀ f g, s.graph? f = some g →
    g.LoweredFrom ctx.program ctx.config.graph f
  binds : ∀ f g, s.graph? f = some g →
    ∀ d, ctx.function? f = some d → g.BindsFormals d
  bound : ∀ f i, s.slot? f = some i → i < s.graphs.size
  shared : ∀ e f, s.sameGraph e f = true →
    ctx.Together e f

/-
  What resolving a call does. Only the graph of its caller changes, sealed
  calls stay sealed if there is no callee to connect, and a call of unknown
  code has its turn and is sealed itself.
-/
structure Store.Resolves
    (ctx : Context)
    (cs : CallSite)
    (s t : Store) : Prop where
  tends : s.Tends cs.caller t
  calm : ctx.definedCallees cs = [] → ∀ e g h,
    s.graph? e = some g → t.graph? e = some h →
    ∀ c, g.CallSealed c → h.CallSealed c
  isSealed : ctx.IsUnknown cs → ∀ h,
    t.graph? cs.caller = some h →
    h.Handed ctx.program ctx.config.graph cs ∧
      h.CallSealed cs

namespace Store

open Graph

variable {ctx : Context} {callee : FunctionDef} {f : FunctionId} {s t : Store}
variable {stats stats' : BottomUpStats}

theorem Grouped.tends
    (hs : s.Grouped ctx)
    (hst : s.Tends f t) :
    t.Grouped ctx where
  wellFormed := by
    intro e h hGraph
    rcases hst.exists_graph hGraph with ⟨_, _, hTends, _⟩
    exact hTends.wellFormed
  origin := by
    intro e h hGraph
    rcases hst.exists_graph hGraph with ⟨g, hOld, hTends, _⟩
    rcases hTends.proceeds with ⟨_, hOn⟩
    exact (hs.origin e g hOld).proceeds hOn
  binds := by
    intro e h hGraph d hd
    rcases hst.exists_graph hGraph with ⟨g, hOld, hTends, _⟩
    exact hTends.binds d (hs.binds e g hOld d hd)
  bound := by
    intro e i hSlot
    rw [hst.owners.slot?_eq] at hSlot
    rw [hst.owners.size]
    exact hs.bound e i hSlot
  shared := by
    intro e e' hSame
    rw [hst.owners.sameGraph_eq] at hSame
    exact hs.shared e e' hSame

/- A callee is connected in the graph of the caller. -/
theorem Grouped.tends_resolveCallee
    (hs : s.Grouped ctx)
    (hCallee : ctx.function? callee.id = some callee)
    (hRun : resolveCallee ctx cs (stats, s) callee = .ok (stats', t)) :
    s.Tends cs.caller t := by
  unfold resolveCallee at hRun
  dsimp only at hRun
  split at hRun
  · next hSame =>
    split at hRun
    · cases hRun
      exact .refl hs.wellFormed
    · next g hGraph =>
      rcases of_bind hRun with ⟨h, hStep, hRun⟩
      cases hRun
      have hThere : s.graph? callee.id = some g := (graph?_of_sameGraph hSame).trans hGraph
      exact .setGraph hs.wellFormed hGraph (.join (.connect hStep)
        (.resolveInPlace (hs.wellFormed _ g hGraph)
          (hs.binds _ g hThere callee hCallee) hStep))
  · rcases of_bind hRun with ⟨next?, hStep, hRun⟩
    cases next? with
    | none =>
      cases hRun
      exact .refl hs.wellFormed
    | some next =>
      cases hRun
      rcases bottomUpStep_eq_some hStep with
        ⟨calleeGraph, callerGraph, k, h, hPair, hCopy, hCompress, rfl⟩
      rcases pair?_eq_some_iff.mp hPair with ⟨_, hFrom, hInto⟩
      have hCopied := Outlives.bottomUpCopy (hs.wellFormed _ _ hFrom) (hs.wellFormed _ _ hInto)
        hCopy
      have hCollected := Compressed.of_compress hCopied.wellFormed hCompress
      exact .setGraph hs.wellFormed hInto ((Graph.Tends.join (.copy hCopy) hCopied).trans
        (.free (.inl hCompress) hCollected.toCollected))

/- All callees with a body are connected. -/
theorem Grouped.tends_resolveCallees
    (hs : s.Grouped ctx)
    (hRun : (ctx.definedCallees cs).foldlM (resolveCallee ctx cs) (stats, s) =
        .ok (stats', t)) :
    s.Tends cs.caller t := by
  refine foldlM_induction (P := fun state => s.Tends cs.caller state.2) ?_
    (.refl hs.wellFormed) hRun
  rintro ⟨stats₁, s₁⟩ callee hMem ⟨stats₂, s₂⟩ hTends hStep
  exact hTends.trans ((hs.tends hTends).tends_resolveCallee
    (Context.function?_of_mem_callees (List.mem_of_mem_filter hMem)) hStep)

/- The graph of the caller is marked. -/
theorem Grouped.resolves_mark
    (hs : s.Grouped ctx)
    (hGraph : s.graph? cs.caller = some g)
    (hRun : markExternal g cs = .ok h) :
    Resolves ctx cs s (s.setGraph cs.caller h) := by
  have hg := hs.wellFormed _ g hGraph
  rcases Rests.markExternal hg hRun with ⟨hRests, hSealed⟩
  have hSelf : s.sameGraph cs.caller cs.caller = true := by
    rcases Option.bind_eq_some_iff.mp hGraph with ⟨i, hSlot, _⟩
    exact sameGraph_iff.mpr ⟨i, hSlot, hSlot⟩
  refine ⟨.setGraph hs.wellFormed hGraph (.join (.mark hRun) hRests.later), ?_, ?_⟩
  · intro _ e g' h' hOld hNew c hc
    rw [graph?_setGraph hGraph] at hNew
    split at hNew
    · next hSame =>
      cases hNew
      rw [graph?_of_sameGraph hSame, hGraph] at hOld
      cases hOld
      exact hc.calm hg hRests.calm hRests.later
    · rw [hOld] at hNew
      cases hNew
      exact hc
  · intro _ h' hNew
    rw [graph?_setGraph hGraph, if_pos hSelf] at hNew
    cases hNew
    exact ⟨.of_markExternal hg (hs.origin _ g hGraph) hRun, hSealed⟩

/- Callees are connected, then unknown calls are marked. -/
theorem Grouped.resolves_resolveCall
    (hs : s.Grouped ctx)
    (hRun : resolveCall ctx (stats, s) cs = .ok (stats', t)) :
    Resolves ctx cs s t := by
  unfold resolveCall at hRun
  split at hRun
  · next hNone =>
    cases hRun
    refine ⟨.refl hs.wellFormed, ?_, ?_⟩
    · intro _ e g h hOld hNew
      rw [hOld] at hNew
      cases hNew
      exact fun _ hc => hc
    · rintro ⟨r, hr, _⟩
      rw [hNone] at hr
      cases hr
  · next r hr =>
    rcases of_bind hRun with ⟨⟨stats₁, s₁⟩, hFold, hRun⟩
    have hFirst := hs.tends_resolveCallees hFold
    have hStay : ctx.definedCallees cs = [] → s₁ = s := by
      intro hEmpty
      unfold Context.definedCallees at hEmpty
      rw [hEmpty] at hFold
      cases hFold
      rfl
    dsimp only at hRun
    split at hRun
    · next g _ hGraph =>
      rcases of_bind hRun with ⟨h, hMark, hRun⟩
      cases hRun
      have hLast := (hs.tends hFirst).resolves_mark hGraph hMark
      refine ⟨hFirst.trans hLast.tends, ?_, hLast.isSealed⟩
      intro hEmpty
      rw [← hStay hEmpty]
      exact hLast.calm hEmpty
    · next hSkip =>
      cases hRun
      refine ⟨hFirst, ?_, ?_⟩
      · intro hEmpty e g h hOld hNew
        rw [hStay hEmpty, hOld] at hNew
        cases hNew
        exact fun _ hc => hc
      · intro hUnknown h hGraph
        exact (hSkip h (hUnknown.test_eq_true hr) hGraph).elim

end Store

-- All Components

/- The functions with a body, as they are found. -/
def Context.bodies
    (ctx : Context)
    (fs : List FunctionId) : List FunctionDef :=
  (fs.filterMap ctx.function?).filter FunctionDef.hasBody

/- The functions of a component that get its graph. -/
def Context.members
    (ctx : Context)
    (fs : List FunctionId) : List FunctionId :=
  (ctx.bodies fs).map FunctionDef.id

/- The calls that are resolved with a component. -/
def Context.callsOf
    (ctx : Context)
    (fs : List FunctionId) : List CallSite :=
  ctx.callSitesIn (ctx.members fs)

/- A call that a pass may resolve after another. -/
def Context.Harmless
    (ctx : Context)
    (cs c : CallSite) : Prop :=
  ctx.Together c.caller cs.caller →
    ctx.definedCallees c = []

/- A call had its turn, or is sealed, in its caller's graph. -/
def Store.Marks
    (ctx : Context)
    (cs : CallSite)
    (s : Store) : Prop :=
  ∀ g, s.graph? cs.caller = some g →
    g.Handed ctx.program ctx.config.graph cs

def Store.Seals
    (cs : CallSite)
    (s : Store) : Prop :=
  ∀ g, s.graph? cs.caller = some g → g.CallSealed cs

/-
  What a part of a pass does: it resolves some calls, and some functions get
  graphs.
-/
structure Store.Passes
    (ctx : Context)
    (cs : CallSite)
    (calls : List CallSite)
    (fs : List FunctionId)
    (s t : Store) : Prop where
  grouped : t.Grouped ctx
  attends : Attends (Marks ctx cs) (Seals cs) (ctx.Harmless cs)
    cs calls s t
  owns : ∀ e, (s.slot? e).isSome = true ∨ e ∈ fs →
    (t.slot? e).isSome = true

namespace Context

variable {ctx : Context} {fs : List FunctionId}

theorem mem_bodies_iff :
    f ∈ ctx.bodies fs ↔ f.id ∈ fs ∧ ctx.function? f.id = some f ∧ f.hasBody = true := by
  unfold bodies
  rw [List.mem_filter, List.mem_filterMap]
  constructor
  · rintro ⟨⟨id, hMem, hFind⟩, hBody⟩
    cases (CallGraph.function?_eq_some hFind).2
    exact ⟨hMem, hFind, hBody⟩
  · rintro ⟨hMem, hFind, hBody⟩
    exact ⟨⟨f.id, hMem, hFind⟩, hBody⟩

/- The calls inside a member are resolved with it. -/
theorem mem_callsOf
    (hMember : cs.caller ∈ ctx.members fs)
    (hDefs : cs.id ∈ ctx.callGraph.defs cs.caller)
    (hFind : ctx.callSite? cs.id = some cs) :
    cs ∈ ctx.callsOf fs := by
  refine List.mem_filterMap.mpr ⟨cs.id, ?_, hFind⟩
  exact List.mem_flatten.mpr ⟨_, List.mem_map_of_mem hMember, hDefs⟩

end Context

namespace Store

open Graph

variable {ctx : Context} {c : CallSite} {fs fs' : List FunctionId} {r s t : Store}
variable {stats stats' : BottomUpStats}

theorem Passes.refl
    (hs : s.Grouped ctx) :
    Passes ctx cs [] [] s s :=
  ⟨hs, .refl s, fun _ he => he.resolve_right List.not_mem_nil⟩

theorem Passes.trans
    (hrs : Passes ctx cs calls fs r s)
    (hst : Passes ctx cs calls' fs' s t) :
    Passes ctx cs (calls ++ calls') (fs ++ fs') r t where
  grouped := hst.grouped
  attends := hrs.attends.trans hst.attends
  owns := by
    intro e he
    rw [List.mem_append] at he
    have hOr : ((r.slot? e).isSome = true ∨ e ∈ fs) ∨ e ∈ fs' := by
      tauto
    exact hst.owns e (hOr.imp_left (hrs.owns e))

/- What does not touch the graph of a call's caller. -/
theorem attends_of_graph?_eq
    (hSame : t.graph? cs.caller = s.graph? cs.caller) :
    Attends (Marks ctx cs) (Seals cs) (ctx.Harmless cs) cs [] s t where
  marked := by
    intro hOld g hGraph
    rw [hSame] at hGraph
    exact hOld.resolve_left List.not_mem_nil g hGraph
  isSealed := by
    intro _ hOld g hGraph
    rw [hSame] at hGraph
    exact hOld.resolve_left List.not_mem_nil g hGraph

/- Resolving one call. -/
theorem Grouped.passes_resolveCall
    (hs : s.Grouped ctx)
    (hUnknown : ctx.IsUnknown cs)
    (hRun : resolveCall ctx (stats, s) c = .ok (stats', t)) :
    Passes ctx cs [c] [] s t := by
  have hStep := hs.resolves_resolveCall hRun
  have ht := hs.tends hStep.tends
  refine ⟨ht, ⟨?_, ?_⟩, ?_⟩
  · rintro (hMem | hOld) g hGraph
    · cases List.mem_singleton.mp hMem
      exact (hStep.isSealed hUnknown g hGraph).1
    · rcases hStep.tends.exists_graph hGraph with ⟨g₀, hBefore, hTends, _⟩
      exact hTends.handed (hOld g₀ hBefore)
  · intro hAfter hOr g hGraph
    by_cases hEq : c = cs
    · subst hEq
      exact (hStep.isSealed hUnknown g hGraph).2
    · have hHarmless : ctx.Harmless cs c := hAfter c (by simp [callsAfter, hEq])
      have hOld := hOr.resolve_left fun hMem =>
        hEq (List.mem_singleton.mp hMem).symm
      rcases hStep.tends.exists_graph hGraph with ⟨g₀, hBefore, _, hSame⟩
      cases hShared : s.sameGraph c.caller cs.caller with
      | false =>
        rw [hSame hShared]
        exact hOld g₀ hBefore
      | true =>
        exact hStep.calm (hHarmless (hs.shared _ _ hShared))
          _ g₀ g hBefore hGraph cs (hOld g₀ hBefore)
  · intro e he
    rw [hStep.tends.owners.slot?_eq]
    exact he.resolve_right List.not_mem_nil

/- Resolving calls one after the other. -/
theorem Grouped.passes_resolveCalls
    (hs : s.Grouped ctx)
    (hUnknown : ctx.IsUnknown cs)
    (hRun : calls.foldlM (resolveCall ctx) (stats, s) = .ok (stats', t)) :
    Passes ctx cs calls [] s t := by
  induction calls generalizing stats s with
  | nil =>
    cases hRun
    exact .refl hs
  | cons c rest ih =>
    rw [List.foldlM_cons] at hRun
    rcases of_bind hRun with ⟨⟨stats₁, s₁⟩, hFirst, hRest⟩
    have hStep := hs.passes_resolveCall hUnknown hFirst
    exact hStep.trans (ih hStep.grouped hRest)

/- The members of a component get a graph of their own. -/
theorem Grouped.insert
    (hs : s.Grouped ctx)
    (hMem : fs ∈ ctx.callGraph.components)
    (hLower : lowerFunctions ctx.program (ctx.bodies fs)
      { config := ctx.config.graph } = .ok (.ok g))
    (hg : g.WellFormed)
    (hBinds : ∀ f ∈ ctx.bodies fs, g.BindsFormals f) :
    (s.insert (ctx.members fs) g).2.Grouped ctx := by
  have hNoted := (Rests.foldl_addFunction hg (ctx.members fs)).later
  have hIn : ∀ e ∈ ctx.members fs, e ∈ fs := by
    intro e he
    rcases List.mem_map.mp he with ⟨f, hf, rfl⟩
    exact (Context.mem_bodies_iff.mp hf).1
  refine ⟨?_, ?_, ?_, ?_, ?_⟩
  · intro e h hGraph
    rw [graph?_insert (hs.bound e)] at hGraph
    split at hGraph
    · cases hGraph
      exact hNoted.wellFormed
    · exact hs.wellFormed e h hGraph
  · intro e h hGraph
    rw [graph?_insert (hs.bound e)] at hGraph
    split at hGraph
    · next he =>
      cases hGraph
      exact ⟨_, g, _, he, hLower, .join .start (.note _) hNoted⟩
    · exact hs.origin e h hGraph
  · intro e h hGraph d hd
    rw [graph?_insert (hs.bound e)] at hGraph
    split at hGraph
    · next he =>
      cases hGraph
      rcases List.mem_map.mp he with ⟨f, hf, rfl⟩
      have hFind := (Context.mem_bodies_iff.mp hf).2.1
      rw [hd] at hFind
      cases hFind
      exact (hBinds d hf).outlives hNoted
    · exact hs.binds e h hGraph d hd
  · intro e i hSlot
    rw [slot?_insert] at hSlot
    have hSize : (s.insert (ctx.members fs) g).2.graphs.size =
        s.graphs.size + 1 := Array.size_push _
    rw [hSize]
    split at hSlot
    · cases hSlot
      exact Nat.lt_succ_self _
    · exact Nat.lt_succ_of_lt (hs.bound e i hSlot)
  · intro e f hSame
    rcases sameGraph_iff.mp hSame with ⟨i, he, hf⟩
    rw [slot?_insert] at he hf
    -- The new number was the number of no graph before.
    split at he <;> split at hf
    · next hem hfm => exact ⟨fs, hMem, hIn e hem, hIn f hfm⟩
    · cases he
      exact absurd (hs.bound f _ hf) (Nat.lt_irrefl _)
    · cases hf
      exact absurd (hs.bound e _ he) (Nat.lt_irrefl _)
    · exact hs.shared e f (sameGraph_iff.mpr ⟨i, he, hf⟩)

/- Calls that are compressed are marked as before. -/
theorem Grouped.passes_compressGraph
    (hs : s.Grouped ctx)
    {f? : Option FunctionId}
    (hRun : compressGraph s f? = .ok t) :
    Passes ctx cs [] [] s t := by
  unfold compressGraph at hRun
  split at hRun
  · cases hRun
    exact .refl hs
  · next f =>
    split at hRun
    · cases hRun
      exact .refl hs
    · next g hGraph =>
      rcases of_bind hRun with ⟨h, hCompress, hRun⟩
      cases hRun
      have hCollected := (Compressed.of_compress (hs.wellFormed f g hGraph) hCompress).toCollected
      have hTends := Tends.setGraph hs.wellFormed hGraph (.free (.inl hCompress) hCollected)
      refine ⟨hs.tends hTends, ⟨?_, ?_⟩, ?_⟩
      · intro hOld h' hNew
        rcases hTends.exists_graph hNew with ⟨g', hBefore, hStep, _⟩
        exact hStep.handed (hOld.resolve_left List.not_mem_nil g' hBefore)
      · intro _ hOld h' hNew
        have hBefore := hOld.resolve_left List.not_mem_nil
        rw [graph?_setGraph hGraph] at hNew
        split at hNew
        · next hSame =>
          cases hNew
          refine CallSealed.collected (hBefore g ?_) hCollected
          rw [graph?_of_sameGraph hSame, hGraph]
        · exact hBefore h' hNew
      · intro e he
        rw [hTends.owners.slot?_eq]
        exact he.resolve_right List.not_mem_nil

/- The graph of a component is made and its calls resolved. -/
theorem Grouped.passes_bottomUpComponent
    (hs : s.Grouped ctx)
    (hWords : ctx.program.InWords)
    (hMem : fs ∈ ctx.callGraph.components)
    (hUnknown : ctx.IsUnknown cs)
    (hDefs : cs.id ∈ ctx.callGraph.defs cs.caller)
    (hFind : ctx.callSite? cs.id = some cs)
    (hRun : bottomUpComponent ctx stats s fs = .ok (.ok stats', t)) :
    Passes ctx cs (ctx.callsOf fs) (ctx.members fs) s t := by
  unfold bottomUpComponent at hRun
  dsimp only at hRun
  split at hRun
  · next hEmpty =>
    have hNone : ctx.members fs = [] := List.isEmpty_iff.mp hEmpty
    cases hRun
    unfold Context.callsOf
    rw [hNone]
    exact .refl hs
  · rcases of_bind hRun with ⟨lowered, hLower, hRun⟩
    cases lowered with
    | error e => cases hRun
    | ok g =>
      rcases bindsFormals_of_lowerFunctions hWords (fun f hf => (CallGraph.function?_eq_some
            (Context.mem_bodies_iff.mp hf).2.1).1)
          ctx.config.graph hLower with
        ⟨hg, hBinds⟩
      have hs₁ := hs.insert hMem hLower hg hBinds
      rcases of_bind hRun with ⟨⟨stats₂, s₂⟩, hCalls, hRun⟩
      rcases of_bind hRun with ⟨s₃, hCompress, hRun⟩
      cases hRun
      have hSecond := hs₁.passes_resolveCalls hUnknown hCalls
      have hRest := hSecond.trans (hSecond.grouped.passes_compressGraph hCompress)
      rw [List.append_nil] at hRest
      refine ⟨hRest.grouped, ?_, ?_⟩
      · by_cases hMember : cs.caller ∈ ctx.members fs
        · exact hRest.attends.of_mem (Context.mem_callsOf hMember hDefs hFind) s
        · -- The graph of the caller is not touched.
          have hSame := graph?_insert (hs.bound cs.caller) (ctx.members fs) g
          rw [if_neg hMember] at hSame
          exact (attends_of_graph?_eq hSame).trans hRest.attends
      · intro e he
        refine hRest.owns e (Or.inl ?_)
        rw [slot?_insert]
        split
        · rfl
        · next hNot => exact he.resolve_right hNot

/- Components are visited one after the other. -/
theorem Grouped.passes_bottomUpComponents
    (hs : s.Grouped ctx)
    (hWords : ctx.program.InWords)
    {rest : List (List FunctionId)}
    (hRest : ∀ fs ∈ rest, fs ∈ ctx.callGraph.components)
    (hUnknown : ctx.IsUnknown cs)
    (hDefs : cs.id ∈ ctx.callGraph.defs cs.caller)
    (hFind : ctx.callSite? cs.id = some cs)
    (hRun : bottomUpComponents ctx stats s rest = .ok (.ok stats', t)) :
    Passes ctx cs (rest.flatMap ctx.callsOf) (rest.flatMap ctx.members) s t := by
  induction rest generalizing stats s with
  | nil =>
    cases hRun
    exact .refl hs
  | cons fs rest ih =>
    rw [List.forall_mem_cons] at hRest
    unfold bottomUpComponents at hRun
    rcases of_bind hRun with ⟨⟨answer, s₁⟩, hFirst, hRun⟩
    cases answer with
    | error e => cases hRun
    | ok stats₁ =>
      have hStep := hs.passes_bottomUpComponent hWords hRest.1 hUnknown hDefs hFind hFirst
      exact hStep.trans (ih hStep.grouped hRest.2 hRun)

theorem Grouped.empty
    (ctx : Context) :
    Grouped ctx {} :=
  ⟨nofun, nofun, nofun, nofun, nofun⟩

theorem passes_bottomUpPass
    (hWords : ctx.program.InWords)
    (hUnknown : ctx.IsUnknown cs)
    (hDefs : cs.id ∈ ctx.callGraph.defs cs.caller)
    (hFind : ctx.callSite? cs.id = some cs)
    (hRun : bottomUpPass ctx {} = .ok (.ok stats, t)) :
    Passes ctx cs (ctx.callGraph.components.flatMap ctx.callsOf)
      (ctx.callGraph.components.flatMap ctx.members) {} t :=
  (Grouped.empty ctx).passes_bottomUpComponents hWords
    (fun _ hMem => hMem) hUnknown hDefs hFind hRun

end Store

end HeapShape
