import HeapShape.Proofs.CallGraph.Calls
import HeapShape.Proofs.Pass.Marked
import HeapShape.Proofs.Pass.Stable

/-
  Calls that a bottom-up pass connects.

  A pass is a run of actions: it builds the graph of a component, connects a
  call with a callee, marks a call or compresses a graph. The run of a pass
  over components that come callees first connects every call of a function
  with a body with every matched callee with a body, once, and it changes no
  graph after that of its component is finished.

  Main declarations:
    * `Store.Acts`
    * `Store.Shares.advances_bottomUpComponents`
    * `Program.connections`
    * `bottom_up_pass_skips_no_call`
-/

-- Actions

namespace HeapShape

open Checked

/- A call that was connected with one of its callees. -/
structure Connection where
  call : CallSite
  callee : FunctionDef
  /- Whether both shared a graph. -/
  inPlace : Bool

def Connection.pair
    (c : Connection) : CallSite × FunctionDef :=
  (c.call, c.callee)

/- The callees of a call that it is to be connected with. -/
def Context.connectionsOf
    (ctx : Context)
    (cs : CallSite) : List (CallSite × FunctionDef) :=
  (ctx.definedCallees cs).map fun callee => (cs, callee)

namespace Store

/-
  One action of a bottom-up pass, with the connection that it makes, if any.
-/
inductive Acts
    (ctx : Context) :
    Option Connection → Store → Store → Prop where
| build
    (s : Store) (fs : List FunctionId) (g : Graph)
    (hLower : lowerFunctions ctx.program (ctx.bodies fs)
      { config := ctx.config.graph } = .ok (.ok g)) :
    Acts ctx none s (s.insert (ctx.members fs) g).2
| inPlace
    (s : Store) (cs : CallSite) (callee : FunctionDef) (g h : Graph)
    (hSame : s.sameGraph cs.caller callee.id = true) (hGraph : s.graph? cs.caller = some g)
    (hResolve : resolveInPlace g cs callee = .ok h) :
    Acts ctx (some ⟨cs, callee, true⟩) s
      (s.setGraph cs.caller h)
| step
    (s t : Store) (cs : CallSite) (callee : FunctionDef)
    (hApart : s.sameGraph cs.caller callee.id = false)
    (hStep : bottomUpStep ctx.config s cs callee =
      .ok (some t)) :
    Acts ctx (some ⟨cs, callee, false⟩) s t
| mark
    (s : Store) (cs : CallSite) (g h : Graph) (hGraph : s.graph? cs.caller = some g)
    (hMark : markExternal g cs = .ok h) :
    Acts ctx none s (s.setGraph cs.caller h)
| compress
    (s : Store) (f : FunctionId) (g h : Graph) (hGraph : s.graph? f = some g)
    (hCompress : g.compress = .ok h) :
    Acts ctx none s (s.setGraph f h)

/- Actions in turn, with the connections that they make. -/
inductive Runs
    (ctx : Context) :
    List Connection → Store → Store → Prop where
| nil
    (s : Store) :
    Runs ctx [] s s
| cons
    {c? : Option Connection} {made : List Connection} {r s t : Store} (hFirst : Acts ctx c? r s)
    (hRest : Runs ctx made s t) :
    Runs ctx (c?.toList ++ made) r t

variable {ctx : Context} {made made' : List Connection} {c? : Option Connection} {r s t : Store}

theorem Runs.trans
    (hrs : Runs ctx made r s)
    (hst : Runs ctx made' s t) :
    Runs ctx (made ++ made') r t := by
  induction hrs with
  | nil => exact hst
  | cons hFirst _ ih =>
    rw [List.append_assoc]
    exact .cons hFirst (ih hst)

theorem Acts.runs
    (hst : Acts ctx c? s t) :
    Runs ctx c?.toList s t := by
  have hOne := Runs.cons hst (.nil t)
  rw [List.append_nil] at hOne
  exact hOne

/-
  What a part of a pass does: it runs actions, counts the connections they
  make, and changes the graphs of some functions only.
-/
structure Advances
    (ctx : Context)
    (fs : List FunctionId)
    (made : List Connection)
    (a b : BottomUpStats × Store) : Prop where
  runs : Runs ctx made a.2 b.2
  frame : ∀ e, e ∉ fs → b.2.graph? e = a.2.graph? e
  inPlace : b.1.inPlace =
    a.1.inPlace + made.countP Connection.inPlace
  resolved : b.1.callSitesResolved =
    a.1.callSitesResolved + made.countP (!·.inPlace)

variable {fs fs' : List FunctionId} {a b c : BottomUpStats × Store}

theorem Advances.refl
    (ctx : Context)
    (fs : List FunctionId)
    (a : BottomUpStats × Store) :
    Advances ctx fs [] a a :=
  ⟨.nil a.2, fun _ _ => rfl, rfl, rfl⟩

theorem Advances.trans
    (hab : Advances ctx fs made a b)
    (hbc : Advances ctx fs' made' b c) :
    Advances ctx (fs ++ fs') (made ++ made') a c where
  runs := hab.runs.trans hbc.runs
  frame := by
    intro e he
    rw [List.mem_append, not_or] at he
    rw [hbc.frame e he.2, hab.frame e he.1]
  inPlace := by
    rw [hbc.inPlace, hab.inPlace, List.countP_append, Nat.add_assoc]
  resolved := by
    rw [hbc.resolved, hab.resolved, List.countP_append, Nat.add_assoc]

theorem Advances.mono
    (hab : Advances ctx fs made a b)
    (hSub : ∀ e ∈ fs, e ∈ fs') :
    Advances ctx fs' made a b :=
  { hab with
    frame := fun e he => hab.frame e fun hMem =>
      he (hSub e hMem) }

/- The graph of one function is replaced by an action. -/
theorem Acts.advances_setGraph
    {f : FunctionId}
    {g h : Graph}
    (hAct : Acts ctx c? s (s.setGraph f h))
    (hGraph : s.graph? f = some g)
    (hOthers : ∀ e, e ∉ fs → s.sameGraph f e = false)
    {stats stats' : BottomUpStats}
    (hInPlace : stats'.inPlace = stats.inPlace + c?.toList.countP Connection.inPlace)
    (hResolved : stats'.callSitesResolved =
      stats.callSitesResolved + c?.toList.countP (!·.inPlace)) :
    Advances ctx fs c?.toList (stats, s) (stats', s.setGraph f h) where
  runs := hAct.runs
  frame := by
    intro e he
    change (s.setGraph f h).graph? e = _
    rw [graph?_setGraph hGraph, hOthers e he]
    rfl
  inPlace := hInPlace
  resolved := hResolved

end Store

-- Shared Graphs

/-
  Some components have their graphs: each one graph for its functions with a
  body.
-/
structure Store.Shares
    (ctx : Context)
    (comps : List (List FunctionId))
    (s : Store) : Prop where
  bound : ∀ e i, s.slot? e = some i → i < s.graphs.size
  owns : ∀ e, (s.slot? e).isSome = true ↔
    ∃ fs ∈ comps, e ∈ ctx.members fs
  shared : ∀ e f, s.sameGraph e f = true ↔
    ∃ fs ∈ comps, e ∈ ctx.members fs ∧ f ∈ ctx.members fs

namespace Store

variable {ctx : Context} {comps : List (List FunctionId)} {fs : List FunctionId} {e f : FunctionId}
variable {s t : Store}

theorem Shares.empty
    (ctx : Context) :
    Shares ctx [] {} where
  bound := nofun
  owns := by
    intro e
    exact ⟨nofun, fun ⟨_, hMem, _⟩ =>
      absurd hMem List.not_mem_nil⟩
  shared := by
    intro e f
    exact ⟨nofun, fun ⟨_, hMem, _⟩ =>
      absurd hMem List.not_mem_nil⟩

theorem Shares.sameOwners
    (hs : s.Shares ctx comps)
    (hst : SameOwners s t) :
    t.Shares ctx comps where
  bound := by
    intro e i hSlot
    rw [hst.slot?_eq] at hSlot
    rw [hst.size]
    exact hs.bound e i hSlot
  owns := by
    intro e
    rw [hst.slot?_eq]
    exact hs.owns e
  shared := by
    intro e f
    rw [hst.sameGraph_eq]
    exact hs.shared e f

theorem Shares.exists_graph
    (hs : s.Shares ctx comps)
    (hfs : fs ∈ comps)
    (he : e ∈ ctx.members fs) :
    ∃ g, s.graph? e = some g := by
  rcases Option.isSome_iff_exists.mp ((hs.owns e).mpr ⟨fs, hfs, he⟩) with ⟨i, hSlot⟩
  exact Option.isSome_iff_exists.mp (isSome_graph?_iff.mpr ⟨i, hSlot, hs.bound e i hSlot⟩)

/- What the last of some components does not have. -/
theorem exists_mem_append_singleton_iff
    {P : List FunctionId → Prop}
    (hNot : ¬ P fs) :
    (∃ fs' ∈ comps ++ [fs], P fs') ↔ ∃ fs' ∈ comps, P fs' := by
  simp only [List.mem_append, List.mem_singleton, or_and_right, exists_or, exists_eq_left]
  exact or_iff_left hNot

/- The functions of a new component share a new graph. -/
theorem Shares.insert
    (hs : s.Shares ctx comps)
    (hNew : ∀ e ∈ ctx.members fs, ∀ fs' ∈ comps, e ∉ ctx.members fs')
    (g : Graph) :
    (s.insert (ctx.members fs) g).2.Shares ctx (comps ++ [fs]) where
  bound := by
    intro e i hSlot
    have hSize : (s.insert (ctx.members fs) g).2.graphs.size =
        s.graphs.size + 1 := Array.size_push _
    rw [slot?_insert] at hSlot
    rw [hSize]
    split at hSlot
    · cases hSlot
      exact Nat.lt_succ_self _
    · exact Nat.lt_succ_of_lt (hs.bound e i hSlot)
  owns := by
    intro e
    rw [slot?_insert]
    split
    · next he =>
      exact ⟨fun _ => ⟨fs, List.mem_append_right comps
        (List.mem_singleton_self fs), he⟩, fun _ => rfl⟩
    · next he =>
      rw [hs.owns]
      exact (exists_mem_append_singleton_iff (P := fun fs => e ∈ ctx.members fs) he).symm
  shared := by
    intro e f
    rw [sameGraph_iff]
    simp only [slot?_insert]
    by_cases he : e ∈ ctx.members fs
    · by_cases hf : f ∈ ctx.members fs
      · simp only [if_pos he, if_pos hf]
        exact ⟨fun _ => ⟨fs, List.mem_append_right comps (List.mem_singleton_self fs), he, hf⟩,
          fun _ => ⟨_, rfl, rfl⟩⟩
      · -- The new number was the number of no graph before.
        simp only [if_pos he, if_neg hf]
        constructor
        · rintro ⟨_, ⟨⟩, hSlot⟩
          exact absurd (hs.bound f _ hSlot) (Nat.lt_irrefl _)
        · intro hBoth
          rcases (exists_mem_append_singleton_iff fun h => hf h.2).mp hBoth with ⟨fs', hfs', he', _⟩
          exact absurd he' (hNew e he fs' hfs')
    · by_cases hf : f ∈ ctx.members fs
      · simp only [if_neg he, if_pos hf]
        constructor
        · rintro ⟨_, hSlot, ⟨⟩⟩
          exact absurd (hs.bound e _ hSlot) (Nat.lt_irrefl _)
        · intro hBoth
          rcases (exists_mem_append_singleton_iff fun h => he h.1).mp hBoth with ⟨fs', hfs', _, hf'⟩
          exact absurd hf' (hNew f hf fs' hfs')
      · simp only [if_neg he, if_neg hf]
        rw [← sameGraph_iff, hs.shared]
        exact (exists_mem_append_singleton_iff fun h => he h.1).symm

/- A component without bodies needs no graph. -/
theorem Shares.skip
    (hs : s.Shares ctx comps)
    (hNone : ctx.members fs = []) :
    s.Shares ctx (comps ++ [fs]) where
  bound := hs.bound
  owns := by
    intro e
    rw [hs.owns, exists_mem_append_singleton_iff]
    rw [hNone]
    exact List.not_mem_nil
  shared := by
    intro e f
    rw [hs.shared, exists_mem_append_singleton_iff]
    rw [hNone]
    exact fun h => List.not_mem_nil h.1

-- One Call

variable {cs : CallSite} {callee : FunctionDef} {stats stats' : BottomUpStats}

/- A callee with a graph is connected. -/
theorem advances_resolveCallee
    (hOthers : ∀ e, e ∉ fs → s.sameGraph cs.caller e = false)
    (hCaller : ∃ g, s.graph? cs.caller = some g)
    (hCallee : ∃ g, s.graph? callee.id = some g)
    (hRun : resolveCallee ctx cs (stats, s) callee = .ok (stats', t)) :
    SameOwners s t ∧ ∃ inPlace, Advances ctx fs [⟨cs, callee, inPlace⟩] (stats, s) (stats', t) := by
  rcases hCaller with ⟨g, hGraph⟩
  rcases hCallee with ⟨g', hGraph'⟩
  change (if s.sameGraph cs.caller callee.id = true then _
    else _) = _ at hRun
  split at hRun
  · next hSame =>
    rw [hGraph] at hRun
    dsimp only at hRun
    rcases of_bind hRun with ⟨h, hResolve, hRun⟩
    cases hRun
    have hAct : Acts ctx (some ⟨cs, callee, true⟩) s (s.setGraph cs.caller h) :=
      .inPlace s cs callee g h hSame hGraph hResolve
    exact ⟨sameOwners_setGraph s cs.caller h, true, hAct.advances_setGraph hGraph hOthers rfl rfl⟩
  · next hApart =>
    rcases of_bind hRun with ⟨next?, hStep, hRun⟩
    cases next? with
    | none =>
      -- There are two graphs, so there is a step.
      have hPair := pair?_eq_some_iff.mpr ⟨(sameGraph_comm s callee.id cs.caller).trans
          (Bool.eq_false_iff.mpr hApart), hGraph', hGraph⟩
      unfold bottomUpStep at hStep
      rw [hPair] at hStep
      dsimp only at hStep
      rcases of_bind hStep with ⟨k, _, hStep⟩
      rcases of_bind hStep with ⟨h, _, hStep⟩
      cases hStep
    | some s₁ =>
      cases hRun
      have hAct : Acts ctx (some ⟨cs, callee, false⟩) s t :=
        .step s t cs callee (Bool.eq_false_iff.mpr hApart) hStep
      rcases bottomUpStep_eq_some hStep with ⟨_, _, _, h, _, _, _, rfl⟩
      exact ⟨sameOwners_setGraph s cs.caller h, false,
        hAct.advances_setGraph hGraph hOthers rfl rfl⟩

/- Items are connected one after the other. -/
theorem Advances.foldlM
    {α : Type}
    {step : BottomUpStats × Store → α → Checked (BottomUpStats × Store)}
    {pairsOf : α → List (CallSite × FunctionDef)}
    {items : List α}
    (hStep : ∀ item ∈ items, ∀ a b, a.2.Shares ctx comps →
      step a item = .ok b → SameOwners a.2 b.2 ∧
        ∃ made, made.map Connection.pair = pairsOf item ∧
          Advances ctx fs made a b)
    {a b : BottomUpStats × Store}
    (ha : a.2.Shares ctx comps)
    (hRun : items.foldlM step a = .ok b) :
    SameOwners a.2 b.2 ∧ ∃ made, made.map Connection.pair = items.flatMap pairsOf ∧
        Advances ctx fs made a b := by
  induction items generalizing a with
  | nil =>
    cases hRun
    exact ⟨.refl _, [], rfl, .refl ctx fs _⟩
  | cons item rest ih =>
    rw [List.forall_mem_cons] at hStep
    rw [List.foldlM_cons] at hRun
    rcases of_bind hRun with ⟨a₁, hFirst, hRest⟩
    rcases hStep.1 a a₁ ha hFirst with ⟨hOwners, made, hMade, hab⟩
    rcases ih hStep.2 (ha.sameOwners hOwners) hRest with ⟨hOwners', made', hMade', hbc⟩
    refine ⟨hOwners.trans hOwners', made ++ made', ?_, (hab.trans hbc).mono fun e he => ?_⟩
    · rw [List.map_append, List.flatMap_cons, hMade, hMade']
    · exact (List.mem_append.mp he).elim id id

/- Who shares the graph of a caller. -/
theorem Shares.sameGraph_eq_false
    (hs : s.Shares ctx comps)
    (hOthers : ∀ fs' ∈ comps, f ∈ ctx.members fs' → ∀ e ∈ ctx.members fs', e ∈ fs)
    (he : e ∉ fs) :
    s.sameGraph f e = false := by
  refine Bool.eq_false_iff.mpr ?_
  intro hSame
  rcases (hs.shared f e).mp hSame with ⟨fs', hfs', hf, he'⟩
  exact he (hOthers fs' hfs' hf e he')

/-
  All callees of a call that have a body are connected, as all of them have
  graphs.
-/
theorem Shares.advances_resolveCall
    (hs : s.Shares ctx comps)
    (hOthers : ∀ fs' ∈ comps, cs.caller ∈ ctx.members fs' → ∀ e ∈ ctx.members fs', e ∈ fs)
    (hCaller : ∃ fs' ∈ comps, cs.caller ∈ ctx.members fs')
    (hCallees : ∀ f ∈ ctx.definedCallees cs, ∃ fs' ∈ comps, f.id ∈ ctx.members fs')
    (hRun : resolveCall ctx (stats, s) cs = .ok (stats', t)) :
    SameOwners s t ∧ ∃ made, made.map Connection.pair = ctx.connectionsOf cs ∧
        Advances ctx fs made (stats, s) (stats', t) := by
  rcases hCaller with ⟨_, hCaller, hMember⟩
  unfold resolveCall at hRun
  split at hRun
  · next hNone =>
    cases hRun
    refine ⟨.refl s, [], ?_, .refl ctx fs _⟩
    unfold Context.connectionsOf Context.definedCallees Context.callees
    rw [hNone]
    rfl
  · next r hr =>
    rcases of_bind hRun with ⟨⟨stats₁, s₁⟩, hFold, hRun⟩
    have hAll : SameOwners s s₁ ∧ ∃ made, made.map Connection.pair =
            (ctx.definedCallees cs).flatMap (fun callee => [(cs, callee)]) ∧
          Advances ctx fs made (stats, s) (stats₁, s₁) := by
      refine Advances.foldlM ?_ hs hFold
      rintro callee hMem ⟨stats, s⟩ ⟨stats', t⟩ hs hStep
      rcases hCallees callee hMem with ⟨_, hIn, hCallee⟩
      rcases advances_resolveCallee (fun e he => hs.sameGraph_eq_false hOthers he)
          (hs.exists_graph hCaller hMember)
          (hs.exists_graph hIn hCallee) hStep with
        ⟨hOwners, inPlace, hAdvances⟩
      exact ⟨hOwners, _, rfl, hAdvances⟩
    rcases hAll with ⟨hOwners, made, hMade, hAdvances⟩
    rw [← List.map_eq_flatMap] at hMade
    have hs₁ := hs.sameOwners hOwners
    dsimp only at hRun
    split at hRun
    · next g _ hGraph =>
      rcases of_bind hRun with ⟨h, hMark, hRun⟩
      cases hRun
      have hAct : Acts ctx none s₁ (s₁.setGraph cs.caller h) := .mark s₁ cs g h hGraph hMark
      have hMarked : Advances ctx fs [] (stats₁, s₁) ({ stats₁ with
            externalCalls := stats₁.externalCalls + 1 },
            s₁.setGraph cs.caller h) :=
        hAct.advances_setGraph hGraph (fun e he => hs₁.sameGraph_eq_false hOthers he)
          rfl rfl
      have hLast := hAdvances.trans hMarked
      rw [List.append_nil] at hLast
      exact ⟨hOwners.trans (sameOwners_setGraph s₁ _ h), made, hMade, hLast.mono fun e he =>
          (List.mem_append.mp he).elim id id⟩
    · cases hRun
      exact ⟨hOwners, made, hMade, hAdvances⟩

end Store

-- All Components

/-
  Components in an order for a bottom-up pass: no function is in two of
  them, and the callees of the calls inside one are in it or in one before.
-/
structure Context.Layered
    (ctx : Context)
    (comps : List (List FunctionId)) : Prop where
  nodup : (comps.flatMap ctx.members).Nodup
  callers : ∀ fs ∈ comps, ∀ cs ∈ ctx.callsOf fs,
    cs.caller ∈ ctx.members fs
  callees : ∀ done fs rest, comps = done ++ fs :: rest →
    ∀ cs ∈ ctx.callsOf fs, ∀ f ∈ ctx.definedCallees cs,
      ∃ fs' ∈ done ++ [fs], f.id ∈ ctx.members fs'

variable {ctx : Context} {comps done rest : List (List FunctionId)} {fs : List FunctionId}

/- No function of a component is in one before. -/
theorem Context.Layered.fresh
    (hComps : ctx.Layered comps)
    (hEq : comps = done ++ fs :: rest) :
    ∀ e ∈ ctx.members fs, ∀ fs' ∈ done, e ∉ ctx.members fs' := by
  intro e he fs' hfs' he'
  have hNodup := hComps.nodup
  rw [hEq, List.flatMap_append, List.flatMap_cons, List.nodup_append] at hNodup
  exact hNodup.2.2 e (List.mem_flatMap.mpr ⟨fs', hfs', he'⟩) e (List.mem_append_left _ he) rfl

/- Only its members share the graph of one of them. -/
theorem Context.Layered.members_of_shared
    (hComps : ctx.Layered comps)
    (hEq : comps = done ++ fs :: rest)
    {f : FunctionId}
    (hf : f ∈ ctx.members fs) :
    ∀ fs' ∈ done ++ [fs], f ∈ ctx.members fs' →
      ∀ e ∈ ctx.members fs', e ∈ ctx.members fs := by
  intro fs' hfs' hf' e he
  rcases List.mem_append.mp hfs' with hDone | hOne
  · exact absurd hf' (hComps.fresh hEq f hf fs' hDone)
  · cases List.mem_singleton.mp hOne
    exact he

namespace Store

variable {ctx : Context} {comps done rest : List (List FunctionId)}
variable {fs : List FunctionId} {s t : Store} {stats stats' : BottomUpStats}

/- Compressing a graph connects nothing. -/
theorem advances_compressGraph
    (ctx : Context)
    {f : FunctionId}
    (hOthers : ∀ e, e ∉ fs → s.sameGraph f e = false)
    (hRun : compressGraph s (some f) = .ok t)
    (stats : BottomUpStats) :
    SameOwners s t ∧ Advances ctx fs [] (stats, s) (stats, t) := by
  unfold compressGraph at hRun
  dsimp only at hRun
  split at hRun
  · cases hRun
    exact ⟨.refl s, .refl ctx fs _⟩
  · next g hGraph =>
    rcases of_bind hRun with ⟨h, hCompress, hRun⟩
    cases hRun
    have hAct : Acts ctx none s (s.setGraph f h) := .compress s f g h hGraph hCompress
    exact ⟨sameOwners_setGraph s f h, hAct.advances_setGraph hGraph hOthers rfl rfl⟩

/- A component has a graph of its own. -/
theorem Shares.advances_insert
    (hs : s.Shares ctx done)
    {g : Graph}
    (hLower : lowerFunctions ctx.program (ctx.bodies fs)
      { config := ctx.config.graph } = .ok (.ok g))
    (hInPlace : stats'.inPlace = stats.inPlace)
    (hResolved : stats'.callSitesResolved = stats.callSitesResolved) :
    Advances ctx (ctx.members fs) [] (stats, s) (stats', (s.insert (ctx.members fs) g).2) where
  runs := (Acts.build s fs g hLower).runs
  frame := by
    intro e he
    change (s.insert (ctx.members fs) g).2.graph? e = _
    rw [graph?_insert (hs.bound e), if_neg he]
  inPlace := hInPlace
  resolved := hResolved

/- The calls of a component are connected, each once. -/
theorem Shares.advances_resolveCalls
    (hs : s.Shares ctx (done ++ [fs]))
    (hComps : ctx.Layered comps)
    (hEq : comps = done ++ fs :: rest)
    (hRun : (ctx.callsOf fs).foldlM (resolveCall ctx) (stats, s) = .ok (stats', t)) :
    SameOwners s t ∧ ∃ made, made.map Connection.pair =
      (ctx.callsOf fs).flatMap ctx.connectionsOf ∧
        Advances ctx (ctx.members fs) made (stats, s) (stats', t) := by
  have hIn : fs ∈ comps := hEq ▸ List.mem_append_right done List.mem_cons_self
  have hLast : fs ∈ done ++ [fs] := List.mem_append_right done (List.mem_singleton_self fs)
  refine Advances.foldlM ?_ hs hRun
  rintro cs hcs ⟨stats, s⟩ ⟨stats', t⟩ hs hStep
  have hCaller := hComps.callers fs hIn cs hcs
  exact hs.advances_resolveCall (hComps.members_of_shared hEq hCaller) ⟨fs, hLast, hCaller⟩
    (hComps.callees done fs rest hEq cs hcs) hStep

/- The graph of a component is built and connected. -/
theorem Shares.advances_bottomUpComponent
    (hs : s.Shares ctx done)
    (hComps : ctx.Layered comps)
    (hEq : comps = done ++ fs :: rest)
    (hRun : bottomUpComponent ctx stats s fs = .ok (.ok stats', t)) :
    t.Shares ctx (done ++ [fs]) ∧ ∃ made, made.map Connection.pair =
          (ctx.callsOf fs).flatMap ctx.connectionsOf ∧
        Advances ctx (ctx.members fs) made (stats, s) (stats', t) := by
  unfold bottomUpComponent at hRun
  dsimp only at hRun
  split at hRun
  · next hEmpty =>
    have hNone : ctx.members fs = [] := List.isEmpty_iff.mp hEmpty
    cases hRun
    refine ⟨hs.skip hNone, [], ?_, .refl ctx _ _⟩
    unfold Context.callsOf
    rw [hNone]
    rfl
  · next hSome =>
    rcases of_bind hRun with ⟨lowered, hLower, hRun⟩
    cases lowered with
    | error e => cases hRun
    | ok g =>
      rcases of_bind hRun with ⟨⟨stats₂, s₂⟩, hCalls, hRun⟩
      rcases of_bind hRun with ⟨s₃, hCompress, hRun⟩
      cases hRun
      have hBuild : Advances ctx (ctx.members fs) [] (stats, s) ({ stats with
            components := stats.components + 1
            functions := stats.functions + (ctx.members fs).length },
            (s.insert (ctx.members fs) g).2) :=
        hs.advances_insert hLower rfl rfl
      have hs₁ := hs.insert (hComps.fresh hEq) g
      rcases hs₁.advances_resolveCalls hComps hEq hCalls with ⟨hOwners, made, hMade, hConnect⟩
      have hs₂ := hs₁.sameOwners hOwners
      rcases List.exists_cons_of_ne_nil (mt List.isEmpty_iff.mpr hSome) with ⟨f, others, hMembers⟩
      have hf : f ∈ ctx.members fs := List.mem_of_mem_head? (congrArg List.head? hMembers)
      have hHead : compressGraph s₂ (some f) = .ok t := by
        rw [← hCompress]
        exact congrArg (fun l => compressGraph s₂ l.head?) hMembers.symm
      rcases advances_compressGraph ctx (fun e he => hs₂.sameGraph_eq_false
            (hComps.members_of_shared hEq hf) he)
          hHead stats₂ with
        ⟨hOwners', hEnd⟩
      refine ⟨hs₂.sameOwners hOwners', made, hMade, ?_⟩
      have hWhole := (hBuild.trans hConnect).trans hEnd
      rw [List.nil_append, List.append_nil] at hWhole
      refine hWhole.mono fun e he => ?_
      simp only [List.mem_append, or_self] at he
      exact he

/- Components are finished one after the other. -/
theorem Shares.advances_bottomUpComponents
    (hs : s.Shares ctx done)
    {after : List (List FunctionId)}
    (hComps : ctx.Layered (done ++ (rest ++ after)))
    (hRun : bottomUpComponents ctx stats s rest = .ok (.ok stats', t)) :
    t.Shares ctx (done ++ rest) ∧ ∃ made, made.map Connection.pair =
          (rest.flatMap ctx.callsOf).flatMap ctx.connectionsOf ∧
        Advances ctx (rest.flatMap ctx.members) made (stats, s) (stats', t) := by
  induction rest generalizing done stats s with
  | nil =>
    cases hRun
    rw [List.append_nil]
    exact ⟨hs, [], rfl, .refl ctx _ _⟩
  | cons fs rest ih =>
    unfold bottomUpComponents at hRun
    rcases of_bind hRun with ⟨⟨answer, s₁⟩, hFirst, hRun⟩
    cases answer with
    | error e => cases hRun
    | ok stats₁ =>
      rcases hs.advances_bottomUpComponent hComps rfl hFirst with ⟨hs₁, made, hMade, hab⟩
      rw [List.cons_append, List.append_cons] at hComps
      rw [List.append_cons]
      rcases ih hs₁ hComps hRun with ⟨ht, made', hMade', hbc⟩
      refine ⟨ht, made ++ made', ?_, hab.trans hbc⟩
      rw [List.map_append, List.flatMap_cons, List.flatMap_append, hMade, hMade']

/- A pass can be stopped between two components. -/
theorem exists_of_bottomUpComponents_append
    (hRun : bottomUpComponents ctx stats s (done ++ rest) = .ok (.ok stats', t)) :
    ∃ stats₁ s₁, bottomUpComponents ctx stats s done = .ok (.ok stats₁, s₁) ∧
      bottomUpComponents ctx stats₁ s₁ rest = .ok (.ok stats', t) := by
  induction done generalizing stats s with
  | nil => exact ⟨stats, s, rfl, hRun⟩
  | cons fs done ih =>
    rw [List.cons_append] at hRun
    unfold bottomUpComponents at hRun
    rcases of_bind hRun with ⟨⟨answer, s₁⟩, hFirst, hRun⟩
    cases answer with
    | error e => cases hRun
    | ok stats₁ =>
      rcases ih hRun with ⟨stats₂, s₂, hDone, hRest⟩
      refine ⟨stats₂, s₂, ?_, hRest⟩
      unfold bottomUpComponents
      rw [hFirst]
      exact hDone

end Store

-- The Calls Of A Program

open CallGraph

/- The functions of a program that have a body. -/
def Program.bodies
    (p : Program) : List FunctionDef :=
  p.functions.filter FunctionDef.hasBody

/- The matched callees of a call, those with a body. -/
def Program.calleesOf
    (p : Program)
    (cs : CallSite) : List FunctionDef :=
  ((matchingCallees p cs).filterMap p.lastFunction?).filter
    FunctionDef.hasBody

/-
  The calls inside functions with a body, each with every entry of its
  matched callees that has a body.
-/
def Program.connections
    (p : Program) : List (CallSite × FunctionDef) :=
  (p.callSites.filter fun cs =>
      (p.bodies.map FunctionDef.id).contains cs.caller).flatMap
    fun cs => (p.calleesOf cs).map fun callee => (cs, callee)

variable {p : Program} {config : Config} {cs : CallSite}

/- The parts of a list under different keys. -/
theorem perm_flatMap_filter
    {α : Type}
    {key : α → Nat}
    {keys : List Nat}
    (hKeys : keys.Nodup)
    (items : List α) :
    (keys.flatMap fun k =>
        items.filter fun a => key a == k).Perm
      (items.filter fun a => keys.contains (key a)) := by
  induction keys with
  | nil =>
    rw [List.filter_eq_nil_iff.mpr fun _ _ hMem => by
      cases hMem]
    exact .refl []
  | cons k rest ih =>
    rcases List.nodup_cons.mp hKeys with ⟨hNew, hRest⟩
    rw [List.flatMap_cons]
    refine ((ih hRest).append_left _).trans ?_
    refine (Digraph.perm_filter_or ?_).trans (.of_eq ?_)
    · intro a _ hk
      rw [beq_iff_eq.mp hk]
      exact Bool.eq_false_iff.mpr (mt List.contains_iff_mem.mp hNew)
    · refine List.filter_congr ?_
      intro a _
      exact List.contains_cons.symm

theorem Program.mem_bodies_iff
    {f : FunctionDef} :
    f ∈ p.bodies ↔ f ∈ p.functions ∧ f.hasBody = true :=
  List.mem_filter

namespace Context

variable {fs : List FunctionId} {e : FunctionId}

theorem definedCallees_ofProgram
    (hp : p.Distinct)
    (hMem : cs ∈ p.callSites) :
    (Context.ofProgram p config).definedCallees cs = p.calleesOf cs := by
  have hResolution :
      (Context.ofProgram p config).callGraph.resolution? cs.id = some (resolutionOf p cs) :=
    resolution?_ofProgram hp hMem
  unfold definedCallees callees Program.calleesOf
  rw [hResolution]
  refine congrArg (List.filter FunctionDef.hasBody) ?_
  exact List.filterMap_congr fun id _ =>
    function?_ofProgram_eq hp id

theorem mem_members_iff
    (hp : p.Distinct) :
    e ∈ (Context.ofProgram p config).members fs ↔ e ∈ fs ∧ ∃ f ∈ p.bodies, f.id = e := by
  unfold members
  rw [List.mem_map]
  simp only [Context.mem_bodies_iff, Program.mem_bodies_iff]
  constructor
  · rintro ⟨f, ⟨hIn, hFind, hBody⟩, rfl⟩
    exact ⟨hIn, f, ⟨((function?_ofProgram_eq_some_iff hp).mp hFind).1, hBody⟩, rfl⟩
  · rintro ⟨hIn, f, ⟨hf, hBody⟩, rfl⟩
    exact ⟨f, ⟨hIn, (function?_ofProgram_eq_some_iff hp).mpr ⟨hf, rfl⟩, hBody⟩, rfl⟩

/- Every function with a body gets into one graph. -/
theorem perm_flatMap_members
    (hp : p.Distinct) :
    ((CallGraph.ofProgram p).components.flatMap (Context.ofProgram p config).members).Perm
      (p.bodies.map FunctionDef.id) := by
  have hFlat : ∀ comps : List (List FunctionId),
      comps.flatMap (Context.ofProgram p config).members = (Context.ofProgram p config).members
          comps.flatten := by
    intro comps
    induction comps with
    | nil => rfl
    | cons fs rest ih =>
      rw [List.flatMap_cons, ih, List.flatten_cons]
      unfold members bodies
      rw [List.filterMap_append, List.filter_append, List.map_append]
  have hAll : (p.functions.map FunctionDef.id).filterMap (Context.ofProgram p config).function? =
        p.functions := by
    have hFound : ∀ f ∈ p.functions, ((Context.ofProgram p config).function? ∘
          FunctionDef.id) f = some f :=
      fun f hf => (function?_ofProgram_eq_some_iff hp).mpr ⟨hf, rfl⟩
    rw [List.filterMap_map, List.filterMap_congr hFound]
    exact List.filterMap_some
  rw [hFlat]
  unfold members bodies Program.bodies
  refine List.Perm.map _ (List.Perm.filter _ ?_)
  refine ((perm_flatten_components hp).filterMap _).trans (.of_eq hAll)

/- The calls of a component are those of its members. -/
theorem callsOf_ofProgram
    (hp : p.Distinct)
    (fs : List FunctionId) :
    (Context.ofProgram p config).callsOf fs =
      ((Context.ofProgram p config).members fs).flatMap
        fun e => p.sortedCallSites.filter (·.caller == e) := by
  unfold callsOf callSitesIn
  rw [List.filterMap_flatten, List.map_map, ← List.flatMap_def]
  refine List.flatMap_congr ?_
  intro e _
  exact filterMap_defs_ofProgram hp e

theorem mem_callsOf_iff
    (hp : p.Distinct) :
    cs ∈ (Context.ofProgram p config).callsOf fs ↔ cs ∈ p.callSites ∧
        cs.caller ∈ (Context.ofProgram p config).members
          fs := by
  rw [callsOf_ofProgram hp, List.mem_flatMap]
  simp only [List.mem_filter, mem_sortedCallSites_iff, beq_iff_eq]
  constructor
  · rintro ⟨_, hMember, hIn, rfl⟩
    exact ⟨hIn, hMember⟩
  · rintro ⟨hIn, hMember⟩
    exact ⟨_, hMember, hIn, rfl⟩

/- The components of a program come callees first. -/
theorem layered_ofProgram
    (hp : p.Distinct)
    (config : Config) :
    (Context.ofProgram p config).Layered (CallGraph.ofProgram p).components where
  nodup := by
    refine (perm_flatMap_members hp).nodup_iff.mpr ?_
    exact hp.functions.sublist (List.filter_sublist.map FunctionDef.id)
  callers := by
    intro fs _ cs hcs
    exact ((mem_callsOf_iff hp).mp hcs).2
  callees := by
    intro done fs rest hEq cs hcs f hf
    rcases (mem_callsOf_iff hp).mp hcs with ⟨hIn, hCaller⟩
    rw [definedCallees_ofProgram hp hIn] at hf
    rcases List.mem_filter.mp hf with ⟨hFound, hBody⟩
    rcases List.mem_filterMap.mp hFound with ⟨id, hMatch, hFind⟩
    rcases hp.lastFunction?_eq_some_iff.mp hFind with ⟨hf, rfl⟩
    rcases exists_earlier_component hp hEq ((mem_members_iff hp).mp hCaller).1
        (.single ⟨cs, hIn, rfl, hMatch⟩) with
      ⟨fs', hfs', hMem⟩
    exact ⟨fs', hfs', (mem_members_iff hp).mpr ⟨hMem, f,
      Program.mem_bodies_iff.mpr ⟨hf, hBody⟩, rfl⟩⟩

/- The calls of all components are all calls. -/
theorem perm_connections
    (hp : p.Distinct) :
    (((CallGraph.ofProgram p).components.flatMap (Context.ofProgram p config).callsOf).flatMap
      (Context.ofProgram p config).connectionsOf).Perm
        p.connections := by
  have hNodup : (p.bodies.map FunctionDef.id).Nodup :=
    hp.functions.sublist (List.filter_sublist.map FunctionDef.id)
  have hCalls : ((CallGraph.ofProgram p).components.flatMap
        (Context.ofProgram p config).callsOf).Perm
      (p.callSites.filter fun cs =>
        (p.bodies.map FunctionDef.id).contains cs.caller) := by
    have hEach : (CallGraph.ofProgram p).components.flatMap (Context.ofProgram p config).callsOf =
        ((CallGraph.ofProgram p).components.flatMap (Context.ofProgram p config).members).flatMap
            fun e => p.sortedCallSites.filter (·.caller == e) := by
      rw [List.flatMap_assoc]
      exact List.flatMap_congr fun fs _ =>
        callsOf_ofProgram hp fs
    rw [hEach]
    refine ((perm_flatMap_members hp).flatMap_right _).trans ?_
    refine (perm_flatMap_filter hNodup _).trans ?_
    exact (perm_sortedCallSites p).filter _
  unfold Program.connections
  refine (hCalls.flatMap_right _).trans (.of_eq ?_)
  refine List.flatMap_congr ?_
  intro cs hcs
  unfold connectionsOf
  rw [definedCallees_ofProgram hp (List.mem_of_mem_filter hcs)]

/- No function is in two components. -/
theorem not_mem_members_after
    (hp : p.Distinct)
    {done more rest : List (List FunctionId)}
    (hEq : (CallGraph.ofProgram p).components = done ++ fs :: (more ++ rest))
    (he : e ∈ fs) :
    e ∉ more.flatMap (Context.ofProgram p config).members := by
  intro hMem
  rcases List.mem_flatMap.mp hMem with ⟨fs', hfs', he'⟩
  have hNodup := (perm_flatten_components hp).nodup_iff.mpr hp.functions
  rw [hEq, List.flatten_append, List.flatten_cons, List.flatten_append] at hNodup
  have hTail := (List.nodup_append.mp hNodup).2.1
  refine (List.nodup_append.mp hTail).2.2 e he e (List.mem_append_left _ ?_) rfl
  exact List.mem_flatten.mpr ⟨fs', hfs', ((mem_members_iff hp).mp he').1⟩

end Context

/- Who shares a graph after all components. -/
theorem Store.Shares.sameGraph_iff_callPath
    {t : Store}
    (ht : t.Shares (.ofProgram p config) (CallGraph.ofProgram p).components)
    (hp : p.Distinct)
    {f : FunctionDef}
    (hf : f ∈ p.bodies) :
    (∃ g, t.graph? f.id = some g) ∧ ∀ e, t.sameGraph f.id e = true ↔
        e ∈ p.bodies.map FunctionDef.id ∧ p.CallPath f.id e ∧ p.CallPath e f.id := by
  rcases CallGraph.exists_component (Program.mem_bodies_iff.mp hf).1 with ⟨fs, hfs, hIn⟩
  have hMember : f.id ∈ (Context.ofProgram p config).members fs :=
    (Context.mem_members_iff hp).mpr ⟨hIn, f, hf, rfl⟩
  refine ⟨ht.exists_graph hfs hMember, ?_⟩
  intro e
  rw [ht.shared, List.mem_map]
  constructor
  · rintro ⟨fs', hfs', hf', he'⟩
    rcases (Context.mem_members_iff hp).mp he' with ⟨heIn, hBody⟩
    exact ⟨hBody, (mem_component_iff hp hfs' ((Context.mem_members_iff hp).mp hf').1).mp heIn⟩
  · rintro ⟨hBody, hPaths⟩
    have heIn := (mem_component_iff hp hfs hIn).mpr hPaths
    exact ⟨fs, hfs, hMember, (Context.mem_members_iff hp).mpr ⟨heIn, hBody⟩⟩

/-
  A pass that ends gives every function with a body a graph, shared exactly
  with the functions with a body that it calls and that call it. It connects
  every call inside a function with a body with every entry of its matched
  callees that has a body, once: in place if both share a graph, and by a
  step otherwise. When a component is finished, its graph does not change
  any more.
-/
theorem bottom_up_pass_skips_no_call
    {stats : BottomUpStats}
    {t : Store}
    (hp : p.Distinct)
    (hRun : bottomUpPass (.ofProgram p config) {} =
      .ok (.ok stats, t)) :
    (∀ f ∈ p.bodies, (∃ g, t.graph? f.id = some g) ∧
      ∀ e, t.sameGraph f.id e = true ↔
        e ∈ p.bodies.map FunctionDef.id ∧
          p.CallPath f.id e ∧ p.CallPath e f.id) ∧
    (∃ made, Store.Runs (.ofProgram p config) made {} t ∧
      (made.map Connection.pair).Perm p.connections ∧
      stats.inPlace = made.countP Connection.inPlace ∧
      stats.callSitesResolved =
        made.countP (!·.inPlace)) ∧
    stats.inPlace + stats.callSitesResolved =
      p.connections.length ∧
    ∀ done fs more rest,
      (CallGraph.ofProgram p).components =
        done ++ fs :: (more ++ rest) →
      ∃ stats₁ s₁ stats₂ s₂,
        bottomUpComponents (.ofProgram p config) {} {}
          (done ++ [fs]) = .ok (.ok stats₁, s₁) ∧
        bottomUpComponents (.ofProgram p config) stats₁ s₁
          more = .ok (.ok stats₂, s₂) ∧
        bottomUpComponents (.ofProgram p config) stats₂ s₂
          rest = .ok (.ok stats, t) ∧
        ∀ e ∈ fs, s₂.graph? e = s₁.graph? e := by
  have hLayered := Context.layered_ofProgram hp config
  have hWhole := hLayered
  rw [← List.append_nil (CallGraph.components _)] at hWhole
  rcases (Store.Shares.empty _).advances_bottomUpComponents
      hWhole hRun with
    ⟨hShares, made, hMade, hAdvances⟩
  have hPairs : (made.map Connection.pair).Perm
      p.connections := by
    rw [hMade]
    exact Context.perm_connections hp
  have hInPlace := hAdvances.inPlace.trans (Nat.zero_add _)
  have hResolved := hAdvances.resolved.trans (Nat.zero_add _)
  refine ⟨fun f hf => hShares.sameGraph_iff_callPath hp hf,
    ⟨made, hAdvances.runs, hPairs, hInPlace, hResolved⟩,
    ?_, ?_⟩
  · rw [← hPairs.length_eq, List.length_map, hInPlace,
      hResolved]
    simpa using (List.length_eq_countP_add_countP
      Connection.inPlace (l := made)).symm
  · intro done fs more rest hEq
    change bottomUpComponents _ {} {}
      (CallGraph.ofProgram p).components = _ at hRun
    rw [hEq, List.append_cons] at hRun hLayered
    rcases Store.exists_of_bottomUpComponents_append hRun with
      ⟨stats₁, s₁, hDone, hAfter⟩
    rcases Store.exists_of_bottomUpComponents_append hAfter
      with ⟨stats₂, s₂, hMore, hRest⟩
    refine ⟨stats₁, s₁, stats₂, s₂, hDone, hMore, hRest, ?_⟩
    intro e he
    rcases (Store.Shares.empty _).advances_bottomUpComponents
        hLayered hDone with
      ⟨hShares₁, _⟩
    rcases hShares₁.advances_bottomUpComponents hLayered hMore
      with ⟨_, _, _, hAdvances⟩
    exact hAdvances.frame e
      (Context.not_mem_members_after hp hEq he)

/-
  Two functions that call each other. One of them may also call a third one,
  listed twice, which calls unknown code.
-/
def loopOverLeaf : Program where
  functions :=
    [{ id := 0, name := "even", formals := [⟨0, true⟩] },
      { id := 1, name := "odd", formals := [⟨1, true⟩], body := [.alloc 4 0 .heap 8 none] },
      { id := 2, name := "leaf", formals := [⟨2, true⟩], body := [.store 2 none none] },
      { id := 3, name := "unknown", formals := [⟨3, true⟩], isDeclaration := true }]
  callSites :=
    [{ id := 0, caller := 0, target := .indirect [2, 1, 2] true, actuals := [some 0] },
      { id := 1, caller := 1, target := .direct 0, actuals := [some 4] },
      { id := 2, caller := 2, target := .direct 3, actuals := [some 2] }]

/- Two connections are made in place, and two by steps. -/
theorem bottom_up_pass_skips_no_call_of_loopOverLeaf :
    loopOverLeaf.Distinct ∧ ∃ stats t,
      bottomUpPass (.ofProgram loopOverLeaf {}) {} =
        .ok (.ok stats, t) ∧
      stats.inPlace = 2 ∧ stats.callSitesResolved = 2 ∧
      stats.inPlace + stats.callSitesResolved =
        loopOverLeaf.connections.length ∧
      t.sameGraph 0 1 = true ∧
      loopOverLeaf.CallPath 0 1 ∧
      loopOverLeaf.CallPath 1 0 := by
  have hDistinct : loopOverLeaf.Distinct :=
    ⟨by decide, by decide⟩
  have hRun : (do
      let up ← bottomUpPass (.ofProgram loopOverLeaf {}) {}
      return (up.1.toOption.map fun stats =>
          (stats.inPlace, stats.callSitesResolved),
        up.2.sameGraph 0 1)) =
        Except.ok (some (2, 2), true) := by
    cbv
  rw [Checked.bind_eq_ok_iff] at hRun
  rcases hRun with ⟨⟨answer, t⟩, hPass, hRun⟩
  rw [Checked.pure_eq_ok_iff, Prod.mk.injEq] at hRun
  rcases hRun with ⟨hCounts, hShared⟩
  cases answer with
  | error e => cases hCounts
  | ok stats =>
      rcases Prod.mk.inj (Option.some.inj hCounts) with
        ⟨hInPlace, hResolved⟩
      have hEnd := bottom_up_pass_skips_no_call hDistinct
        hPass
      have hPaths := ((hEnd.1 _ List.mem_cons_self).2 1).mp
        hShared
      exact ⟨hDistinct, stats, t, hPass, hInPlace, hResolved,
        hEnd.2.2.1, hShared, hPaths.2⟩

end HeapShape
