import HeapShape.Analysis
import HeapShape.Proofs.Pass.Progress
import Mathlib.Control.Traversable.Instances
import Mathlib.Data.List.Permutation

/-
  Analyses end well.

  A run of any kind starts from lowered bodies and takes steps that keep the
  graphs in order. It ends with results, with an error of its own or by
  overflow; what it leaves behind is in order.

  Main declarations:
    * `Analysis.Settles`
    * `Analysis.yields_runBottomUp`
    * `Analysis.yields_runContextSensitive`
    * `Analysis.yields_run`
    * `rearranged_run_overflows`
-/

-- Whole Graphs

namespace HeapShape

open Checked

namespace Graph

variable {P : OrdSet FunctionId → AllocSite → Prop} {g : Graph}

theorem InOrder.yields_clean
    (hg : g.InOrder P) :
    Yields g.clean fun r => r.2.InOrder P :=
  InOrder.yields_removeDead (Kept.clearCallSites hg)

/- A node is merged into the one that stands for all. -/
theorem Evolves.flattenInto
    (Q : AllocSite → Prop)
    (X : NodeId → Prop)
    {rep id : NodeId}
    (hg : g.WellFormed)
    (hRep : g.hasNode rep = true)
    (hNode : g.hasNode id = true) :
    Yields (flattenInto (rep, g) id) fun r => Evolves Q X g r.2 ∧
      r.2.hasNode r.1 = true := by
  unfold Graph.flattenInto
  dsimp only
  refine (Evolves.findNode Q X hg hNode).bind ?_
  rintro ⟨node, g₁⟩ ⟨hFound, hThere⟩
  dsimp only at hFound hThere ⊢
  have hRep₁ := hFound.merged.hasNode hg hRep
  split
  · exact .ok ⟨hFound, hRep₁⟩
  · refine (Evolves.collapse Q X hFound.wellFormed hThere).bind ?_
    rintro ⟨last, g₂⟩ ⟨hCollapsed, hLast⟩
    dsimp only at hCollapsed hLast ⊢
    have hRep₂ := hCollapsed.merged.hasNode hFound.wellFormed hRep₁
    refine (Evolves.unify Q X hCollapsed.wellFormed (has_start hRep₂) (has_start hLast)).bind ?_
    intro g₃ hUnited
    have hSteps := (hFound.trans hCollapsed).trans hUnited
    refine (Evolves.findNode Q X hUnited.wellFormed
      (hUnited.merged.hasNode hCollapsed.wellFormed hRep₂)).imp ?_
    rintro r ⟨hEnd, hHere⟩
    exact ⟨hSteps.trans hEnd, hHere⟩

theorem InOrder.yields_flatten
    (hg : g.InOrder P) :
    Yields g.flatten (InOrder P) := by
  unfold Graph.flatten
  split
  · exact .ok hg
  · next first rest hNodes =>
    have hLive : ∀ id ∈ first :: rest, g.hasNode id = true := by
      intro id hMem
      rw [← hNodes] at hMem
      rcases List.mem_map.mp hMem with ⟨e, he, rfl⟩
      exact hasNode_of_live (mem_liveNodes.mp he)
    refine (Evolves.collapse (P g.functions) (fun _ => False)
      hg.wellFormed (hLive first List.mem_cons_self)).bind ?_
    rintro ⟨rep, h⟩ ⟨hFirst, hRep⟩
    refine Yields.bind (P := fun r : NodeId × Graph =>
        Evolves (P g.functions) (fun _ => False) g r.2 ∧ r.2.hasNode r.1 = true) ?_ ?_
    · refine yields_foldlM ⟨hFirst, hRep⟩ ?_
      rintro ⟨rep, h⟩ id hMem ⟨hStep, hRep⟩
      have hNode := hStep.merged.hasNode hg.wellFormed (hLive id (List.mem_cons_of_mem _ hMem))
      refine (Evolves.flattenInto (P g.functions)
        (fun _ => False) hStep.wellFormed hRep hNode).imp ?_
      rintro r ⟨hNext, hThere⟩
      exact ⟨hStep.trans hNext, hThere⟩
    · rintro ⟨_, h⟩ ⟨hStep, _⟩
      exact (hg.step hStep).yields_compress

end Graph

-- Runs

theorem Store.InOrder.yields_clean
    {P : OrdSet FunctionId → AllocSite → Prop}
    {s : Store}
    (hs : s.InOrder P) :
    Yields s.clean fun r => r.2.InOrder P :=
  hs.yields_mapGraphs fun _ hg => hg.yields_clean

namespace Analysis

open Graph

/-
  What a run leaves behind: graphs in order, and summaries in order if it
  has an answer.
-/
structure Settles
    {α : Type}
    (P : OrdSet FunctionId → AllocSite → Prop)
    (r : Ran α) : Prop where
  store : r.2.store.InOrder P
  summaries : ∀ x, r.1 = .ok x →
    ∀ t, r.2.summaries? = some t → t.InOrder P

variable {P : OrdSet FunctionId → AllocSite → Prop} {p : Program} {a : Analysis} {α : Type}

theorem Settles.map
    {β : Type}
    {r : Except AnalysisError α}
    (h : Settles P (r, a))
    (f : α → β) :
    Settles P (r.map f, a) where
  store := h.store
  summaries := by
    intro y hOk
    cases r with
    | error e => cases hOk
    | ok x => exact h.summaries x rfl

/- Where there are no summaries, the results stand in. -/
theorem Settles.inOrder_summaryStore
    {r : Ran α}
    (h : Settles P r)
    {x : α}
    (hAnswer : r.1 = .ok x) :
    r.2.summaryStore.InOrder P := by
  unfold summaryStore
  cases hSome : r.2.summaries? with
  | none => exact h.store
  | some t => exact h.summaries x hAnswer t hSome

/- Resolving a call in the one graph of a program. -/
theorem evolves_mergeCall
    (Q : AllocSite → Prop)
    {g : Graph}
    (hg : g.WellFormed)
    (ctx : Context)
    (id : CallSiteId) :
    Yields (mergeCall ctx g id) (Evolves Q (fun _ => False) g) := by
  unfold mergeCall
  split
  · exact .ok (.refl hg)
  · next cs _ =>
    split
    · exact .ok (.refl hg)
    · split
      · refine Yields.bind (P := Evolves Q (fun _ => False) g) ?_ ?_
        · refine yields_foldlM (.refl hg) ?_
          intro h callee _ hStep
          exact (Evolves.resolveInPlace _ _ hStep.wellFormed
            cs callee).imp fun _ hNext => hStep.trans hNext
        · intro h hStep
          dsimp only
          generalize (!_ || _ : Bool) = marked
          cases marked with
          | true =>
            exact (Evolves.markExternal _ _ hStep.wellFormed cs).imp
              fun _ hNext => hStep.trans hNext
          | false => exact .ok hStep
      · exact .ok (.refl hg)

theorem yields_runContextInsensitive
    (hP : Strays P p a.config.cloning)
    (hWords : p.InWords) :
    Yields (a.runContextInsensitive p) (Settles P) := by
  unfold runContextInsensitive
  refine (gives_lowerFunctions_kept hP hWords a.config.graph (fun f hf =>
      List.mem_of_mem_filter hf)).bind ?_
  intro r hLowered
  cases r with
  | error e => exact .ok ⟨.empty, nofun⟩
  | ok g =>
    have hg := hLowered g rfl
    dsimp only
    generalize (p.functions.filter FunctionDef.hasBody).map FunctionDef.id = members at hg ⊢
    refine Yields.bind (P := Evolves (P (members.foldl addFunction g).functions)
      (fun _ => False) g) ?_ ?_
    · refine yields_foldlM (.refl hg.wellFormed) ?_
      intro h id _ hStep
      exact (evolves_mergeCall _ hStep.wellFormed _ id).imp fun _ hNext => hStep.trans hNext
    · intro g₁ hMerged
      refine (hg.step hMerged).yields_compress.bind ?_
      rintro g₂ ⟨hCompressed, hg₂⟩
      refine hg₂.clearCallSites.yields_removeDead.bind ?_
      rintro ⟨count, g₃⟩ ⟨hThinned, hg₃⟩
      have hFunctions : g₃.functions = g.functions :=
        (hThinned.functions.trans hCompressed.functions).trans hMerged.functions
      refine .ok ⟨Store.InOrder.insert .empty ?_, ?_⟩
      · exact InOrder.of_kept (hg₃.foldl_addFunction members)
          (functions_foldl_addFunction_congr hFunctions members)
      · intro _ _ t hNone
        cases hNone

theorem yields_runFlat
    (hP : Strays P p a.config.cloning)
    (hWords : p.InWords) :
    Yields (a.runFlat p) (Settles P) := by
  unfold runFlat
  refine (yields_runContextInsensitive hP hWords).bind ?_
  rintro ⟨answer, b⟩ hb
  cases answer with
  | error e => exact .ok ⟨hb.store, nofun⟩
  | ok _ =>
    refine (hb.store.yields_mapGraphs ?_).bind ?_
    · intro g hg
      refine hg.yields_flatten.bind ?_
      intro h hh
      exact .ok hh
    · rintro ⟨_, s⟩ hs
      exact .ok ⟨hs, hb.summaries⟩

theorem yields_runBottomUp
    (hP : Strays P p a.config.cloning)
    (hWords : p.InWords)
    (topDown : Bool) :
    Yields (a.runBottomUp p topDown) (Settles P) := by
  unfold runBottomUp
  refine (Store.InOrder.empty.yields_bottomUpPass hP hWords).bind ?_
  rintro ⟨answer, s⟩ hs
  cases answer with
  | error e => exact .ok ⟨hs, nofun⟩
  | ok up =>
    dsimp only
    split
    · refine (hs.yields_topDownPass hP).bind ?_
      rintro ⟨down, t⟩ ht
      rw [pure_bind]
      refine ht.yields_clean.bind ?_
      rintro ⟨_, u⟩ hu
      exact .ok ⟨hu, fun _ _ _ hSome => by
        cases hSome
        exact hs⟩
    · rw [pure_bind]
      refine hs.yields_clean.bind ?_
      rintro ⟨_, u⟩ hu
      exact .ok ⟨hu, fun _ _ _ hSome => by
        cases hSome
        exact hs⟩

/- A closure that may be turned off. -/
theorem yields_optional_closure
    {enabled : Bool}
    {closure : Checked (Answered ClosureStats)}
    {next : Answered (Option ClosureStats) → Checked α}
    {s : Store}
    {Q : α → Prop}
    (hs : s.InOrder P)
    (hClosure : Yields closure fun r => r.2.InOrder P)
    (hNext : ∀ r, r.2.InOrder P → Yields (next r) Q) :
    Yields (if enabled = true then do
        let x ← closure
        let y ← pure (Except.map some x.1, x.2)
        next y
      else do
        let y ← pure (.ok none, s)
        next y) Q := by
  split
  · refine hClosure.bind ?_
    intro r hr
    exact hNext (r.1.map some, r.2) hr
  · exact hNext (.ok none, s) hs

/- The closures and the final check keep the summaries. -/
theorem yields_closeAndCheck
    {ctx : Context}
    (hs : a.store.InOrder P)
    (hP : Strays P ctx.program ctx.config.cloning) :
    Yields (a.closeAndCheck ctx) fun r => r.2.store.InOrder P ∧
      r.2.summaries? = a.summaries? := by
  unfold closeAndCheck
  dsimp only
  refine yields_optional_closure hs hs.yields_uniqueScalarClosure ?_
  rintro ⟨scalars, s⟩ hs
  cases scalars with
  | error e => exact .ok ⟨hs, rfl⟩
  | ok scalars? =>
    refine yields_optional_closure hs (hs.yields_allocSiteClosure hP) ?_
    rintro ⟨sites, t⟩ ht
    cases sites with
    | error e => exact .ok ⟨ht, rfl⟩
    | ok sites? =>
      dsimp only
      split
      · refine ht.yields_checkStable.bind ?_
        intro verdict _
        exact .ok ⟨ht, rfl⟩
      · exact .ok ⟨ht, rfl⟩

theorem yields_runContextSensitive
    (hP : Strays P p a.config.cloning)
    (hWords : p.InWords) :
    Yields (a.runContextSensitive p) (Settles P) := by
  unfold runContextSensitive
  refine (Store.InOrder.empty.yields_bottomUpPass hP hWords).bind ?_
  rintro ⟨answer, summaries⟩ hSummaries
  cases answer with
  | error e => exact .ok ⟨hSummaries, nofun⟩
  | ok up =>
    refine (hSummaries.yields_runFixpoint hP).bind ?_
    rintro ⟨answer, s⟩ hs
    cases answer with
    | error e => exact .ok ⟨hs, nofun⟩
    | ok fix =>
      refine (yields_closeAndCheck hs hP).bind ?_
      rintro ⟨answer, b⟩ ⟨hb, hSame⟩
      cases answer with
      | error e => exact .ok ⟨hb, nofun⟩
      | ok _ =>
        refine hb.yields_clean.bind ?_
        rintro ⟨dead, t⟩ ht
        refine .ok ⟨ht, ?_⟩
        intro _ _ u hSome
        rw [hSame] at hSome
        cases hSome
        exact hSummaries

theorem yields_runParts
    (hP : Strays P p a.config.cloning)
    (hWords : p.InWords) :
    Yields (a.runParts p) (Settles P) := by
  unfold runParts
  dsimp only
  split
  · refine (yields_runFlat hP hWords).bind ?_
    rintro ⟨r, b⟩ hb
    exact .ok (hb.map _)
  · refine (yields_runContextInsensitive hP hWords).bind ?_
    rintro ⟨r, b⟩ hb
    exact .ok (hb.map _)
  · refine (yields_runBottomUp hP hWords false).bind ?_
    rintro ⟨r, b⟩ hb
    exact .ok (hb.map _)
  · refine (yields_runBottomUp hP hWords true).bind ?_
    rintro ⟨r, b⟩ hb
    exact .ok (hb.map _)
  · refine (yields_runContextSensitive hP hWords).bind ?_
    rintro ⟨r, b⟩ hb
    exact .ok (hb.map _)

/- A run of any kind ends well. -/
theorem yields_run
    (hP : Strays P p a.config.cloning)
    (hWords : p.InWords) :
    Yields (a.run p) (Settles P) := by
  unfold run
  refine (yields_runParts hP hWords).bind ?_
  rintro ⟨r, b⟩ hb
  exact .ok (hb.map _)

end Analysis

/-
  Calls of one function with values of their own. The order in which they
  are listed tells which nodes are compared first: two that overlap, or two
  whose places do not fit in a word.
-/
def overlapsLate : Program where
  functions :=
    [{ id := 0, name := "f", formals := [⟨0, true⟩, ⟨1, true⟩,
        ⟨2, true⟩, ⟨3, true⟩, ⟨4, true⟩] },
      { id := 1, name := "sh", formals := [⟨5, true⟩],
        returnsPointer := true,
        body := [.fieldAddr 6 5 300000000, .ret 6] },
      { id := 2, name := "main",
        body := [.alloc 7 0 .heap 4000000000 none,
          .alloc 8 1 .heap 8 none, .indexAddr 9 8 8] }]
  callSites :=
    [{ id := 0, caller := 2, target := .direct 0,
       actuals := [some 14, some 13, some 13, some 9, some 7] },
      { id := 1, caller := 2, target := .direct 0, actuals :=
          [some 12, some 12, some 12, some 10, some 11] },
      { id := 2, caller := 2, target := .direct 1,
        actuals := [some 10], result? := some 11 }]

/-
  Which of its ends a run comes to may depend on the order in which calls
  are listed.
-/
theorem rearranged_run_overflows :
    ∃ config calls stats b,
      (overlapsLate.functions.map (·.id)).Nodup ∧
      (overlapsLate.callSites.map (·.id)).Nodup ∧
      calls.Perm overlapsLate.callSites ∧
      (Analysis.new config).run overlapsLate =
        .ok (.ok stats, b) ∧
      (Analysis.new config).run
        { overlapsLate with callSites := calls } =
          .error .addOverflow := by
  let config : Config :=
    { fixpoint := { onlyModifiedInjectivity := false } }
  have hRun : (do
      let ran ← (Analysis.new config).run overlapsLate
      return ran.1.isOk) = Except.ok true := by
    cbv
  have hFault : (Analysis.new config).run
      { overlapsLate with
        callSites := overlapsLate.callSites.reverse } =
          .error .addOverflow := by
    cbv
  rcases of_bind hRun with ⟨⟨answer, b⟩, hRun, hOk⟩
  cases answer with
  | error e => cases hOk
  | ok stats =>
    exact ⟨config, _, stats, b, by decide, by decide,
      List.reverse_perm _, hRun, hFault⟩

end HeapShape
