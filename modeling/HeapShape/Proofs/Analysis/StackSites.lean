import HeapShape.Proofs.Analysis.Safety

/-
  Stack sites stay home.

  Callers and callees exchange no stack sites if the policy strips them on
  both ways. Only globals take theirs along, since the memory of a global is
  not local to a function. A site that is a stranger to the functions of a
  graph is therefore found in nodes of globals only.

  Main declarations:
    * `Program.IsStray`
    * `Graph.IsGlobalNode`
    * `stack_sites_stay_home`
-/

namespace HeapShape

/- A stack site at which none of some functions allocates. -/
def Program.IsStray
    (p : Program)
    (fs : OrdSet FunctionId)
    (site : AllocSite) : Prop :=
  site.isStack = true ∧
    ∀ f ∈ p.functions, f.id ∈ fs →
      ∀ op ∈ f.body, op.site? ≠ some site

/- A node that a global is bound to. -/
def Graph.IsGlobalNode
    (g : Graph)
    (id : NodeId) : Prop :=
  ∃ v c k, g.roots.get? (.global v) = some c ∧
    g.Leads c.node id k

/- Such sites are strangers if both ways are closed. -/
theorem Program.strays_isStray
    (p : Program)
    {policy : CloningPolicy}
    (hStrip : policy.stripAllocas = true)
    (hKeep : policy.noEscape = true) :
    Strays p.IsStray p policy where
  stack := fun _ _ hStray => hStray.1
  stripped := fun _ _ _ => hStrip
  kept := fun _ _ _ => hKeep
  home := by
    intro fs f op site hf hIn hOp hSite hStray
    exact hStray.2 f hf hIn op hOp hSite

variable {site : AllocSite}

/- Only a stack allocation has a stack site. -/
theorem Operation.eq_alloc_of_site?
    {op : Operation}
    (hSite : op.site? = some site)
    (hStack : site.isStack = true) :
    ∃ dst size type?, op = .alloc dst site.id .stack size type? := by
  cases op with
  | alloc dst id kind size type? =>
    cases hSite
    have hKind : kind = .stack := by
      simpa [AllocSite.isStack] using hStack
    exact ⟨dst, size, type?, by rw [hKind]⟩
  | _ => cases hSite

/- A node without a global has the sites of its functions. -/
theorem Graph.InOrder.exists_alloc
    {p : Program}
    {g : Graph}
    (hg : g.InOrder p.IsStray)
    {id : NodeId}
    {n : Node}
    (hLive : g.slot id = .live n)
    (hLocal : ¬ g.IsGlobalNode id)
    (hSite : site ∈ n.allocSites)
    (hStack : site.isStack = true) :
    ∃ f ∈ p.functions, f.id ∈ g.functions ∧ ∃ dst size type?,
        .alloc dst site.id .stack size type? ∈ f.body := by
  by_contra hNone
  have hStray : p.IsStray g.functions site := by
    refine ⟨hStack, ?_⟩
    intro f hf hIn op hOp hEq
    rcases op.eq_alloc_of_site? hEq hStack with ⟨dst, size, type?, rfl⟩
    exact hNone ⟨f, hf, hIn, dst, size, type?, hOp⟩
  rcases hg.sheltered id n site hLive hSite hStray with ⟨y, k, ⟨v, c, hRoot, rfl⟩, hLeads⟩
  exact hLocal ⟨v, c, k, hRoot, hLeads⟩

/-
  With both ways closed, a run of any kind that has an answer leaves every
  stack site in a graph of a function that allocates there, apart from the
  nodes of globals. So do the summaries of the run.
-/
theorem stack_sites_stay_home
    (a : Analysis)
    (p : Program)
    (hWords : p.InWords)
    (hStrip : a.config.cloning.stripAllocas = true)
    (hKeep : a.config.cloning.noEscape = true) :
    Checked.Yields (a.run p) fun r =>
      ∀ stats, r.1 = .ok stats →
      ∀ s, s = r.2.store ∨ s = r.2.summaryStore →
      ∀ g ∈ s.graphs, ∀ id n, g.slot id = .live n →
        ¬ g.IsGlobalNode id →
      ∀ site ∈ n.allocSites, site.isStack = true →
        ∃ f ∈ p.functions, f.id ∈ g.functions ∧
          ∃ dst size type?,
            .alloc dst site.id .stack size type? ∈
              f.body := by
  refine (Analysis.yields_run
    (p.strays_isStray hStrip hKeep) hWords).imp ?_
  intro r hr stats hAnswer s hStore
  have hs : s.InOrder p.IsStray := by
    rcases hStore with rfl | rfl
    · exact hr.store
    · exact hr.inOrder_summaryStore hAnswer
  intro g hg id n hLive hLocal site hSite hStack
  exact (hs g hg).exists_alloc hLive hLocal hSite hStack

/-
  After a run the stack site of the caller is on a live node of its graph,
  and the caller is the function that allocates there.
-/
theorem stack_sites_stay_home_of_lendsStack :
    ∃ stats a g n,
      (Analysis.new { cloning := { noEscape := true } }).run
        lendsStack = .ok (.ok stats, a) ∧
      a.graph? 1 = some g ∧ g.slot 0 = .live n ∧
      { id := 0, kind := .stack } ∈ n.allocSites ∧
      ∃ f ∈ lendsStack.functions, f.id ∈ g.functions ∧
        ∃ dst size type?,
          .alloc dst 0 .stack size type? ∈ f.body := by
  have hRun : (do
      let ran ← (Analysis.new { cloning := { noEscape := true } }).run lendsStack
      return (ran.1.isOk, (ran.2.graph? 1).map fun g =>
        ((g.slot 0).node?.map (·.allocSites.toList), g.roots.keys))) =
      Except.ok (true, some (some [{ id := 0, kind := .stack }], [.scalar 2, .scalar 3])) := by
    cbv
  rcases Checked.of_bind hRun with ⟨⟨r, a⟩, hRan, hRun⟩
  simp only [Checked.pure_eq_ok_iff, Prod.mk.injEq, Option.map_eq_some_iff] at hRun
  rcases hRun with ⟨hOk, g, hGraph, ⟨n, hNode, hSites⟩, hKeys⟩
  have hLive := Slot.node?_eq_some_iff.mp hNode
  have hSite : { id := 0, kind := .stack } ∈ n.allocSites := by
    rw [← OrdSet.mem_toList_iff, hSites]
    exact List.mem_singleton_self _
  have hLocal : ¬ g.IsGlobalNode 0 := by
    rintro ⟨v, c, k, hRoot, _⟩
    have hKey := List.mem_map_of_mem (f := Prod.fst) ((OrdMap.get?_eq_some_iff _ _ _).mp hRoot)
    rw [show g.roots.entries.map Prod.fst = _ from hKeys] at hKey
    simp at hKey
  cases r with
  | error e => cases hOk
  | ok stats =>
    have hHome := Checked.Yields.of_eq_ok (stack_sites_stay_home _ lendsStack (by decide) rfl rfl)
      hRan stats rfl _ (.inl rfl) g (Store.mem_graphs hGraph) 0 n hLive hLocal _ hSite rfl
    exact ⟨stats, a, g, n, hRan, hGraph, hLive, hSite, hHome⟩

end HeapShape
