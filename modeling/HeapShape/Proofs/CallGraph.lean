import HeapShape.CallGraph

/-
  The indexes of a call graph.

  Every call site of a program is listed, under its caller as a call inside
  it and under each of its callees as a call of it.

  Main declarations:
    * `CallGraph.Indexes`
    * `CallGraph.indexes_ofProgram`
-/

-- Lists Under Keys

namespace HeapShape

namespace CallGraph

/- An item is under the key it was added to. -/
theorem mem_appendTo_iff
    {α : Type}
    {m : OrdMap Nat (List α)}
    {key other : Nat}
    {item a : α} :
    a ∈ ((appendTo m key item).get? other).getD [] ↔
      a ∈ (m.get? other).getD [] ∨ other = key ∧ a = item := by
  unfold appendTo
  rw [OrdMap.get?_insert]
  split
  · next hEq =>
    subst hEq
    simp
  · next hNe => simp [hNe]

variable {id : CallSiteId}

/- A call site is under each of the callees it was added to. -/
theorem mem_foldl_appendTo_iff
    {m : OrdMap Nat (List CallSiteId)}
    {callees : List FunctionId}
    {site : CallSiteId}
    {f : FunctionId} :
    id ∈ ((callees.foldl (fun m callee =>
        appendTo m callee site) m).get? f).getD [] ↔
      id ∈ (m.get? f).getD [] ∨ f ∈ callees ∧ id = site := by
  induction callees generalizing m with
  | nil => simp
  | cons callee rest ih =>
    rw [List.foldl_cons, ih, mem_appendTo_iff]
    simp only [List.mem_cons]
    constructor
    · rintro ((hOld | ⟨rfl, rfl⟩) | ⟨hMem, rfl⟩)
      · exact Or.inl hOld
      · exact Or.inr ⟨Or.inl rfl, rfl⟩
      · exact Or.inr ⟨Or.inr hMem, rfl⟩
    · rintro (hOld | ⟨rfl | hMem, rfl⟩)
      · exact Or.inl (Or.inl hOld)
      · exact Or.inl (Or.inr ⟨rfl, rfl⟩)
      · exact Or.inr ⟨hMem, rfl⟩

-- Entering Call Sites

variable {p : Program} {c : CallGraph}

/- An edge changes the directed graph only. -/
theorem addEdge_eq
    (c : CallGraph)
    (caller callee : FunctionId) :
    ∃ d, c.addEdge caller callee = { c with digraph := d } := by
  unfold addEdge
  split
  · exact ⟨_, rfl⟩
  · exact ⟨c.digraph, rfl⟩

/- The edges of a call change edges and uses only. -/
theorem foldl_addEdge_eq
    (c : CallGraph)
    (caller : FunctionId)
    (callees : List FunctionId)
    (site : CallSiteId) :
    ∃ d, callees.foldl (fun c callee =>
        ({ c with
          usesOf := appendTo c.usesOf callee site }).addEdge caller callee) c =
      { c with
        digraph := d
        usesOf := callees.foldl (fun m callee =>
          appendTo m callee site) c.usesOf } := by
  induction callees generalizing c with
  | nil => exact ⟨c.digraph, rfl⟩
  | cons callee rest ih =>
    rcases addEdge_eq { c with usesOf := appendTo c.usesOf callee site } caller callee
      with ⟨d, hEdge⟩
    rw [List.foldl_cons, hEdge]
    rcases ih { c with
        usesOf := appendTo c.usesOf callee site
        digraph := d } with
      ⟨d', hRest⟩
    exact ⟨d', hRest⟩

/-
  The call graph lists some call sites: each inside its caller, and each
  under the callees it is resolved to. No other call sites are listed.
-/
structure Indexes
    (c : CallGraph)
    (sites : List CallSite) : Prop where
  order : c.order = sites.map CallSite.id
  defs : ∀ cs ∈ sites, cs.id ∈ c.defs cs.caller
  uses : ∀ id r, c.resolution? id = some r →
    ∀ f ∈ r.callees, id ∈ c.uses f
  listed : ∀ f id, id ∈ c.uses f ∨ id ∈ c.defs f →
    id ∈ c.order

variable {sites : List CallSite}

/- Entering one more call site. -/
theorem Indexes.addCallSite
    (hc : c.Indexes sites)
    (cs : CallSite) :
    (addCallSite p c cs).Indexes (sites ++ [cs]) := by
  unfold CallGraph.addCallSite
  rcases foldl_addEdge_eq { c with defsOf := appendTo c.defsOf cs.caller cs.id }
      cs.caller (matchingCallees p cs) cs.id with
    ⟨d, hEdges⟩
  dsimp only
  rw [hEdges]
  constructor
  · dsimp only
    rw [hc.order, List.map_append]
    rfl
  · intro other hMem
    change other.id ∈ ((appendTo c.defsOf cs.caller cs.id).get? other.caller).getD []
    rw [mem_appendTo_iff]
    rcases List.mem_append.mp hMem with hOld | hNew
    · exact Or.inl (hc.defs other hOld)
    · rcases List.mem_singleton.mp hNew with rfl
      exact Or.inr ⟨rfl, rfl⟩
  · intro id r hGet f hf
    change id ∈ ((List.foldl _ c.usesOf _).get? f).getD []
    rw [mem_foldl_appendTo_iff]
    change (c.resolutions.insert cs.id _).get? id = some r at hGet
    rw [OrdMap.get?_insert] at hGet
    split at hGet
    · next hEq =>
      cases hGet
      exact Or.inr ⟨hf, hEq⟩
    · exact Or.inl (hc.uses id r hGet f hf)
  · intro f id hListed
    change id ∈ ((List.foldl _ c.usesOf _).get? f).getD [] ∨
      id ∈ ((appendTo c.defsOf _ _).get? f).getD [] at hListed
    rw [mem_foldl_appendTo_iff, mem_appendTo_iff] at hListed
    refine List.mem_append.mpr ?_
    rcases hListed with (hOld | ⟨_, rfl⟩) | hOld | ⟨_, rfl⟩
    · exact Or.inl (hc.listed f id (Or.inl hOld))
    · exact Or.inr List.mem_cons_self
    · exact Or.inl (hc.listed f id (Or.inr hOld))
    · exact Or.inr List.mem_cons_self

/- Entering call sites one after the other. -/
theorem Indexes.foldl_addCallSite
    (hc : c.Indexes sites)
    (more : List CallSite) :
    (more.foldl (CallGraph.addCallSite p) c).Indexes (sites ++ more) := by
  induction more generalizing c sites with
  | nil =>
    rw [List.append_nil]
    exact hc
  | cons cs rest ih =>
    rw [List.foldl_cons, List.append_cons]
    exact ih (hc.addCallSite cs)

/- The call graph of a program lists its call sites. -/
theorem indexes_ofProgram
    (p : Program) :
    (ofProgram p).Indexes p.sortedCallSites := by
  have hStart : ({
      digraph := { size := (p.functions.map FunctionDef.id).length }
      vertexOf := placesOf (p.functions.map FunctionDef.id)
      functionPlace := placesOf (p.functions.map FunctionDef.id)
      callSitePlace := placesOf (p.callSites.map CallSite.id) } :
      CallGraph).Indexes [] :=
    { order := rfl
      defs := fun _ hMem => absurd hMem List.not_mem_nil
      uses := fun _ _ hGet => by cases hGet
      listed := fun _ _ hListed => by
        rcases hListed with hMem | hMem <;> cases hMem }
  have hAll := hStart.foldl_addCallSite (p := p) p.sortedCallSites
  rw [List.nil_append] at hAll
  exact ⟨hAll.order, hAll.defs, hAll.uses, hAll.listed⟩

/- The calls of a program are visited in some order. -/
theorem mem_sortedCallSites_iff
    {cs : CallSite} :
    cs ∈ p.sortedCallSites ↔ cs ∈ p.callSites := by
  unfold Program.sortedCallSites
  simp only [List.mem_map, List.mem_mergeSort]
  constructor
  · rintro ⟨_, ⟨this, hMem, rfl⟩, rfl⟩
    exact hMem
  · intro hMem
    exact ⟨(p.sortKey cs, cs), ⟨cs, hMem, rfl⟩, rfl⟩

/- A call site found by its number is in the program. -/
theorem callSite?_eq_some
    {cs : CallSite}
    (hFind : c.callSite? p id = some cs) :
    cs ∈ p.callSites ∧ cs.id = id := by
  unfold callSite? at hFind
  split at hFind
  · next other hPlace =>
    split at hFind
    · next hId =>
      cases hFind
      rw [Option.bind_eq_some_iff] at hPlace
      rcases hPlace with ⟨i, _, hAt⟩
      exact ⟨List.mem_of_getElem? hAt, hId⟩
    · cases hFind
  · cases hFind

/- So is a function found by its number. -/
theorem function?_eq_some
    {id : FunctionId}
    {f : FunctionDef}
    (hFind : c.function? p id = some f) :
    f ∈ p.functions ∧ f.id = id := by
  unfold function? at hFind
  split at hFind
  · next other hPlace =>
    split at hFind
    · next hId =>
      cases hFind
      rw [Option.bind_eq_some_iff] at hPlace
      rcases hPlace with ⟨i, _, hAt⟩
      exact ⟨List.mem_of_getElem? hAt, hId⟩
    · cases hFind
  · cases hFind

end CallGraph

end HeapShape
