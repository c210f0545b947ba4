import HeapShape.Proofs.CallGraph
import HeapShape.Proofs.CallGraph.Order

/-
  The call graph of a program.

  Where no two functions and no two call sites of a program have the same
  number, everything is found by its number, the edges are the matched
  calls, and the components are the classes of functions that call each
  other, callees first.

  Main declarations:
    * `Program.Calls`
    * `CallGraph.perm_flatten_components`
    * `CallGraph.mem_component_iff`
    * `CallGraph.exists_earlier_component`
-/

-- Numbers

namespace HeapShape

variable {α : Type}

/- Every entry is found where no key repeats. -/
theorem OrdMap.get?_ofList_eq_some_iff
    {entries : List (Nat × α)}
    (hKeys : (entries.map Prod.fst).Nodup)
    {key : Nat}
    {value : α} :
    (ofList entries).get? key = some value ↔ (key, value) ∈ entries := by
  unfold ofList
  induction entries using List.reverseRecOn with
  | nil =>
    constructor
    · intro hGet
      cases hGet
    · exact fun hMem => absurd hMem List.not_mem_nil
  | append_singleton rest entry ih =>
    rw [List.map_append, List.map_singleton, List.nodup_append] at hKeys
    rcases hKeys with ⟨hRest, _, hFresh⟩
    rw [List.foldl_append, List.foldl_cons, List.foldl_nil,
      get?_insert, List.mem_append, List.mem_singleton]
    split
    · next hEq =>
      subst hEq
      constructor
      · intro hValue
        cases hValue
        exact Or.inr rfl
      · rintro (hOld | hNew)
        · exact absurd rfl (hFresh _ (List.mem_map_of_mem hOld) _ (List.mem_singleton_self _))
        · exact congrArg (some ∘ Prod.snd) hNew.symm
    · next hNe =>
      rw [ih hRest]
      constructor
      · exact Or.inl
      · rintro (hOld | hNew)
        · exact hOld
        · exact absurd (congrArg Prod.fst hNew) hNe

namespace CallGraph

/- The place of a number that does not repeat. -/
theorem get?_placesOf_eq_some_iff
    {ids : List Nat}
    (hIds : ids.Nodup)
    {id i : Nat} :
    (placesOf ids).get? id = some i ↔ ids[i]? = some id := by
  unfold placesOf
  rw [OrdMap.get?_ofList_eq_some_iff (by rw [List.zipIdx_map_fst]; exact hIds)]
  exact List.mem_zipIdx_iff_getElem?

end CallGraph

/- What has a number of its own is found by it. -/
theorem find?_reverse_eq_some_iff
    {key : α → Nat}
    {items : List α}
    (hKeys : (items.map key).Nodup)
    {k : Nat}
    {a : α} :
    items.reverse.find? (fun b => key b == k) = some a ↔ a ∈ items ∧ key a = k := by
  constructor
  · intro hFind
    have hKey := List.find?_some hFind
    exact ⟨List.mem_reverse.mp (List.mem_of_find?_eq_some hFind), beq_iff_eq.mp hKey⟩
  · rintro ⟨hMem, rfl⟩
    cases hFind : items.reverse.find? (fun b => key b == key a) with
    | none =>
      exact absurd (beq_self_eq_true (key a)) (List.find?_eq_none.mp hFind a
          (List.mem_reverse.mpr hMem))
    | some b =>
      have hb : b ∈ items := List.mem_reverse.mp (List.mem_of_find?_eq_some hFind)
      have hKey := List.find?_some hFind
      exact congrArg some (List.inj_on_of_nodup_map hKeys hb hMem (beq_iff_eq.mp hKey))

/- No two functions and no two call sites share a number. -/
structure Program.Distinct
    (p : Program) : Prop where
  functions : (p.functions.map FunctionDef.id).Nodup
  callSites : (p.callSites.map CallSite.id).Nodup

theorem Program.Distinct.lastFunction?_eq_some_iff
    {p : Program}
    (hp : p.Distinct)
    {id : FunctionId}
    {f : FunctionDef} :
    p.lastFunction? id = some f ↔ f ∈ p.functions ∧ f.id = id :=
  find?_reverse_eq_some_iff hp.functions

-- Entering Calls

/- One function may call another. -/
def Program.Calls
    (p : Program)
    (e f : FunctionId) : Prop :=
  ∃ cs ∈ p.callSites, cs.caller = e ∧
    f ∈ CallGraph.matchingCallees p cs

/- One function may call another through others. -/
def Program.CallPath
    (p : Program) : FunctionId → FunctionId → Prop :=
  Relation.ReflTransGen p.Calls

namespace CallGraph

/- How a call site is resolved. -/
def resolutionOf
    (p : Program)
    (cs : CallSite) : CallResolution where
  callSite := cs.id
  caller := cs.caller
  callees := matchingCallees p cs
  fullyResolved := cs.isFullyResolved

/-
  The call graph of a program with some of its calls.
-/
structure Enters
    (p : Program)
    (sites : List CallSite)
    (c : CallGraph) : Prop where
  vertexOf : c.vertexOf =
    placesOf (p.functions.map FunctionDef.id)
  functionPlace : c.functionPlace =
    placesOf (p.functions.map FunctionDef.id)
  callSitePlace : c.callSitePlace =
    placesOf (p.callSites.map CallSite.id)
  size : c.digraph.size = p.functions.length
  edges : ∀ u v, (u, v) ∈ c.digraph.edges ↔
    ∃ cs ∈ sites, ∃ f ∈ matchingCallees p cs,
      c.vertexOf.get? cs.caller = some u ∧
        c.vertexOf.get? f = some v
  defs : ∀ e, c.defs e =
    (sites.filter (·.caller == e)).map CallSite.id
  resolution : ∀ id, c.resolution? id =
    (sites.reverse.find? (·.id == id)).map (resolutionOf p)

variable {p : Program} {c : CallGraph} {sites : List CallSite}
variable {cs : CallSite} {e f : FunctionId} {u v : Nat}

/- A call adds an edge for each callee with a vertex. -/
theorem mem_edges_foldl_addEdge
    (c : CallGraph)
    (caller : FunctionId)
    (callees : List FunctionId)
    (site : CallSiteId) :
    (u, v) ∈ (callees.foldl (fun c callee =>
        ({ c with
          usesOf := appendTo c.usesOf callee site }).addEdge caller callee) c).digraph.edges ↔
      (u, v) ∈ c.digraph.edges ∨ ∃ f ∈ callees,
        c.vertexOf.get? caller = some u ∧ c.vertexOf.get? f = some v := by
  induction callees generalizing c with
  | nil => simp
  | cons callee rest ih =>
    rw [List.foldl_cons, ih]
    unfold addEdge
    split
    · next u' v' hu hv =>
      dsimp only at hu hv
      simp only [hu, hv, List.mem_append, List.mem_singleton, List.exists_mem_cons_iff,
        Prod.mk.injEq, Option.some.injEq]
      rw [or_assoc, eq_comm (a := u), eq_comm (a := v)]
    · next hNone =>
      dsimp only
      rw [List.exists_mem_cons_iff]
      refine or_congr_right (or_iff_right ?_).symm
      rintro ⟨hu, hv⟩
      exact hNone u v hu hv

/- One more call. -/
theorem Enters.addCallSite
    (hc : Enters p sites c)
    (cs : CallSite) :
    Enters p (sites ++ [cs]) (CallGraph.addCallSite p c cs) := by
  have hSize := size_foldl_addEdge { c with defsOf := appendTo c.defsOf cs.caller cs.id }
    cs.caller (matchingCallees p cs) cs.id
  have hEdges : ∀ u v, _ ↔ _ := fun u v =>
    mem_edges_foldl_addEdge (u := u) (v := v) { c with defsOf := appendTo c.defsOf cs.caller cs.id }
      cs.caller (matchingCallees p cs) cs.id
  unfold CallGraph.addCallSite
  rcases foldl_addEdge_eq { c with defsOf := appendTo c.defsOf cs.caller cs.id }
      cs.caller (matchingCallees p cs) cs.id with
    ⟨d, hFold⟩
  rw [hFold] at hSize hEdges
  dsimp only at hSize hEdges ⊢
  rw [hFold]
  refine ⟨hc.vertexOf, hc.functionPlace, hc.callSitePlace, hSize.trans hc.size, ?_, ?_, ?_⟩
  · intro u v
    dsimp only
    rw [hEdges u v, hc.edges u v]
    simp only [List.mem_append, List.mem_singleton, or_and_right, exists_or, exists_eq_left]
  · intro e
    change ((appendTo c.defsOf cs.caller cs.id).get? e).getD [] = _
    have hOld := hc.defs e
    unfold CallGraph.defs at hOld
    unfold appendTo
    rw [OrdMap.get?_insert, List.filter_append, List.map_append, ← hOld, List.filter_singleton]
    split
    · next hEq =>
      subst hEq
      rw [beq_self_eq_true]
      rfl
    · next hNe =>
      rw [beq_eq_false_iff_ne.mpr (Ne.symm hNe)]
      exact (List.append_nil _).symm
  · intro id
    change (c.resolutions.insert cs.id _).get? id = _
    rw [OrdMap.get?_insert, List.reverse_append, List.reverse_singleton, List.singleton_append,
      List.find?_cons]
    split
    · next hEq =>
      rw [beq_iff_eq.mpr hEq.symm]
      rfl
    · next hNe =>
      rw [beq_eq_false_iff_ne.mpr (Ne.symm hNe)]
      exact hc.resolution id

/- More calls, one after the other. -/
theorem Enters.foldl_addCallSite
    (hc : Enters p sites c)
    (more : List CallSite) :
    Enters p (sites ++ more) (more.foldl (CallGraph.addCallSite p) c) := by
  induction more generalizing c sites with
  | nil =>
    rw [List.append_nil]
    exact hc
  | cons cs rest ih =>
    rw [List.foldl_cons, List.append_cons]
    exact ih (hc.addCallSite cs)

/- The call graph of a program has all its calls. -/
theorem enters_ofProgram
    (p : Program) :
    Enters p p.sortedCallSites (ofProgram p) := by
  have hStart : Enters p [] {
      digraph := { size := (p.functions.map FunctionDef.id).length }
      vertexOf := placesOf (p.functions.map FunctionDef.id)
      functionPlace := placesOf (p.functions.map FunctionDef.id)
      callSitePlace := placesOf (p.callSites.map CallSite.id) } :=
    { vertexOf := rfl
      functionPlace := rfl
      callSitePlace := rfl
      size := List.length_map FunctionDef.id
      edges := fun _ _ => ⟨fun hMem => absurd hMem
        List.not_mem_nil, fun ⟨_, hMem, _⟩ => absurd hMem List.not_mem_nil⟩
      defs := fun _ => rfl
      resolution := fun _ => rfl }
  have hAll := hStart.foldl_addCallSite p.sortedCallSites
  rw [List.nil_append] at hAll
  exact ⟨hAll.vertexOf, hAll.functionPlace, hAll.callSitePlace, hAll.size, hAll.edges, hAll.defs,
    hAll.resolution⟩

-- Questions

variable {id : Nat}

theorem perm_sortedCallSites
    (p : Program) :
    p.sortedCallSites.Perm p.callSites := by
  unfold Program.sortedCallSites
  refine ((List.mergeSort_perm _ _).map Prod.snd).trans (.of_eq ?_)
  rw [List.map_map]
  exact List.map_id _

/- Every function is found. -/
theorem function?_ofProgram_eq_some_iff
    (hp : p.Distinct)
    {f : FunctionDef} :
    (ofProgram p).function? p id = some f ↔ f ∈ p.functions ∧ f.id = id := by
  refine ⟨function?_eq_some, ?_⟩
  rintro ⟨hMem, rfl⟩
  rcases List.mem_iff_getElem?.mp hMem with ⟨i, hi⟩
  have hPlace : (placesOf (p.functions.map FunctionDef.id)).get? f.id = some i := by
    rw [get?_placesOf_eq_some_iff hp.functions, List.getElem?_map, hi]
    rfl
  unfold function?
  rw [(enters_ofProgram p).functionPlace, hPlace, Option.bind_some, hi]
  exact if_pos rfl

/- So is every call site. -/
theorem callSite?_ofProgram_eq_some_iff
    (hp : p.Distinct) :
    (ofProgram p).callSite? p id = some cs ↔ cs ∈ p.callSites ∧ cs.id = id := by
  refine ⟨callSite?_eq_some, ?_⟩
  rintro ⟨hMem, rfl⟩
  rcases List.mem_iff_getElem?.mp hMem with ⟨i, hi⟩
  have hPlace : (placesOf (p.callSites.map CallSite.id)).get? cs.id = some i := by
    rw [get?_placesOf_eq_some_iff hp.callSites, List.getElem?_map, hi]
    rfl
  unfold callSite?
  rw [(enters_ofProgram p).callSitePlace, hPlace, Option.bind_some, hi]
  exact if_pos rfl

theorem function?_ofProgram_eq
    (hp : p.Distinct)
    (id : FunctionId) :
    (ofProgram p).function? p id = p.lastFunction? id := by
  refine Option.ext ?_
  intro f
  exact (function?_ofProgram_eq_some_iff hp).trans hp.lastFunction?_eq_some_iff.symm

theorem resolution?_ofProgram
    (hp : p.Distinct)
    (hMem : cs ∈ p.callSites) :
    (ofProgram p).resolution? cs.id = some (resolutionOf p cs) := by
  have hPerm := perm_sortedCallSites p
  have hKeys : (p.sortedCallSites.map CallSite.id).Nodup :=
    (hPerm.map CallSite.id).nodup_iff.mpr hp.callSites
  rw [(enters_ofProgram p).resolution, (find?_reverse_eq_some_iff hKeys).mpr
      ⟨hPerm.mem_iff.mpr hMem, rfl⟩]
  rfl

/- The calls inside a function, found by their numbers. -/
theorem filterMap_defs_ofProgram
    (hp : p.Distinct)
    (e : FunctionId) :
    ((ofProgram p).defs e).filterMap ((ofProgram p).callSite? p) =
      p.sortedCallSites.filter (·.caller == e) := by
  rw [(enters_ofProgram p).defs, List.filterMap_map]
  have hFound : ∀ cs ∈ p.sortedCallSites.filter (·.caller == e),
      ((ofProgram p).callSite? p ∘ CallSite.id) cs = some cs := by
    intro cs hMem
    exact (callSite?_ofProgram_eq_some_iff hp).mpr
      ⟨mem_sortedCallSites_iff.mp (List.mem_of_mem_filter hMem), rfl⟩
  rw [List.filterMap_congr hFound, List.filterMap_some]

-- Components Of Functions

variable {fs : List FunctionId}

/- The function of a vertex. -/
def atVertex?
    (p : Program)
    (v : Nat) : Option FunctionId :=
  (p.functions.map FunctionDef.id)[v]?

theorem components_ofProgram
    (p : Program) :
    (ofProgram p).components = (ofProgram p).digraph.components.map fun vs =>
        sortMembers p (vs.filterMap (atVertex? p)) :=
  rfl

theorem mem_sortMembers_iff
    {vs : List Nat} :
    e ∈ sortMembers p (vs.filterMap (atVertex? p)) ↔
      ∃ v ∈ vs, atVertex? p v = some e := by
  unfold sortMembers
  rw [List.mem_mergeSort, List.mem_filterMap]

theorem exists_vertex_iff :
    (∃ v, atVertex? p v = some e) ↔ e ∈ p.functions.map FunctionDef.id :=
  List.mem_iff_getElem?.symm

theorem lt_size_of_atVertex?
    (hv : atVertex? p v = some e) :
    v < (ofProgram p).digraph.size := by
  rw [(enters_ofProgram p).size, ← List.length_map FunctionDef.id]
  exact (List.getElem?_eq_some_iff.mp hv).1

theorem filterMap_getElem?_range
    (ids : List Nat) :
    (List.range ids.length).filterMap (ids[·]?) = ids := by
  induction ids with
  | nil => rfl
  | cons id rest ih =>
    rw [List.length_cons, List.range_succ_eq_map, List.filterMap_cons, List.filterMap_map]
    exact congrArg (id :: ·) ih

/- A function has one vertex. -/
theorem vertex_unique
    (hp : p.Distinct)
    (hu : atVertex? p u = some e)
    (hv : atVertex? p v = some e) :
    u = v := by
  have hu' := (get?_placesOf_eq_some_iff hp.functions).mpr hu
  have hv' := (get?_placesOf_eq_some_iff hp.functions).mpr hv
  exact Option.some.inj (hu'.symm.trans hv')

/- The edges are the calls. -/
theorem mem_successors_iff
    (hp : p.Distinct)
    (hu : atVertex? p u = some e) :
    v ∈ (ofProgram p).digraph.successors u ↔
      ∃ f, atVertex? p v = some f ∧ p.Calls e f := by
  rw [Digraph.mem_successors_iff, (enters_ofProgram p).edges, (enters_ofProgram p).vertexOf]
  simp only [get?_placesOf_eq_some_iff hp.functions]
  constructor
  · rintro ⟨cs, hcs, f, hf, hCaller, hCallee⟩
    have hEq : cs.caller = e := Option.some.inj (hCaller.symm.trans hu)
    exact ⟨f, hCallee, cs, mem_sortedCallSites_iff.mp hcs, hEq, hf⟩
  · rintro ⟨f, hCallee, cs, hcs, rfl, hf⟩
    exact ⟨cs, mem_sortedCallSites_iff.mpr hcs, f, hf, hu, hCallee⟩

theorem inRange_ofProgram
    (hp : p.Distinct) :
    (ofProgram p).digraph.InRange := by
  rintro ⟨u, v⟩ hEdge
  rw [(enters_ofProgram p).edges, (enters_ofProgram p).vertexOf] at hEdge
  rcases hEdge with ⟨_, _, f, _, _, hCallee⟩
  exact lt_size_of_atVertex? ((get?_placesOf_eq_some_iff hp.functions).mp hCallee)

/- A matched callee is a function of the program. -/
theorem mem_functions_of_calls
    (hp : p.Distinct)
    (hCalls : p.Calls e f) :
    f ∈ p.functions.map FunctionDef.id := by
  rcases hCalls with ⟨cs, _, _, hf⟩
  have hFits := (List.mem_filter.mp hf).2
  split at hFits
  · next d hFind =>
    rcases hp.lastFunction?_eq_some_iff.mp hFind with ⟨hd, rfl⟩
    exact List.mem_map_of_mem hd
  · cases hFits

/- A path leads from function to function. -/
theorem exists_callPath
    (hp : p.Distinct)
    (hu : atVertex? p u = some e)
    (hPath : (ofProgram p).digraph.Path u v) :
    ∃ f, atVertex? p v = some f ∧ p.CallPath e f := by
  unfold Digraph.Path at hPath
  induction hPath with
  | refl => exact ⟨e, hu, .refl⟩
  | tail _ hEdge ih =>
    rcases ih with ⟨x, hx, hBefore⟩
    rcases (mem_successors_iff hp hx).mp hEdge with ⟨y, hy, hCalls⟩
    exact ⟨y, hy, hBefore.tail hCalls⟩

/- Every chain of calls is a path. -/
theorem exists_path
    (hp : p.Distinct)
    (hu : atVertex? p u = some e)
    (hPath : p.CallPath e f) :
    ∃ v, atVertex? p v = some f ∧ (ofProgram p).digraph.Path u v := by
  unfold Program.CallPath at hPath
  induction hPath with
  | refl => exact ⟨u, hu, .refl⟩
  | tail _ hCalls ih =>
    rcases ih with ⟨x, hx, hBefore⟩
    rcases exists_vertex_iff.mpr (mem_functions_of_calls hp hCalls) with ⟨y, hy⟩
    exact ⟨y, hy, hBefore.tail ((mem_successors_iff hp hx).mpr ⟨_, hy, hCalls⟩)⟩

theorem path_iff
    (hp : p.Distinct)
    (hu : atVertex? p u = some e)
    (hv : atVertex? p v = some f) :
    (ofProgram p).digraph.Path u v ↔ p.CallPath e f := by
  constructor
  · intro hPath
    rcases exists_callPath hp hu hPath with ⟨f', hv', hPath'⟩
    cases hv.symm.trans hv'
    exact hPath'
  · intro hPath
    rcases exists_path hp hu hPath with ⟨v', hv', hPath'⟩
    cases vertex_unique hp hv hv'
    exact hPath'

/- The components list every function once. -/
theorem perm_flatten_components
    (hp : p.Distinct) :
    (ofProgram p).components.flatten.Perm (p.functions.map FunctionDef.id) := by
  have hAll : (List.range p.functions.length).filterMap
      (atVertex? p) = p.functions.map FunctionDef.id := by
    rw [← List.length_map FunctionDef.id]
    exact filterMap_getElem?_range _
  rw [components_ofProgram]
  have hSorted : ∀ cs : List (List Nat), (cs.map fun vs => sortMembers p
        (vs.filterMap (atVertex? p))).flatten.Perm
      (cs.flatten.filterMap (atVertex? p)) := by
    intro cs
    induction cs with
    | nil => exact .refl []
    | cons vs rest ih =>
      rw [List.map_cons, List.flatten_cons, List.flatten_cons, List.filterMap_append]
      exact (List.mergeSort_perm _ _).append ih
  refine (hSorted _).trans ?_
  rw [← hAll, ← (enters_ofProgram p).size]
  exact (Digraph.perm_flatten_components (inRange_ofProgram hp)).filterMap _

/- A component is a class of functions that call each other. -/
theorem mem_component_iff
    (hp : p.Distinct)
    (hfs : fs ∈ (ofProgram p).components)
    (he : e ∈ fs) :
    f ∈ fs ↔ p.CallPath e f ∧ p.CallPath f e := by
  rw [components_ofProgram] at hfs
  rcases List.mem_map.mp hfs with ⟨vs, hvs, rfl⟩
  rcases mem_sortMembers_iff.mp he with ⟨u, hu, hue⟩
  have hClass := fun v => Digraph.mem_component_iff (v := v) (inRange_ofProgram hp) hvs hu
  rw [mem_sortMembers_iff]
  constructor
  · rintro ⟨v, hv, hvf⟩
    rcases (hClass v).mp hv with ⟨_, huv, hvu⟩
    exact ⟨(path_iff hp hue hvf).mp huv, (path_iff hp hvf hue).mp hvu⟩
  · rintro ⟨hef, hfe⟩
    rcases exists_path hp hue hef with ⟨v, hvf, huv⟩
    exact ⟨v, (hClass v).mpr ⟨lt_size_of_atVertex? hvf, huv, (path_iff hp hvf hue).mpr hfe⟩, hvf⟩

/- What a component calls is not listed after it. -/
theorem exists_earlier_component
    (hp : p.Distinct)
    {done rest : List (List FunctionId)}
    (hEq : (ofProgram p).components = done ++ fs :: rest)
    (he : e ∈ fs)
    (hPath : p.CallPath e f) :
    ∃ fs' ∈ done ++ [fs], f ∈ fs' := by
  rw [components_ofProgram, List.map_eq_append_iff] at hEq
  rcases hEq with ⟨vdone, vrest, hSplit, rfl, hEq⟩
  rcases List.map_eq_cons_iff.mp hEq with ⟨vs, vrest', rfl, rfl, rfl⟩
  rcases mem_sortMembers_iff.mp he with ⟨u, hu, hue⟩
  rcases exists_path hp hue hPath with ⟨v, hvf, huv⟩
  rcases Digraph.exists_earlier_component (inRange_ofProgram hp) hSplit hu huv with ⟨vs', hvs', hv⟩
  refine ⟨sortMembers p (vs'.filterMap (atVertex? p)), ?_, mem_sortMembers_iff.mpr ⟨v, hv, hvf⟩⟩
  have hMap := List.mem_map_of_mem (f := fun vs =>
    sortMembers p (vs.filterMap (atVertex? p))) hvs'
  rw [List.map_append] at hMap
  exact hMap

end CallGraph

end HeapShape
