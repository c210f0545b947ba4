import HeapShape.Proofs.Graph.Compressed
import HeapShape.Proofs.Graph.Reachable
import HeapShape.Proofs.Propagation.Joined
import HeapShape.Proofs.Store

/-
  A step up brings the effects of a callee into its caller.

  The step copies what the globals, the result and the formals of the callee
  reach, and merges the copies with what the caller has there. Copies are
  merged with each other on the way, so a callee node is found in the caller
  at the end of the chain of its copy.

  Main declarations:
    * `Copier.JoinedUp`
    * `Exposed`
    * `Brings`
    * `bottomUpStep_brings_effects`
-/

-- What A Step Up Joins

namespace HeapShape

open Checked

/-
  The globals of a callee meet those of its caller, and its result and
  formals meet the cells of the call.
-/
structure Copier.MeetsUp
    (E : Prop)
    (k : Copier)
    (last : Graph)
    (callee : FunctionDef)
    (cells : CallSiteCells) : Prop where
  globals : ∀ v c,
    k.source.rootCell? (.global v) = .ok (some c) →
    k.Meets E last true c fun place last =>
      last.RootAt (.global v) place
  result : ∀ c,
    k.source.rootCell? (.result callee.id) = .ok (some c) →
    cells.result?.isSome = true →
    k.Meets E last false c fun place _ =>
      cells.result? = some place
  actuals : ∀ pair ∈ callee.pointerPairs cells.actuals, ∀ c,
    k.source.rootCell? (.formal pair.1) = .ok (some c) →
    k.Meets E last false c fun place _ => place = pair.2

/-
  The copy of a callee in its caller. The call is recorded, and every copied
  node has its links.
-/
structure Copier.JoinedUp
    (E : Prop)
    (k : Copier)
    (cs : CallSite)
    (callee : FunctionDef)
    (cells : CallSiteCells) : Prop
    extends k.MeetsUp E k.dest callee cells where
  pictured : k.Pictured
  linked : ∀ x c, k.copies.get? x = some c →
    k.LinksCopied E k.dest x
  recorded : k.dest.callSites.get? cs.id = some cells
  call : k.dest.CallAt cs cells

open Graph Copier

variable {E : Prop} {config : Config} {cs : CallSite} {callee : FunctionDef}
variable {calleeGraph callerGraph : Graph} {k k' : Copier} {cells : CallSiteCells}

/- Globals, then the result, then the actuals are joined. -/
theorem Copier.Grows.joinUp
    (hk : k.Pictured)
    (hForced : k.ForcedCopied)
    (hRun : (bottomUpJunctions callee k.source cells).foldlM Copier.join k = .ok k') :
    Grows E (fun r => ∃ v, r = .global v) k k' fun last =>
      NewLinked E k k' last ∧ k'.MeetsUp E last callee cells := by
  unfold bottomUpJunctions at hRun
  rw [List.foldlM_append] at hRun
  rcases of_bind hRun with ⟨k₂, hRun, hActuals⟩
  rw [List.foldlM_append] at hRun
  rcases of_bind hRun with ⟨k₁, hGlobals, hResult⟩
  rw [List.foldlM_cons] at hResult
  rcases of_bind hResult with ⟨k₂', hResult, hLast⟩
  cases hLast
  have hFirst := Grows.joinAll (E := E) (R := fun r => ∃ v, r = Root.global v)
    (P := fun v place last => last.RootAt (.global v) place)
    hk hForced
    (fun v _ own hOwn => by
      cases hOwn
      exact finds_root ⟨v, rfl⟩) hGlobals
  have hSecond := Grows.join (E := E) (R := fun r => ∃ v, r = Root.global v)
    (P := fun place _ => cells.result? = some place)
    hFirst.pictured (hFirst.forced hForced)
    (fun own hOwn => by
      rcases Option.map_eq_some_iff.mp hOwn with ⟨place, hPlace, rfl⟩
      exact finds_given fun _ => hPlace) hResult
  have hThird := Grows.joinAll (E := E) (R := fun r => ∃ v, r = Root.global v)
    (P := fun pair place _ => place = pair.2)
    hSecond.pictured (hSecond.forced (hFirst.forced hForced))
    (fun pair _ own hOwn => by
      cases hOwn
      exact finds_given fun _ => rfl) hActuals
  apply ((hFirst.trans hSecond).trans hThird).imp
  have hRest := hSecond.extension.trans hThird.extension
  have hSource := (hFirst.extension.trans hRest).source
  rintro last _ ⟨⟨⟨hNew, hMeets⟩, hNew', hMeets'⟩, hNew'', hMeets''⟩
  refine ⟨(hNew.trans hNew' hSecond.extension).trans hNew'' hThird.extension, ?_, ?_, ?_⟩
  · intro v c hCell
    rw [hSource] at hCell
    rcases root_of_rootCell? hCell with ⟨d, hRoot, _⟩
    exact (hMeets v (mem_globalNames.mpr ⟨d, hRoot⟩) c hCell
      rfl).extended hRest
  · intro c hCell hSome
    rw [hSource] at hCell
    refine (hMeets' c hCell ?_).extended hThird.extension
    rw [Option.isSome_map]
    exact hSome
  · intro pair hPair c hCell
    rw [hSource] at hCell
    exact hMeets'' pair hPair c hCell rfl

/-
  What copying a callee into its caller achieves. Where addresses matter,
  the strides of the caller and those of the copied arrays must be kept.
-/
theorem bottomUpCopy_eq_ok
    (hCallee : calleeGraph.WellFormed)
    (hCaller : callerGraph.WellFormed)
    (hRun : bottomUpCopy config cs callee calleeGraph callerGraph = .ok k)
    (hStrides : E → SameStrides callerGraph k.dest ∧ k.Strides k.dest) :
    k.source = calleeGraph ∧ k.options.stripAllocas = config.cloning.stripAllocas ∧
      (∃ cells, k.JoinedUp E cs callee cells) ∧
      (callerGraph.Apart → k.dest.Apart) := by
  unfold bottomUpCopy at hRun
  rcases of_bind hRun with ⟨⟨cells, g₁⟩, hCells, hRun⟩
  rcases callSiteCells_eq_ok (E := True) hCaller hCells with ⟨hSound, hLater, hCall, hApart⟩
  have hg₁ := hLater.wellFormed
  have hg₂ : (g₁.recordCallSite cs.id cells).WellFormed := hg₁.congr rfl rfl rfl rfl
  have hNoted : Sound True g₁ (g₁.recordCallSite cs.id cells)
      (fun last => LinksHold True g₁ last) :=
    .of_same_slots hg₁ hg₂ rfl rfl
  have hBefore := hSound.before hNoted
  rcases pictured_start hCallee hg₂ (CopyOptions.bottomUp config.cloning callee.id) with
    ⟨hStart, hNone⟩
  have hGrows := Grows.joinUp (E := E) hStart hNone hRun
  have hAfter := hGrows.carries.later
  have hHere := hGrows.carries.here fun hEx => by
    refine ⟨?_, (hStrides hEx).2⟩
    exact (hStrides hEx).1.of_merged (hBefore.arrays trivial) hBefore.merged hAfter.merged
  rcases hHere with ⟨_, hNew, hMeets⟩
  refine ⟨hGrows.extension.source, ?_, ⟨cells, hMeets, hGrows.pictured, ?_, ?_, ?_⟩, ?_⟩
  · rw [hGrows.extension.options]
    rfl
  · exact fun x c hCopy => hNew x c hCopy rfl
  · rw [hAfter.callSites]
    exact (OrdMap.get?_insert _ _ _ _).trans (if_pos rfl)
  · apply hCall.imp
    rintro v c ⟨r, hr, d, hRoot, hPlace⟩
    have hAt : (g₁.recordCallSite cs.id cells).ValueAt v c :=
      ⟨r, hr, d, hRoot, hPlace.merged hNoted.merged⟩
    exact hAt.later hAfter
  · intro hOld v c hFormal
    have hKept : ∀ r, (∀ w, r ≠ .global w) → k.dest.roots.get? r = g₁.roots.get? r := by
      intro r hr
      exact hGrows.roots r fun hGlobal => by
        rcases hGlobal with ⟨w, rfl⟩
        exact hr w rfl
    rw [hKept _ fun _ => Root.noConfusion] at hFormal
    rw [hKept _ fun _ => Root.noConfusion]
    exact hApart hOld v c hFormal

-- Effects Of A Callee

open Graph Copier

/-
  The callee nodes that a call exposes: what the globals of the callee
  reach, its result if the call has one, and the pointer formals that get a
  pointer.
-/
inductive Exposed
    (cs : CallSite)
    (callee : FunctionDef)
    (g : Graph) :
    NodeId → Prop
  | global {v : GlobalId} {c : Cell}
      (hCell : g.rootCell? (.global v) = .ok (some c)) :
      Exposed cs callee g c.node
  | result {v : ValueId} {c : Cell}
      (hResult : cs.result? = some v)
      (hCell :
        g.rootCell? (.result callee.id) = .ok (some c)) :
      Exposed cs callee g c.node
  | formal {formal : Formal} {v : ValueId} {c : Cell}
      (hActual :
        (formal, some v) ∈ callee.formals.zip cs.actuals)
      (hPointer : formal.isPointer = true)
      (hCell :
        g.rootCell? (.formal formal.value) = .ok (some c)) :
      Exposed cs callee g c.node
  | link {id m : NodeId} {t : Cell}
      (hExposed : Exposed cs callee g id)
      (hLink : g.LinkTo id t m) :
      Exposed cs callee g m

/- What is known of a node is known of another. -/
structure Node.ShownIn
    (n m : Node)
    (left : AllocSite → Prop) : Prop where
  flags : ∀ f, f ≠ .foreign → f ≠ .array →
    n.flags.has f = true → m.flags.has f = true
  collapsed : n.isCollapsed = true → m.isCollapsed = true
  array : n.isArray = true →
    m.isArray = true ∨ m.isCollapsed = true
  sites : ∀ s, s ∈ n.allocSites → left s ∨ s ∈ m.allocSites

/-
  The effects of a callee are in its caller. Every exposed node has an image
  there, at the global of the same name and at the recorded cells of the
  call, with what is known of the node and with links to the images of its
  targets. Stack sites may be left behind, except those of globals.
-/
structure Brings
    (strip : Bool)
    (cs : CallSite)
    (f : FunctionDef)
    (callee caller : Graph)
    (cells : CallSiteCells)
    (i : NodeId → NodeId) : Prop where
  globals : ∀ v c,
    callee.rootCell? (.global v) = .ok (some c) →
    ∃ d, caller.rootCell? (.global v) = .ok (some d) ∧
      i c.node = d.node
  result : ∀ c d,
    callee.rootCell? (.result f.id) = .ok (some c) →
    cells.result? = some d → i c.node = d.node
  actuals : ∀ pair ∈ f.pointerPairs cells.actuals, ∀ c,
    callee.rootCell? (.formal pair.1) = .ok (some c) →
    i c.node = pair.2.node
  nodes : ∀ id, Exposed cs f callee id →
    ∃ n n', callee.slot id = .live n ∧
      caller.slot (i id) = .live n' ∧
      n.ShownIn n' fun s => strip = true ∧
        s.isStack = true ∧ ∀ v c,
          callee.rootCell? (.global v) = .ok (some c) →
          c.node ≠ id
  links : ∀ id t m, Exposed cs f callee id →
    callee.LinkTo id t m → ∃ u, caller.LinkTo (i id) u (i m)

variable {cells' : CallSiteCells} {h : Graph} {i : NodeId → NodeId}

/- A map that sends a source node to the node of its copy. -/
def Copier.Images
    (k : Copier)
    (i : NodeId → NodeId) : Prop :=
  ∀ src c m j, k.copies.get? src = some c →
    k.dest.Leads c m j → i src = m

/- Chains have one end, so there is such a map. -/
theorem Copier.exists_images
    (k : Copier) :
    ∃ i, k.Images i := by
  classical
  refine ⟨fun src =>
    if hEnd : ∃ m, ∃ c j, k.copies.get? src = some c ∧
      k.dest.Leads c m j then hEnd.choose else 0, ?_⟩
  intro src c m j hCopy hLeads
  have hEnd : ∃ m, ∃ c j, k.copies.get? src = some c ∧
      k.dest.Leads c m j := ⟨m, c, j, hCopy, hLeads⟩
  dsimp only
  rw [dif_pos hEnd]
  rcases hEnd.choose_spec with ⟨c', j', hCopy', hLeads'⟩
  rw [hCopy] at hCopy'
  cases hCopy'
  exact (hLeads'.unique hLeads).1

/- The node of a cell that meets a place was copied. -/
theorem Copier.Meets.copied
    {last : Graph}
    {force : Bool}
    {c : Cell}
    {P : Cell → Graph → Prop}
    (hMeets : k.Meets E last force c P)
    {n : Node}
    (hLive : k.source.slot c.node = .live n) :
    ∃ copy place o, k.copies.get? c.node = some copy ∧
      (force = true → k.options.stripAllocas = true → c.node ∈ k.forced) ∧
      P place last ∧
      last.SameNode place { node := copy, offset := o } := by
  rcases hMeets with ⟨d, copy, place, hResolve, hCopy, hIn, hP, hNode, _⟩
  rcases leads_of_resolve hResolve with ⟨_, hLeads, _⟩
  rcases hLeads.eq_of_live hLive with ⟨hSame, _⟩
  rw [hSame] at hCopy hIn
  exact ⟨copy, place, d.offset, hCopy, hIn, hP, hNode⟩

variable {id : NodeId}

/- Every exposed node was copied. -/
theorem Copier.JoinedUp.copied
    (hk : k.JoinedUp E cs callee cells)
    (hExposed : Exposed cs callee k.source id) :
    ∃ c, k.copies.get? id = some c := by
  induction hExposed with
  | global hCell =>
    rcases live_of_rootCell? hCell with ⟨n, hLive⟩
    rcases (hk.globals _ _ hCell).copied hLive with ⟨copy, _, _, hCopy, _⟩
    exact ⟨copy, hCopy⟩
  | result hResult hCell =>
    rcases live_of_rootCell? hCell with ⟨n, hLive⟩
    rcases hk.call.exists_result hResult with ⟨c, hc, _⟩
    have hSome : cells.result?.isSome = true := by
      rw [hc]
      rfl
    rcases (hk.result _ hCell hSome).copied hLive with ⟨copy, _, _, hCopy, _⟩
    exact ⟨copy, hCopy⟩
  | formal hActual hPointer hCell =>
    rcases live_of_rootCell? hCell with ⟨n, hLive⟩
    rcases hk.call.exists_pair hActual hPointer with ⟨c, hPair, _⟩
    rcases (hk.actuals _ hPair _ hCell).copied hLive with ⟨copy, _, _, hCopy, _⟩
    exact ⟨copy, hCopy⟩
  | link _ hLink ih =>
    rcases ih with ⟨c, hCopy⟩
    rcases hLink with ⟨n, f, j, hLive, hGet, hLeads⟩
    rcases hk.linked _ c hCopy with ⟨n', c', hLive', _, hAll⟩
    rw [hLive] at hLive'
    cases hLive'
    rcases hAll (f, _) ((OrdMap.get?_eq_some_iff _ _ _).mp hGet) with
      ⟨u, target, hResolve, hTarget, _⟩
    rcases leads_of_resolve hResolve with ⟨_, hEnd, _⟩
    rcases hEnd.unique hLeads with ⟨hSame, _⟩
    rw [hSame] at hTarget
    exact ⟨target, hTarget⟩

/- The place that a cell meets is in the image of its node. -/
theorem Copier.Images.eq_of_sameNode
    (hi : k.Images i)
    {copy m : NodeId}
    {place : Cell}
    {j o : Nat}
    (hCopy : k.copies.get? id = some copy)
    (hNode : k.dest.SameNode place
      { node := copy, offset := o })
    (hLeads : k.dest.Leads place.node m j) :
    i id = m := by
  rcases hNode with ⟨m', _, k', hPlace, hEnd⟩
  rcases hPlace.unique hLeads with ⟨rfl, _⟩
  exact hi id copy m' k' hCopy hEnd

/- The effects are in the caller once it is compressed. -/
theorem Copier.JoinedUp.brings
    (hk : k.JoinedUp E cs callee cells)
    (hh : Compressed k.dest h)
    (hCells : k.dest.resolveCallSite cells = .ok cells')
    (hi : k.Images i) :
    Brings k.options.stripAllocas cs callee k.source h cells' i := by
  rcases resolveCallSite_eq_ok hCells with ⟨hActuals, hResult⟩
  refine ⟨?_, ?_, ?_, ?_, ?_⟩
  · intro v c hCell
    rcases live_of_rootCell? hCell with ⟨n, hLive⟩
    rcases (hk.globals v c hCell).copied hLive with ⟨copy, place, o, hCopy, _, hAt, hNode⟩
    rcases hAt with ⟨e, hRoot, hPlace⟩
    rcases hh.exists_root hRoot with ⟨d, hResolve, _, hNew⟩
    rcases leads_of_resolve hResolve with ⟨j, hLeads, _⟩
    exact ⟨d, hNew, hi.eq_of_sameNode hCopy (hPlace.sameNode.trans hNode) hLeads⟩
  · intro c d hCell hd
    rcases live_of_rootCell? hCell with ⟨n, hLive⟩
    rw [hd, option_mapM_eq_some_iff] at hResult
    rcases hResult with ⟨e, he, hResolve⟩
    rcases (hk.result c hCell (by rw [he]; rfl)).copied hLive with
      ⟨copy, place, o, hCopy, _, hPlace, hNode⟩
    rw [he] at hPlace
    cases hPlace
    rcases leads_of_resolve hResolve with ⟨j, hLeads, _⟩
    exact hi.eq_of_sameNode hCopy hNode hLeads
  · intro pair hPair c hCell
    rcases live_of_rootCell? hCell with ⟨n, hLive⟩
    rcases FunctionDef.mem_pointerPairs.mp hPair with ⟨formal, hMem, hPointer, hValue⟩
    rcases mem_zip_of_forall₂ hActuals.flip hMem with ⟨e?, hMem', hResolve⟩
    rcases option_mapM_eq_some_iff.mp hResolve with ⟨e, rfl, hResolve'⟩
    have hOld : (pair.1, e) ∈ callee.pointerPairs
        cells.actuals :=
      FunctionDef.mem_pointerPairs.mpr ⟨formal, hMem', hPointer, hValue⟩
    rcases (hk.actuals _ hOld c hCell).copied hLive with ⟨copy, place, o, hCopy, _, rfl, hNode⟩
    rcases leads_of_resolve hResolve' with ⟨j, hLeads, _⟩
    exact hi.eq_of_sameNode hCopy hNode hLeads
  · intro id hExposed
    rcases hk.copied hExposed with ⟨c, hCopy⟩
    rcases hk.pictured.copies id c hCopy with ⟨n, hLive, m, j, n', hLeads, hLive', hIn⟩
    rcases hh.live m n' hLive' with ⟨links, hSlot, _⟩
    refine ⟨n, { n' with links := links }, hLive, ?_, hIn.flags, hIn.collapsed, hIn.array, ?_⟩
    · rw [hi id c m j hCopy hLeads]
      exact hSlot
    · intro s hs
      rcases hIn.sites s hs with ⟨hStrip, hStack, hNot⟩ | hSite
      · refine Or.inl ⟨hStrip, hStack, ?_⟩
        rintro v d hCell rfl
        rcases (hk.globals v d hCell).copied hLive with ⟨_, _, _, _, hIs, _⟩
        exact hNot (hIs rfl hStrip)
      · exact Or.inr hSite
  · rintro id t m hExposed ⟨n, f, j, hLive, hGet, hEnd⟩
    rcases hk.copied hExposed with ⟨c, hCopy⟩
    rcases hk.linked id c hCopy with ⟨n₁, c₁, hLive₁, hCopy₁, hAll⟩
    rw [hLive] at hLive₁
    cases hLive₁
    rw [hCopy] at hCopy₁
    cases hCopy₁
    rcases hAll (f, t) ((OrdMap.get?_eq_some_iff _ _ _).mp hGet) with
      ⟨u, target, hResolve, hTarget, hLinked⟩
    rcases hLinked with ⟨x, n', j', f', u', hLeads, hLive', _, hGet', hNode, _⟩
    rcases leads_of_resolve hResolve with ⟨_, hEnd', _⟩
    rcases hEnd.unique hEnd' with ⟨rfl, _⟩
    rcases hh.exists_link hLive' hGet' with ⟨n'', w, hSlot, _, hFound, hTo⟩
    rcases leads_of_resolve hTo with ⟨_, hw, _⟩
    rcases hw.live_end with ⟨l, hl⟩
    rcases hh.live _ l hl with ⟨links, hNew, _⟩
    rw [hi id c x j' hCopy hLeads, hi.eq_of_sameNode hTarget hNode hw]
    exact ⟨w, n'', f', 0, hSlot, hFound, .live hNew⟩

-- Steps Up

open Graph Copier

variable {s t : Store}

/- A step up copies, compresses and replaces the caller. -/
theorem bottomUpStep_eq_some
    (hRun : bottomUpStep config s cs callee = .ok (some t)) :
    ∃ calleeGraph callerGraph k h, s.pair? callee.id cs.caller =
      some (calleeGraph, callerGraph) ∧
      bottomUpCopy config cs callee calleeGraph callerGraph = .ok k ∧
      k.dest.compress = .ok h ∧
      t = s.setGraph cs.caller h := by
  unfold bottomUpStep at hRun
  cases hPair : s.pair? callee.id cs.caller with
  | none =>
    rw [hPair] at hRun
    cases hRun
  | some pair =>
    rcases pair with ⟨calleeGraph, callerGraph⟩
    rw [hPair] at hRun
    dsimp only at hRun
    rcases of_bind hRun with ⟨k, hCopy, hRun⟩
    rcases of_bind hRun with ⟨h, hCompress, hRun⟩
    cases hRun
    exact ⟨calleeGraph, callerGraph, k, h, rfl, hCopy, hCompress, rfl⟩

variable {g caller : Graph}

/- The cells of a call, once they are resolved. -/
theorem Graph.CallAt.collected
    (hgh : Collected g h)
    (hAt : g.CallAt cs cells)
    (hCells : g.resolveCallSite cells = .ok cells') :
    h.CallAt cs cells' := by
  rcases resolveCallSite_eq_ok hCells with ⟨hActuals, hResult⟩
  have hValue : ∀ v? c? d?, Option.Rel g.ValueAt v? c? →
      c?.mapM g.resolve = .ok d? → Option.Rel h.ValueAt v? d? := by
    intro v? c? d? hRel hResolve
    cases hRel with
    | none =>
      cases hResolve
      exact .none
    | some hv =>
      rcases option_mapM_some_eq_ok hResolve with ⟨d, hd, rfl⟩
      exact .some (hv.collected hgh hd)
  refine ⟨?_, hValue _ _ _ hAt.result hResult⟩
  have hOld := hAt.actuals
  unfold ValuesAt at hOld ⊢
  generalize cs.actuals = values, cells.actuals = actuals,
    cells'.actuals = actuals' at hOld hActuals ⊢
  induction hOld generalizing actuals' with
  | nil =>
    cases hActuals
    exact .nil
  | cons hHead _ ih =>
    cases hActuals with
    | cons hFirst hRest => exact .cons (hValue _ _ _ hHead hFirst) (ih _ hRest)

/-
  A step up on well-formed graphs records the cells of the call and brings
  all effects of the callee into the caller.
-/
theorem bottomUpStep_brings_effects
    (hGraphs : ∀ f g, s.graph? f = some g → g.WellFormed)
    (hRun : bottomUpStep config s cs callee = .ok (some t)) :
    ∃ calleeGraph callerGraph cells i,
      s.graph? callee.id = some calleeGraph ∧
      t.graph? callee.id = some calleeGraph ∧
      t.graph? cs.caller = some callerGraph ∧
      callerGraph.callSites.get? cs.id = some cells ∧
      callerGraph.CallAt cs cells ∧
      Brings config.cloning.stripAllocas cs callee calleeGraph
        callerGraph cells i := by
  rcases bottomUpStep_eq_some hRun with
    ⟨calleeGraph, callerGraph, k, h, hPair, hCopy, hCompress,
      rfl⟩
  rcases Store.pair?_eq_some_iff.mp hPair with
    ⟨_, hCallee, hCaller⟩
  rcases bottomUpCopy_eq_ok (E := False)
      (hGraphs _ _ hCallee) (hGraphs _ _ hCaller) hCopy
      False.elim with
    ⟨rfl, hStrip, ⟨cells, hk⟩, _⟩
  have hh := Compressed.of_compress hk.pictured.dest hCompress
  have hCalls := hh.callSites cs.id
  rw [hk.recorded] at hCalls
  rcases Checked.option_mapM_some_eq_ok hCalls with
    ⟨cells', hCells, hRecorded⟩
  rcases k.exists_images with ⟨i, hi⟩
  rcases Store.pair?_eq_some_iff.mp
      (Store.pair?_setGraph hPair h) with
    ⟨_, hSame, hNew⟩
  refine ⟨k.source, h, cells', i, hCallee, hSame, hNew,
    hRecorded, hk.call.collected hh.toCollected hCells, ?_⟩
  rw [← hStrip]
  exact hk.brings hh hCells hi

/- A store with the graphs of two functions. -/
def Store.ofPair
    (callee caller : Graph) : Store where
  graphs := #[callee, caller]
  owner := (OrdMap.empty.insert 0 0).insert 1 1

theorem Store.eq_of_ofPair
    {callee : Graph}
    {f : FunctionId}
    (hGraph : (ofPair callee caller).graph? f = some g) :
    g = callee ∨ g = caller := by
  simpa [ofPair] using mem_graphs hGraph

theorem Store.forall_ofPair
    {P : Graph → Prop}
    {callee : Graph}
    (hCallee : P callee)
    (hCaller : P caller) :
    ∀ f g, (ofPair callee caller).graph? f = some g → P g := by
  intro f g hGraph
  rcases eq_of_ofPair hGraph with rfl | rfl
  · exact hCallee
  · exact hCaller

/- A ring through the formal, which is returned half way. -/
def fillCallee : List Update :=
  [.createNode (Flags.ofList [.modified]) 16,
    .createNode Flags.empty 8,
    .createNode Flags.empty 8,
    .addAllocSite 1 { id := 0, kind := .heap },
    .addAllocSite 1 { id := 1, kind := .stack },
    .addAllocSite 2 { id := 2, kind := .stack },
    .merge (.addLink ⟨0, 8⟩ none ⟨1, 0⟩),
    .merge (.addLink ⟨1, 0⟩ none ⟨0, 0⟩),
    .merge (.addLink ⟨2, 0⟩ none ⟨1, 0⟩),
    .merge (.bindRoot (.formal 0) (some ⟨0, 0⟩)),
    .merge (.bindRoot (.global 0) (some ⟨2, 0⟩)),
    .merge (.bindRoot (.result 0) (some ⟨1, 0⟩))]

/- The actual and the result are fields of one node. -/
def fillCaller : List Update :=
  [.createNode Flags.empty 24,
    .merge (.bindRoot (.scalar 7) (some ⟨0, 0⟩)),
    .merge (.bindRoot (.scalar 8) (some ⟨0, 8⟩))]

def fillCall : CallSite :=
  { id := 4, caller := 1, target := .direct 0
    actuals := [some 7], result? := some 8 }

def fillFunction : FunctionDef :=
  { id := 0, name := "fill", returnsPointer := true
    formals := [{ value := 0, isPointer := true }] }

/- Formal and result get one image, and the global its own. -/
theorem bottomUpStep_brings_effects_of_fill :
    ∃ callee caller t,
      Update.runAll {} fillCallee = .ok callee ∧
      Update.runAll {} fillCaller = .ok caller ∧
      (∀ f g, (Store.ofPair callee caller).graph? f =
        some g → g.WellFormed) ∧
      bottomUpStep {} (Store.ofPair callee caller) fillCall
        fillFunction = .ok (some t) ∧
      ∃ calleeGraph callerGraph cells i,
        (Store.ofPair callee caller).graph? 0 =
          some calleeGraph ∧
        t.graph? 0 = some calleeGraph ∧
        t.graph? 1 = some callerGraph ∧
        callerGraph.callSites.get? 4 = some cells ∧
        callerGraph.CallAt fillCall cells ∧
        Brings true fillCall fillFunction calleeGraph
          callerGraph cells i := by
  rcases Update.exists_runs {} fillCallee fillCaller
      (P := fun g h =>
        (bottomUpStep {} (Store.ofPair g h) fillCall
          fillFunction).map Option.isSome = .ok true)
      (by decide) (by decide +kernel) with
    ⟨callee, caller, hBuild, hBuild', hCallee, hCaller, hEval⟩
  have hGraphs : ∀ f g, (Store.ofPair callee caller).graph? f =
      some g → g.WellFormed := by
    intro f g hGraph
    rcases Store.eq_of_ofPair hGraph with rfl | rfl
    · exact hCallee
    · exact hCaller
  cases hStep : bottomUpStep {} (Store.ofPair callee caller)
      fillCall fillFunction with
  | error fault =>
      rw [hStep] at hEval
      cases hEval
  | ok t? =>
      rw [hStep] at hEval
      injection hEval with hSome
      rcases Option.isSome_iff_exists.mp hSome with ⟨t, rfl⟩
      exact ⟨callee, caller, t, hBuild, hBuild', hGraphs,
        hStep, bottomUpStep_brings_effects hGraphs hStep⟩

end HeapShape
