import HeapShape.Proofs.Propagation.Placed
import HeapShape.Proofs.Simulation.Injective

/-
  A step down merges in the callee what the caller merges.

  The step copies what the caller passes and merges the copies with the
  roots of the callee. A callee node that the simulation of the call places
  in a caller node is then the node in which the copy of that caller node
  lies. So two callee nodes in one caller node would be one node.

  Main declarations:
    * `BoundDown`
    * `Copier.StartsAt`
    * `Copier.JoinedDown.apart`
    * `topDownStep_eq_some`
-/

-- What A Step Down Joins

namespace HeapShape

open Checked Graph Copier Simulation

/- The roots of a callee that a step down binds. -/
inductive BoundDown
    (policy : CloningPolicy)
    (callee : FunctionDef)
    (callerGraph calleeGraph : Graph) :
    Root → Prop
  | global {v : GlobalId}
      (hName : v ∈ callerGraph.globalNames)
      (hUsed : (!policy.skipUnusedGlobals ||
        calleeGraph.roots.contains (.global v)) = true) :
      BoundDown policy callee callerGraph calleeGraph
        (.global v)
  | result
      (hPointer : callee.returnsPointer = true) :
      BoundDown policy callee callerGraph calleeGraph
        (.result callee.id)
  | formal (v : ValueId) :
      BoundDown policy callee callerGraph calleeGraph
        (.formal v)

/-
  The copy of a caller in its callee. The roots that both sides have meet,
  and every copied node has its links.
-/
structure Copier.JoinedDown
    (E : Prop)
    (k : Copier)
    (cs : CallSite)
    (callee : FunctionDef) : Prop where
  pictured : k.Pictured
  linked : ∀ x c, k.copies.get? x = some c →
    k.LinksCopied E k.dest x
  roots : ∀ r c d, Passes cs callee k.source r c →
    k.dest.roots.get? r = some d →
    ∃ force, k.Meets E k.dest force c fun place last =>
      last.RootAt r place

variable {E : Prop} {policy : CloningPolicy} {cs : CallSite} {callee : FunctionDef}
variable {calleeGraph callerGraph : Graph} {k k' : Copier}

/- Globals, then the result, then the formals are joined. -/
theorem Copier.Grows.joinDown
    (hk : k.Pictured)
    (hForced : k.ForcedCopied)
    (hRun : (topDownJunctions policy cs callee k.source
      calleeGraph).foldlM Copier.join k = .ok k') :
    Grows E (BoundDown policy callee k.source calleeGraph) k k'
      fun last => NewLinked E k k' last ∧ ∀ r c, Passes cs callee k.source r c →
          BoundDown policy callee k.source calleeGraph r →
          ∃ force, k'.Meets E last force c fun place last =>
            last.RootAt r place := by
  unfold topDownJunctions at hRun
  rw [List.foldlM_append] at hRun
  rcases of_bind hRun with ⟨k₂, hRun, hFormals⟩
  rw [List.foldlM_append] at hRun
  rcases of_bind hRun with ⟨k₁, hGlobals, hResult⟩
  have hFirst := Grows.joinAll (E := E) (R := BoundDown policy callee k.source calleeGraph)
    (P := fun v place last => last.RootAt (.global v) place)
    hk hForced
    (fun v hv own hOwn => by
      cases hOwn
      rcases List.mem_filter.mp hv with ⟨hName, hUsed⟩
      exact finds_root (.global hName hUsed)) hGlobals
  have hSecond := Grows.joinAll (E := E) (R := BoundDown policy callee k.source calleeGraph)
    (P := fun _ place last =>
      last.RootAt (.result callee.id) place)
    hFirst.pictured (hFirst.forced hForced)
    (fun v hv own hOwn => by
      cases hOwn
      refine finds_root (.result ?_)
      split at hv
      · assumption
      · cases hv) hResult
  have hThird := Grows.joinAll (E := E) (R := BoundDown policy callee k.source calleeGraph)
    (P := fun pair place last =>
      last.RootAt (.formal pair.1) place)
    hSecond.pictured (hSecond.forced (hFirst.forced hForced))
    (fun pair _ own hOwn => by
      cases hOwn
      exact finds_root (.formal pair.1)) hFormals
  apply ((hFirst.trans hSecond).trans hThird).imp
  have hRest := hSecond.extension.trans hThird.extension
  rintro last _ ⟨⟨⟨hNew, hMeets⟩, hNew', hMeets'⟩, hNew'', hMeets''⟩
  refine ⟨(hNew.trans hNew' hSecond.extension).trans hNew'' hThird.extension, ?_⟩
  intro r c hPasses hBound
  cases hPasses with
  | global hCell =>
    cases hBound with
    | global hName hUsed =>
      exact ⟨true, (hMeets _ (List.mem_filter.mpr ⟨hName, hUsed⟩) c hCell
        rfl).extended hRest⟩
  | result hValue hCell =>
    cases hBound with
    | result hPointer =>
      refine ⟨false, (hMeets' _ ?_ c hCell rfl).extended hThird.extension⟩
      rw [if_pos hPointer, hValue]
      exact List.mem_singleton.mpr rfl
  | @formal formal v _ hActual hPointer hCell =>
    exact ⟨false, hMeets'' (formal.value, v) (FunctionDef.mem_pointerPairs.mpr
        ⟨formal, hActual, hPointer, rfl⟩) c hCell rfl⟩

/-
  What copying a caller into its callee achieves, if only a callee that
  returns a pointer has a result. Where addresses matter, the strides of the
  callee and those of the copied arrays must be kept.
-/
theorem topDownCopy_eq_ok
    (hCaller : callerGraph.WellFormed)
    (hCallee : calleeGraph.WellFormed)
    (hResult : ∀ c,
      calleeGraph.roots.get? (.result callee.id) = some c → callee.returnsPointer = true)
    (hRun : topDownCopy policy cs callee callerGraph calleeGraph = .ok k)
    (hStrides : E → SameStrides calleeGraph k.dest ∧ k.Strides k.dest) :
    k.source = callerGraph ∧ k.dest.config = calleeGraph.config ∧
      k.JoinedDown E cs callee := by
  unfold topDownCopy at hRun
  rcases pictured_start hCaller hCallee (CopyOptions.topDown policy cs.caller) with ⟨hStart, hNone⟩
  have hGrows := Grows.joinDown (E := E) hStart hNone hRun
  rcases hGrows.carries.here hStrides with ⟨_, hNew, hMeets⟩
  have hSource := hGrows.extension.source
  refine ⟨hSource, hGrows.carries.later.merged.config,
    hGrows.pictured, fun x c hCopy => hNew x c hCopy rfl, ?_⟩
  intro r c d hPasses hRoot
  rw [hSource] at hPasses
  apply hMeets r c hPasses
  -- A root that is not bound would have been there before.
  by_contra hNot
  rw [hGrows.roots r hNot] at hRoot
  apply hNot
  cases hPasses with
  | global hCell =>
    rcases root_of_rootCell? hCell with ⟨c', hRoot', _⟩
    refine .global (mem_globalNames.mpr ⟨c', hRoot'⟩) ?_
    rw [Bool.or_eq_true]
    refine Or.inr ?_
    unfold OrdMap.contains
    rw [hRoot]
    rfl
  | result => exact .result (hResult d hRoot)
  | formal => exact .formal _

-- Where Callee Nodes Start

namespace Copier

open Graph Simulation

/- A node starts where a cell of the source is copied to. -/
def StartsAt
    (k : Copier)
    (m : NodeId)
    (place : Cell) : Prop :=
  ∃ n n' j, k.LiesAt place.node m n n' j ∧
    n'.effectiveOffset (place.offset + j) = 0

variable {h : Graph} {m m' copy : NodeId} {place place' : Cell}

/- A node of the source is copied into one node. -/
theorem StartsAt.eq
    (hStarts : k.StartsAt m place)
    (hStarts' : k.StartsAt m' place')
    (hNode : place.node = place'.node) :
    m = m' := by
  rcases hStarts with ⟨_, _, _, hAt, _⟩
  rcases hStarts' with ⟨_, _, _, hAt', _⟩
  rcases hAt.copy with ⟨c, hCopy, hLeads⟩
  rcases hAt'.copy with ⟨c', hCopy', hLeads'⟩
  rw [hNode, hCopy'] at hCopy
  cases hCopy
  exact (hLeads.unique hLeads').1

/-
  A node that is laid on a source cell starts where the place of it is
  copied to, if the copy of the source cell is where the node was laid.
-/
theorem startsAt_of_lays
    (hk : k.Pictured)
    (hStrides : k.Strides k.dest)
    (hh : Collected k.dest h)
    {x c1 c2 d : Cell}
    (hx : k.dest.resolve x = .ok c1)
    (hd : k.source.resolve c2 = .ok d)
    (hCopy : k.copies.get? d.node = some copy)
    (hSame : k.dest.SameAddress x
      { node := copy, offset := d.offset })
    (hLays : Lays h k.source c1 c2 m place) :
    k.StartsAt m place := by
  rcases hLays with ⟨o1, o2, n1, n2, hc1, hc2, _, hLive2, _, hBase⟩
  rcases hk.liesAt_of_sameAddress hCopy hSame hx with ⟨n, n', j, hAt, hRead⟩
  rcases hh.effective_eq_ok hc1 with ⟨l, hLive1, hAddress⟩
  rw [hAt.dest] at hLive1
  cases hLive1
  rw [effective_of_resolve hd hAt.source] at hc2
  injection hAddress with hm ho1
  injection hc2 with hc2
  injection hc2 with hPlace ho2
  rw [← hPlace, hAt.source] at hLive2
  cases hLive2
  rw [ho1, ← ho2] at hBase
  refine ⟨n2, n', j, ?_, hAt.liesIn.start_of_baseAt (hAt.stride hStrides) hRead hBase⟩
  rw [← hPlace, hm]
  exact hAt

/- The links of a node start where links are copied to. -/
theorem StartsAt.link
    (hk : k.Pictured)
    (hStrides : k.Strides k.dest)
    (hLinked : ∀ x c, k.copies.get? x = some c → k.LinksCopied True k.dest x)
    (hConfig : k.dest.config = k.source.config)
    (hh : Collected k.dest h)
    (hStarts : k.StartsAt m place)
    {l : Node}
    {field : Field}
    {target image : Cell}
    (hSlot : h.slot m = .live l)
    (hGet : l.links.get? field = some target)
    (hLink : k.source.link?
      { node := place.node
        offset := place.offset + field.offset }
      field.type? = .ok (some image))
    (hLays : Lays h k.source target image m' place') :
    k.StartsAt m' place' := by
  rcases hStarts with ⟨n, n', j, hAt, hStart⟩
  rcases hh.nodes m l hSlot with ⟨n₁, hLive, _, hLinks⟩
  rw [hAt.dest] at hLive
  cases hLive
  rcases hLinks field target hGet with ⟨t, hFound, ht⟩
  rw [link?_of_live (c := ⟨place.node, place.offset + field.offset⟩) hAt.source,
    option_mapM_eq_some_iff] at hLink
  rcases hLink with ⟨u, hLink, hu⟩
  rcases hAt.copy with ⟨c, hCopy, hLeads⟩
  rcases hLinked _ c hCopy with ⟨n₂, c₂, hLive₂, hCopy₂, hAll⟩
  rw [hAt.source] at hLive₂
  cases hLive₂
  rw [hCopy] at hCopy₂
  cases hCopy₂
  rcases hAll _ ((OrdMap.get?_eq_some_iff _ _ _).mp hLink) with
    ⟨u', targetCopy, hu', hTarget, hCopied⟩
  rw [hu] at hu'
  cases hu'
  rcases hCopied with ⟨m₁, n₁, i, f, w, hEnd, hLive₁, _, hThere, _, hExact⟩
  rcases hLeads.unique hEnd with ⟨rfl, rfl⟩
  rw [hAt.dest] at hLive₁
  cases hLive₁
  rcases hExact trivial with ⟨hField, hSame⟩
  -- The link was copied to the field that leads to it.
  have hKey : f = field := by
    have hOwn := ((hk.dest.nodes m n' hAt.dest).links field t hFound).effectiveField_eq
    have hOrder : place.offset + field.offset + j = place.offset + j + field.offset := by omega
    rw [hConfig] at hField hOwn
    rw [hField]
    refine (hAt.liesIn.effectiveField_shift (hAt.stride hStrides) (place.offset + field.offset)
      field.type?).trans ?_
    refine (Node.effectiveField_congr ?_ field.type?).trans hOwn
    rw [hOrder, ← Node.effectiveOffset_add, hStart, Nat.zero_add]
  rw [hKey, hFound] at hThere
  cases hThere
  rcases leads_of_resolve hu with ⟨_, hImage, _⟩
  rcases hImage.live_end with ⟨_, hImageLive⟩
  exact startsAt_of_lays hk hStrides hh ht (resolve_of_live hImageLive) hTarget hSame hLays

/-
  After a step down no caller node holds two callee nodes, unless the caller
  does not simulate the callee.
-/
theorem JoinedDown.apart
    (hk : k.JoinedDown True cs callee)
    (hStrides : k.Strides k.dest)
    (hConfig : k.dest.config = k.source.config)
    (hh : Collected k.dest h)
    {s : Simulation}
    (hRun : ofCall cs callee h k.source = .ok s)
    (hFunction : s.isFunction = true) :
    s.places.Apart := by
  have hStarts : ∀ node place, s.places node = some place → k.StartsAt node place := by
    intro node place hPlace
    refine places_induction hk.pictured.source hRun hFunction ?_ ?_ hPlace
    · intro r c1 c2 node place hCell hPasses hLays
      rw [hh.rootCell?_eq] at hCell
      rcases root_of_rootCell? hCell with ⟨x, hRoot, hx⟩
      rcases hk.roots r c2 x hPasses hRoot with ⟨_, d, copy, y, hd, hCopy, _, hAt, _, hSame⟩
      rcases hAt with ⟨x', hRoot', hPlace⟩
      rw [hRoot] at hRoot'
      cases hRoot'
      exact startsAt_of_lays hk.pictured hStrides hh hx hd
        hCopy (hPlace.sameAddress.trans (hSame trivial)) hLays
    · intro node place n field target image next place' hAt hLive hGet hLink hLays
      exact hAt.link hk.pictured hStrides hk.linked hConfig hh hLive hGet hLink hLays
  intro node node' place place' hPlace hPlace' hNode
  exact (hStarts _ _ hPlace).eq (hStarts _ _ hPlace') hNode

end Copier

-- Steps Down

open Graph

variable {config : Config} {s t : Store} {count : Nat}

/- A step down copies, collects and replaces the callee. -/
theorem topDownStep_eq_some
    (hRun : topDownStep config s cs callee = .ok (some (count, t))) :
    ∃ callerGraph calleeGraph k h, s.pair? cs.caller callee.id =
      some (callerGraph, calleeGraph) ∧
      topDownCopy config.cloning cs callee callerGraph calleeGraph = .ok k ∧
      (config.cloning.pruneForeign = true ∧ k.dest.pruneForeign = .ok (count, h) ∨
        config.cloning.pruneForeign = false ∧ k.dest.compress = .ok h) ∧
      t = s.setGraph callee.id h := by
  unfold topDownStep at hRun
  cases hPair : s.pair? cs.caller callee.id with
  | none =>
    rw [hPair] at hRun
    cases hRun
  | some pair =>
    rcases pair with ⟨callerGraph, calleeGraph⟩
    rw [hPair] at hRun
    dsimp only at hRun
    rcases of_bind hRun with ⟨k, hCopy, hRun⟩
    split at hRun
    · next hOn =>
      rcases of_bind hRun with ⟨⟨pruned, h⟩, hPrune, hRun⟩
      cases hRun
      exact ⟨callerGraph, calleeGraph, k, h, rfl, hCopy, Or.inl ⟨hOn, hPrune⟩, rfl⟩
    · next hOff =>
      rcases of_bind hRun with ⟨h, hCompress, hRun⟩
      cases hRun
      exact ⟨callerGraph, calleeGraph, k, h, rfl, hCopy,
        Or.inr ⟨Bool.eq_false_iff.mpr hOff, hCompress⟩,
        rfl⟩

end HeapShape
