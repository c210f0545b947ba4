import HeapShape.Proofs.Graph.Kept
import HeapShape.Proofs.Simulation.Exact

/-
  Simulations of trimmed graphs.

  Freeing dead nodes leaves the nodes that roots reach, with the live cells
  of their links. A simulation visits no other nodes and looks at live cells
  only, so it finds the same images before and after. Its bound is smaller
  afterwards, and still large enough.

  Main declarations:
    * `Graph.Trimmed`
    * `Simulation.insertWithin_of_le`
    * `Simulation.insertWithin_trimmed`
    * `Simulation.ofCall_trimmed`
-/

-- Trimmed Graphs

namespace HeapShape

open Checked

namespace Graph

/- The live cell of a cell, if it has one. -/
def settled
    (g : Graph)
    (c : Cell) : Cell :=
  (g.resolve c).toOption.getD c

/-
  A graph without its dead nodes: what is left has the live cells of all its
  links.
-/
structure Trimmed
    (g h : Graph) : Prop
    extends Collected g h where
  whole : ∀ id n', h.slot id = .live n' →
    ∃ n, g.slot id = .live n ∧
      n' = { n with links := n.links.mapValues g.settled } ∧
      ∀ f t, n.links.get? f = some t →
        g.resolve t = .ok (g.settled t)

variable {g h : Graph} {c d : Cell} {id : NodeId} {n n' : Node}

theorem settled_eq
    (hResolve : g.resolve c = .ok d) :
    g.settled c = d := by
  unfold settled
  rw [hResolve]
  rfl

/- Look-ups of live cells, told by a map of cells. -/
theorem eq_map_settled
    {c? d? : Option Cell}
    (hRun : c?.mapM g.resolve = .ok d?) :
    d? = c?.map g.settled := by
  cases c? with
  | none =>
    cases hRun
    rfl
  | some c =>
    rcases option_mapM_some_eq_ok hRun with ⟨d, hResolve, rfl⟩
    rw [Option.map_some, settled_eq hResolve]

theorem Compressed.whole
    (hgh : Compressed g h)
    (hSlot : g.slot id = .live n) :
    h.slot id = .live { n with
        links := n.links.mapValues g.settled } ∧
      ∀ f t, n.links.get? f = some t → g.resolve t = .ok (g.settled t) := by
  rcases hgh.live id n hSlot with ⟨links, hNew, hLinks⟩
  have hEq : links = n.links.mapValues g.settled := by
    apply OrdMap.ext_get?
    intro f
    rw [OrdMap.get?_mapValues]
    exact eq_map_settled (hLinks f)
  rw [hEq] at hNew hLinks
  refine ⟨hNew, ?_⟩
  intro f t hGet
  have hLink := hLinks f
  rw [hGet] at hLink
  rcases option_mapM_some_eq_ok hLink with ⟨d, hResolve, _⟩
  rw [settled_eq hResolve]
  exact hResolve

theorem Trimmed.of_removeDead
    (hg : g.WellFormed)
    {count : Nat}
    (hRun : g.removeDead = .ok (count, h)) :
    Trimmed g h := by
  refine ⟨.of_removeDead hg hRun, ?_⟩
  unfold Graph.removeDead at hRun
  rcases of_bind hRun with ⟨g₁, hCompress, hRun⟩
  rcases of_bind hRun with ⟨cells, _, hRun⟩
  rcases of_bind hRun with ⟨out, _, hRun⟩
  have hFirst := Compressed.of_compress hg hCompress
  have hRetain : h = (g₁.retain fun i _ => out.contains i).2 := by
    cases hRun
    rfl
  intro id n' hNew
  rw [hRetain, slot_retain] at hNew
  split at hNew
  · cases hNew
  · rcases hFirst.nodes id n' hNew with ⟨n, hOld, _⟩
    rcases hFirst.whole hOld with ⟨hSlot, hLinks⟩
    rw [hNew] at hSlot
    exact ⟨n, hOld, Slot.live.inj hSlot, hLinks⟩

/- The nodes that are left are live in both graphs. -/
theorem Trimmed.live
    (hgh : Trimmed g h)
    (hId : h.hasNode id = true) :
    ∃ n, g.slot id = .live n ∧ h.slot id = .live { n with
        links := n.links.mapValues g.settled } ∧
      ∀ f t, n.links.get? f = some t → g.resolve t = .ok (g.settled t) ∧ h.Has (g.settled t) := by
  rcases hgh.wellFormed.leads hId with ⟨m, k, hLeads⟩
  rcases hgh.eq_of_leads hLeads with ⟨rfl, _⟩
  rcases hLeads.live_end with ⟨n', hNew⟩
  rcases hgh.whole _ n' hNew with ⟨n, hOld, rfl, hLinks⟩
  refine ⟨n, hOld, hNew, ?_⟩
  intro f t hGet
  refine ⟨hLinks f t hGet, hgh.wellFormed.link_has _ _ f _ hNew ?_⟩
  rw [OrdMap.get?_mapValues, hGet]
  rfl

/- Links lead to the same live cells. -/
theorem Trimmed.link?_eq
    (hgh : Trimmed g h)
    (hc : h.hasNode c.node = true)
    (type? : Option TypeTag) :
    h.link? c type? = g.link? c type? := by
  rcases hgh.live hc with ⟨n, hOld, hNew, hLinks⟩
  rw [link?_of_live hOld, link?_of_live hNew, hgh.config]
  change ((n.links.mapValues g.settled).get? (n.effectiveField _)).mapM h.resolve = _
  rw [OrdMap.get?_mapValues]
  cases hGet : n.links.get? (n.effectiveField (Field.make g.config c.offset type?)) with
  | none => rfl
  | some t =>
    rcases hLinks _ t hGet with ⟨hResolve, hHas⟩
    rw [Option.map_some, Option.mapM_some, Option.mapM_some, hgh.resolve_eq hHas, hResolve]

theorem Trimmed.globalNames_eq
    (hgh : Trimmed g h) :
    h.globalNames = g.globalNames := by
  have hRoots : h.roots = g.roots.mapValues g.settled := by
    apply OrdMap.ext_get?
    intro r
    rw [OrdMap.get?_mapValues]
    exact eq_map_settled (hgh.roots r)
  unfold globalNames
  rw [hRoots, OrdMap.mapValues, List.filterMap_map]
  rfl

end Graph

-- Enough Fuel

namespace Simulation

/-
  One step of a walk: what it finds, and the pairs that are left unless it
  fails.
-/
def visit
    (callee caller : Graph)
    (s : Simulation)
    (pair : Cell × Cell)
    (work : List (Cell × Cell)) :
    Checked (Simulation × Option (List (Cell × Cell))) := do
  match ← align callee caller pair.1 pair.2 with
  | none => return (s.fail, none)
  | some (node, img) =>
    match s.image? node with
    | some old =>
      if old.node = img.node ∧ old.base = img.base then
        return (s, some work)
      else
        return (s.fail, none)
    | none =>
      let n ← callee.contents node
      match ← linkPairs caller img.node img.base
          n.links.entries work with
      | some work =>
        return (s.record node img, some work)
      | none => return ((s.record node img).fail, none)

/- The walk goes on with the pairs that are left. -/
def proceed
    (callee caller : Graph)
    (fuel : Nat)
    (step : Simulation × Option (List (Cell × Cell))) :
    Checked Simulation :=
  match step.2 with
  | none => .ok step.1
  | some work => insertWithin callee caller fuel work step.1

variable {callee caller : Graph} {pair : Cell × Cell} {work : List (Cell × Cell)} {s : Simulation}
variable {fuel more : Nat}

theorem insertWithin_nil
    (fuel : Nat) :
    insertWithin callee caller fuel [] s = .ok s := by
  cases fuel <;> rfl

theorem insertWithin_cons :
    insertWithin callee caller (fuel + 1) (pair :: work) s =
      visit callee caller s pair work >>= proceed callee caller fuel := by
  unfold insertWithin visit
  rw [bind_assoc]
  congr 1
  funext aligned
  cases aligned with
  | none => rfl
  | some placed =>
    dsimp only
    cases s.image? placed.1 with
    | some old =>
      dsimp only
      split
      · rfl
      · rfl
    | none =>
      dsimp only
      rw [bind_assoc]
      congr 1
      funext n
      rw [bind_assoc]
      congr 1
      funext found
      cases found with
      | none => rfl
      | some work => rfl

/- A walk that ends within its bound needs no larger one. -/
theorem insertWithin_of_le
    (hFuel : fuel ≤ more)
    (hEnds : insertWithin callee caller fuel work s ≠ .error .unbounded) :
    insertWithin callee caller more work s = insertWithin callee caller fuel work s := by
  induction fuel generalizing more work s with
  | zero =>
    cases work with
    | nil => rw [insertWithin_nil, insertWithin_nil]
    | cons pair rest => exact absurd rfl hEnds
  | succ fuel ih =>
    cases work with
    | nil => rw [insertWithin_nil, insertWithin_nil]
    | cons pair rest =>
      cases more with
      | zero => exact absurd hFuel (Nat.not_succ_le_zero _)
      | succ more =>
      have hLe := Nat.le_of_succ_le_succ hFuel
      rw [insertWithin_cons] at hEnds ⊢
      rw [insertWithin_cons]
      cases hVisit : visit callee caller s pair rest with
      | error e => rw [error_bind, error_bind]
      | ok step =>
      rw [hVisit, ok_bind] at hEnds
      rw [ok_bind, ok_bind]
      unfold proceed at hEnds ⊢
      split
      · rfl
      · next work' hWork =>
        rw [hWork] at hEnds
        exact ih hLe hEnds

-- Walks Of Trimmed Graphs

/- A waiting pair, with the live cell of the callee. -/
def settlePair
    (callee : Graph)
    (pair : Cell × Cell) : Cell × Cell :=
  (callee.settled pair.1, pair.2)

/- Both cells of a pair are left in the trimmed graphs. -/
structure Tracked
    (callee callee' caller' : Graph)
    (pair : Cell × Cell) : Prop where
  resolve : callee.resolve pair.1 =
    .ok (callee.settled pair.1)
  callee : callee'.Has (callee.settled pair.1)
  caller : caller'.Has pair.2

variable {callee' caller' : Graph} {work' : List (Cell × Cell)} {s' : Simulation}

theorem align_trimmed
    (hCallee : callee.Trimmed callee')
    (hCaller : caller.Trimmed caller')
    (hPair : Tracked callee callee' caller' pair) :
    align callee' caller' (callee.settled pair.1) pair.2 =
      align callee caller pair.1 pair.2 := by
  rcases hCallee.live hPair.callee.occupied with ⟨n1, hOld1, hNew1, _⟩
  rcases hCaller.live hPair.caller.occupied with ⟨n2, hOld2, hNew2, _⟩
  unfold align
  rw [hPair.resolve, hCallee.resolve_eq hPair.callee, hCaller.resolve_eq hPair.caller,
    Graph.resolve_of_live hOld2]
  change (callee'.contents (callee.settled pair.1).node >>=
      fun n1 => caller'.contents pair.2.node >>= fun n2 => _) =
    (callee.contents (callee.settled pair.1).node >>=
      fun n1 => caller.contents pair.2.node >>= fun n2 => _)
  rw [Graph.contents_of_live hOld1, Graph.contents_of_live hNew1, Graph.contents_of_live hOld2,
    Graph.contents_of_live hNew2]
  rfl

theorem linkPairs_trimmed
    (hCaller : caller.Trimmed caller')
    {node : NodeId}
    (hNode : caller'.hasNode node = true)
    (base : Nat)
    (links : List (Field × Cell))
    (work : List (Cell × Cell)) :
    linkPairs caller' node base (links.map fun e => (e.1, callee.settled e.2))
        (work.map (settlePair callee)) =
      (linkPairs caller node base links work).map (Option.map (List.map (settlePair callee))) := by
  induction links generalizing work with
  | nil => rfl
  | cons link rest ih =>
    rw [List.map_cons]
    unfold linkPairs
    cases addWord base link.1.offset with
    | error e =>
      rw [error_bind, error_bind]
      rfl
    | ok offset =>
    rw [ok_bind, ok_bind]
    dsimp only
    rw [hCaller.link?_eq hNode]
    cases caller.link? ⟨node, offset⟩ link.1.type? with
    | error e =>
      rw [error_bind, error_bind]
      rfl
    | ok found =>
    rw [ok_bind, ok_bind]
    cases found with
    | none => rfl
    | some image => exact ih ((link.2, image) :: work)

/- A pair is laid at the nodes of its cells. -/
theorem Tracked.nodes_of_align
    (hPair : Tracked callee callee' caller' pair)
    (hCaller : caller.Trimmed caller')
    {placed : NodeId × NodeImage}
    (hRun : align callee caller pair.1 pair.2 = .ok (some placed)) :
    placed.1 = (callee.settled pair.1).node ∧ placed.2.node = pair.2.node := by
  rcases hCaller.live hPair.caller.occupied with ⟨n2, hOld2, _, _⟩
  unfold align at hRun
  rw [hPair.resolve, Graph.resolve_of_live hOld2] at hRun
  simp only [ok_bind] at hRun
  rcases of_bind hRun with ⟨n1, _, hRun⟩
  rcases of_bind hRun with ⟨n2, _, hRun⟩
  split at hRun
  · cases hRun
  · rcases of_bind hRun with ⟨base?, _, hRun⟩
    cases base? with
    | none => cases hRun
    | some base =>
      cases hRun
      exact ⟨rfl, rfl⟩

theorem visit_trimmed
    (hCallee : callee.Trimmed callee')
    (hCaller : caller.Trimmed caller')
    (hPair : Tracked callee callee' caller' pair) :
    visit callee' caller' s (settlePair callee pair) (work.map (settlePair callee)) =
      (visit callee caller s pair work).map fun step =>
        (step.1, step.2.map (List.map (settlePair callee))) := by
  unfold visit
  rw [settlePair, align_trimmed hCallee hCaller hPair]
  cases hFound : align callee caller pair.1 pair.2 with
  | error e =>
    rw [error_bind, error_bind]
    rfl
  | ok aligned =>
  rw [ok_bind, ok_bind]
  cases aligned with
  | none => rfl
  | some placed =>
  rcases hPair.nodes_of_align hCaller hFound with ⟨hNode, hImage⟩
  rcases hCallee.live hPair.callee.occupied with ⟨n, hOld, hNew, _⟩
  rw [← hNode] at hOld hNew
  have hThere : caller'.hasNode placed.2.node = true := by
    rw [hImage]
    exact hPair.caller.occupied
  dsimp only
  cases s.image? placed.1 with
  | some old =>
    dsimp only
    split
    · rfl
    · rfl
  | none =>
    dsimp only
    rw [Graph.contents_of_live hOld, Graph.contents_of_live hNew, ok_bind, ok_bind]
    dsimp only [OrdMap.mapValues]
    rw [linkPairs_trimmed hCaller hThere]
    cases linkPairs caller placed.2.node placed.2.base n.links.entries work with
    | error e =>
      rw [error_bind]
      rfl
    | ok found =>
    rw [ok_bind]
    cases found with
    | none => rfl
    | some work' => rfl

/- The pairs that links ask for are left, too. -/
theorem Tracked.visit
    (hCallee : callee.Trimmed callee')
    (hCaller : caller.Trimmed caller')
    (hPair : Tracked callee callee' caller' pair)
    (hWork : ∀ other ∈ work, Tracked callee callee' caller' other)
    (hRun : visit callee caller s pair work = .ok (s', some work')) :
    ∀ other ∈ work', Tracked callee callee' caller' other := by
  unfold Simulation.visit at hRun
  rcases of_bind hRun with ⟨aligned, hFound, hRun⟩
  cases aligned with
  | none => cases hRun
  | some placed =>
  rcases hPair.nodes_of_align hCaller hFound with ⟨hNode, hImage⟩
  rcases hCallee.live hPair.callee.occupied with ⟨n, hOld, _, hLinks⟩
  rw [← hNode] at hOld
  dsimp only at hRun
  cases hKnown : s.image? placed.1 with
  | some old =>
    rw [hKnown] at hRun
    dsimp only at hRun
    split at hRun
    · cases hRun
      exact hWork
    · cases hRun
  | none =>
    rw [hKnown] at hRun
    dsimp only at hRun
    rw [Graph.contents_of_live hOld] at hRun
    simp only [ok_bind] at hRun
    rcases of_bind hRun with ⟨found, hPairs, hRun⟩
    rcases linkPairs_eq_ok ⟨placed.2.node, placed.2.base⟩ hPairs with
      ⟨work₁, rfl, hAsked⟩ | ⟨rfl, _⟩
    · cases hRun
      intro other hMem
      rcases hAsked.only other hMem with hMem | ⟨field, hMem, hLink⟩
      · exact hWork other hMem
      · have hGet := (OrdMap.get?_eq_some_iff _ _ _).mpr hMem
        rcases hLinks field _ hGet with ⟨hResolve, hHas⟩
        refine ⟨hResolve, hHas, ?_⟩
        rw [← hCaller.link?_eq] at hLink
        · exact hCaller.wellFormed.has_of_link? hLink
        · change caller'.hasNode placed.2.node = true
          rw [hImage]
          exact hPair.caller.occupied
    · cases hRun

/- Walks in trimmed graphs find what they found before. -/
theorem insertWithin_trimmed
    (hCallee : callee.Trimmed callee')
    (hCaller : caller.Trimmed caller')
    (fuel : Nat)
    (hWork : ∀ pair ∈ work, Tracked callee callee' caller' pair) :
    insertWithin callee' caller' fuel (work.map (settlePair callee)) s =
      insertWithin callee caller fuel work s := by
  induction fuel generalizing work s with
  | zero =>
    cases work with
    | nil => rfl
    | cons pair rest => rfl
  | succ fuel ih =>
    cases work with
    | nil => rfl
    | cons pair rest =>
      rw [List.forall_mem_cons] at hWork
      rw [List.map_cons, insertWithin_cons, insertWithin_cons,
        visit_trimmed hCallee hCaller hWork.1]
      cases hVisit : visit callee caller s pair rest with
      | error e =>
        rw [error_bind]
        rfl
      | ok step =>
      rw [ok_bind]
      rcases step with ⟨s', work?⟩
      cases work? with
      | none => rfl
      | some work' => exact ih (hWork.1.visit hCallee hCaller hWork.2 hVisit)

-- Calls

variable {c1 c2 : Cell}

/- A walk with a large enough bound is not cut short. -/
theorem insertWithin_ne_unbounded
    (hCallee : callee.WellFormed)
    (hCaller : caller.WellFormed)
    (hWork : ∀ pair ∈ work, callee.Has pair.1 ∧ caller.Has pair.2)
    (hFuel : work.length + s.linksLeft callee.liveNodes ≤ fuel) :
    insertWithin callee caller fuel work s ≠ .error .unbounded := by
  rcases yields_insertWithin hCallee hCaller hWork hFuel with hOver | ⟨s', hOk, _⟩
  · rw [hOver]
    nofun
  · rw [hOk]
    nofun

/- A walk from two cells ends within its bound. -/
theorem insert_eq_within
    (hCallee : callee.WellFormed)
    (hCaller : caller.WellFormed)
    (h1 : callee.Has c1)
    (h2 : caller.Has c2)
    (hs : ¬ s.failed = true) :
    ∃ fuel, ∀ more, fuel ≤ more → insert callee caller s c1 c2 =
        insertWithin callee caller more [(c1, c2)] s := by
  unfold insert
  rw [if_neg hs]
  refine ⟨_, fun more hLe => (insertWithin_of_le hLe
    (insertWithin_ne_unbounded hCallee hCaller ?_ ?_)).symm⟩
  · exact List.forall_mem_singleton.mpr ⟨h1, h2⟩
  · rw [List.length_singleton, Nat.add_comm]
    exact Nat.add_le_add_right (linksLeft_le_total _) 1

theorem insert_trimmed
    (hg : callee.WellFormed)
    (hh : caller.WellFormed)
    (hCallee : callee.Trimmed callee')
    (hCaller : caller.Trimmed caller')
    (h1 : callee'.Has c1)
    (h2 : caller'.Has c2) :
    insert callee' caller' s c1 c2 = insert callee caller s c1 c2 := by
  by_cases hs : s.failed = true
  · unfold insert
    rw [if_pos hs, if_pos hs]
  · have hResolve : callee.resolve c1 = .ok c1 := by
      rcases hCallee.live h1.occupied with ⟨n, hOld, _⟩
      exact Graph.resolve_of_live hOld
    have hSettled := Graph.settled_eq hResolve
    have hOld1 : callee.Has c1 := by
      rcases hCallee.live h1.occupied with ⟨n, hOld, _⟩
      exact ⟨Graph.hasNode_of_live hOld, h1.word⟩
    have hOld2 : caller.Has c2 := by
      rcases hCaller.live h2.occupied with ⟨n, hOld, _⟩
      exact ⟨Graph.hasNode_of_live hOld, h2.word⟩
    rcases insert_eq_within hg hh hOld1 hOld2 hs with ⟨fuel, hFirst⟩
    rcases insert_eq_within hCallee.wellFormed hCaller.wellFormed h1 h2 hs with ⟨fuel', hSecond⟩
    -- Both walks end within the larger of the two bounds.
    rw [hFirst (max fuel fuel') (Nat.le_max_left _ _),
      hSecond (max fuel fuel') (Nat.le_max_right _ _)]
    have hPair : Tracked callee callee' caller' (c1, c2) := by
      refine ⟨?_, ?_, h2⟩
      · rw [hSettled]
        exact hResolve
      · rw [hSettled]
        exact h1
    have hEq := insertWithin_trimmed (s := s) hCallee hCaller
      (max fuel fuel') (List.forall_mem_singleton.mpr hPair)
    rw [List.map_singleton, settlePair, hSettled] at hEq
    exact hEq

/- Pairs of live cells are mapped alike. -/
theorem addPair_trimmed
    (hg : callee.WellFormed)
    (hh : caller.WellFormed)
    (hCallee : callee.Trimmed callee')
    (hCaller : caller.Trimmed caller')
    {pair : RootPair}
    (h1 : ∀ c, pair.callee = .ok (some c) → callee'.Has c)
    (h2 : ∀ image c, pair.caller? = some image → image = .ok (some c) → caller'.Has c) :
    addPair callee' caller' s pair = addPair callee caller s pair := by
  unfold addPair
  split
  · rfl
  · cases hCell : pair.callee with
    | error e => rw [error_bind, error_bind]
    | ok c1? =>
      rw [ok_bind, ok_bind]
      cases c1? with
      | none => dsimp only
      | some c1 =>
        cases hPlace : pair.caller? with
        | none => dsimp only
        | some image =>
          dsimp only
          cases hImage : image with
          | error e => rw [error_bind, error_bind]
          | ok c2? =>
            rw [ok_bind, ok_bind]
            cases c2? with
            | none => rfl
            | some c2 =>
              exact insert_trimmed hg hh hCallee hCaller (h1 c1 hCell) (h2 image c2 hPlace hImage)

/- The cells of a call are left, as its graphs tell them. -/
theorem ofCall_trimmed
    (hg : callee.WellFormed)
    (hh : caller.WellFormed)
    (hCallee : callee.Trimmed callee')
    (hCaller : caller.Trimmed caller')
    (cs : CallSite)
    (f : FunctionDef) :
    ofCall cs f callee' caller' = ofCall cs f callee caller := by
  have hRoot : ∀ r c, callee.rootCell? r = .ok (some c) → callee'.Has c := by
    intro r c hCell
    rw [hCallee.roots] at hCell
    exact hCallee.wellFormed.root_has r c (Except.ok.inj hCell)
  have hGlobal : ∀ r c, caller.rootCell? r = .ok (some c) → caller'.Has c := by
    intro r c hCell
    rw [hCaller.roots] at hCell
    exact hCaller.wellFormed.root_has r c (Except.ok.inj hCell)
  have hValue : ∀ v c, caller.cell? v = .ok (some c) → caller'.Has c := by
    intro v c hCell
    rw [← hCaller.cell?_eq] at hCell
    exact (hCaller.wellFormed.yields_cell? v).of_eq_ok hCell c
      rfl
  have hPairs : rootPairs cs f callee' caller' = rootPairs cs f callee caller := by
    have hCells : caller'.cell? = caller.cell? :=
      funext hCaller.cell?_eq
    unfold rootPairs
    simp only [hCallee.globalNames_eq, hCallee.rootCell?_eq, hCaller.rootCell?_eq, hCells]
  unfold ofCall addCall
  rw [hPairs]
  refine Checked.foldlM_congr ?_ _
  intro s pair hMem
  unfold rootPairs at hMem
  simp only [List.mem_append, List.mem_map, List.mem_singleton] at hMem
  rcases hMem with (⟨v, _, rfl⟩ | rfl) | ⟨bound, _, rfl⟩
  · refine addPair_trimmed hg hh hCallee hCaller (hRoot _) ?_
    rintro image c ⟨⟩ hCell
    exact hGlobal _ c hCell
  · refine addPair_trimmed hg hh hCallee hCaller (hRoot _) ?_
    intro image c hImage hCell
    rcases Option.map_eq_some_iff.mp hImage with ⟨v, _, rfl⟩
    exact hValue v c hCell
  · refine addPair_trimmed hg hh hCallee hCaller (hRoot _) ?_
    rintro image c ⟨⟩ hCell
    exact hValue _ c hCell

end Simulation

end HeapShape
