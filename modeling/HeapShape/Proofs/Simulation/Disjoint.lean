import HeapShape.Proofs.Graph.Compressed
import HeapShape.Proofs.Simulation.Injective

/-
  Injective means disjoint.

  The test for injectivity goes through the pairs of images in one caller
  node. Together these are all pairs of callee nodes that a caller node
  holds, each in one of its two orders. So the test says whether any two of
  them share a byte, and if none do, then no two cells of different nodes
  have one address in the caller. The ends of the images are sums, and where
  one of them is no word the test has no answer.

  Main declarations:
    * `Simulation.Counted`
    * `Simulation.fits_of_inserts`
    * `injectivity_means_disjoint_images`
    * `no_verdict_on_farImage`
-/

-- Pairs Of A List

namespace HeapShape

open Checked

namespace Simulation

variable {α β : Type} {l : List α}

theorem pairs_map
    (f : α → β)
    (l : List α) :
    pairs (l.map f) = (pairs l).map fun p => (f p.1, f p.2) := by
  induction l with
  | nil => rfl
  | cons a rest ih => simp [pairs, ih]

theorem pairwise_iff_pairs
    {R : α → α → Prop} :
    l.Pairwise R ↔ ∀ p ∈ pairs l, R p.1 p.2 := by
  induction l with
  | nil => simp [pairs]
  | cons a rest ih =>
    simp only [pairs, List.pairwise_cons, List.forall_mem_append, List.forall_mem_map, ih]

/- The members of a pair are members of the list. -/
theorem mem_of_mem_pairs
    {p : α × α}
    (hMem : p ∈ pairs l) :
    p.1 ∈ l ∧ p.2 ∈ l := by
  have hAll : l.Pairwise fun a b => a ∈ l ∧ b ∈ l :=
    List.pairwise_of_forall_mem_list fun a ha b hb => ⟨ha, hb⟩
  exact pairwise_iff_pairs.mp hAll p hMem

variable {a : α}

/- Two members make a pair, in one order or the other. -/
theorem mem_pairs_or
    {b : α}
    (ha : a ∈ l)
    (hb : b ∈ l)
    (hne : a ≠ b) :
    (a, b) ∈ pairs l ∨ (b, a) ∈ pairs l := by
  induction l with
  | nil => cases ha
  | cons c rest ih =>
    simp only [pairs, List.mem_append, List.mem_map, Prod.mk.injEq]
    rcases List.mem_cons.mp ha with rfl | ha'
    · rcases List.mem_cons.mp hb with rfl | hb'
      · exact absurd rfl hne
      · exact Or.inl (Or.inl ⟨b, hb', rfl, rfl⟩)
    · rcases List.mem_cons.mp hb with rfl | hb'
      · exact Or.inr (Or.inl ⟨a, ha', rfl, rfl⟩)
      · exact (ih ha' hb').imp Or.inr Or.inr

/- A member of a list that has another is in some pair. -/
theorem exists_pair_of_mem
    (ha : a ∈ l)
    (hTwo : 1 < l.length) :
    ∃ p ∈ pairs l, p.1 = a ∨ p.2 = a := by
  rcases l with _ | ⟨b, _ | ⟨c, rest⟩⟩
  · cases ha
  · exact absurd hTwo (Nat.lt_irrefl 1)
  · simp only [pairs, List.map_cons, List.cons_append]
    rcases List.mem_cons.mp ha with rfl | ha
    · exact ⟨_, List.mem_cons_self, Or.inl rfl⟩
    · rcases List.mem_cons.mp ha with rfl | ha
      · exact ⟨_, List.mem_cons_self, Or.inr rfl⟩
      · refine ⟨(b, a), ?_, Or.inr rfl⟩
        simp [ha]

/- Some pair passes, one fails, or none passes. -/
theorem nonePass_cases
    {test : α → Checked Bool} :
    (nonePass test l = .ok true ↔ ∀ a ∈ l, test a = .ok false) ∧
    (nonePass test l = .ok false → ∃ a ∈ l, test a = .ok true) ∧
    ∀ fault, nonePass test l = .error fault → ∃ a ∈ l, test a = .error fault := by
  induction l with
  | nil =>
    rw [nonePass]
    refine ⟨by simp, fun h => ?_, fun _ h => ?_⟩
    · cases h
    · cases h
  | cons a rest ih =>
    rw [nonePass, List.forall_mem_cons]
    simp only [List.exists_mem_cons_iff]
    cases hTest : test a with
    | error e =>
      refine ⟨⟨fun h => ?_, fun h => ?_⟩, fun h => ?_, fun fault h => ?_⟩
      · cases h
      · cases h.1
      · cases h
      · cases h
        exact Or.inl rfl
    | ok passes =>
      rw [ok_bind]
      cases passes with
      | true =>
        refine ⟨⟨fun h => ?_, fun h => ?_⟩, fun _ => Or.inl rfl, fun _ h => ?_⟩
        · cases h
        · cases h.1
        · cases h
      | false =>
        rcases ih with ⟨hTrue, hFalse, hError⟩
        refine ⟨?_, fun h => Or.inr (hFalse h), fun fault h => Or.inr (hError fault h)⟩
        rw [and_iff_right rfl]
        exact hTrue

end Simulation

-- Images In One Caller Node

/- The first byte behind an image. -/
def NodeImage.stop
    (img : NodeImage) : Nat :=
  img.base + max img.calleeSize 1

namespace Simulation

/- The pairs of images that the test goes through. -/
def countedPairs
    (s : Simulation)
    (only : Bool) : List (NodeImage × NodeImage) :=
  (((s.groups only).map pairs).flatten).filter fun p =>
    !only || p.1.calleeModified || p.2.calleeModified

variable {s : Simulation} {only : Bool} {a b : NodeId} {x y : NodeImage}

theorem isInjective_eq :
    s.isInjective only = nonePass (fun p => overlap p.1 p.2) (s.countedPairs only) :=
  rfl

/- The images in one caller node with their callee nodes. -/
theorem imagesIn_eq
    (node : NodeId) :
    s.imagesIn node = (s.images.entries.filter fun e => e.2.node == node).map Prod.snd := by
  unfold imagesIn OrdMap.values
  rw [List.filter_map]
  rfl

variable {p : NodeImage × NodeImage}

/- A pair belongs to different callee nodes. -/
theorem of_mem_countedPairs
    (hMem : p ∈ s.countedPairs only) :
    ∃ a b, a ≠ b ∧ s.image? a = some p.1 ∧ s.image? b = some p.2 ∧ p.1.node = p.2.node ∧
      (only = true → p.1.calleeModified = true ∨ p.2.calleeModified = true) := by
  rcases List.mem_filter.mp hMem with ⟨hMem, hTest⟩
  rcases List.mem_flatten.mp hMem with ⟨_, hGroup, hMem⟩
  rcases List.mem_map.mp hGroup with ⟨members, hIn, rfl⟩
  rcases List.mem_map.mp (List.mem_filter.mp hIn).1 with ⟨node, _, rfl⟩
  rw [imagesIn_eq, pairs_map] at hMem
  rcases List.mem_map.mp hMem with ⟨e, he, rfl⟩
  rcases mem_of_mem_pairs he with ⟨hLeft, hRight⟩
  rcases List.mem_filter.mp hLeft with ⟨hLeft, hNode⟩
  rcases List.mem_filter.mp hRight with ⟨hRight, hNode'⟩
  have hKeys := (List.pairwise_map.mp s.images.increasing).filter fun e => e.2.node == node
  refine ⟨e.1.1, e.2.1, ?_, (OrdMap.get?_eq_some_iff _ _ _).mpr hLeft,
    (OrdMap.get?_eq_some_iff _ _ _).mpr hRight,
    (eq_of_beq hNode).trans (eq_of_beq hNode').symm, ?_⟩
  · intro hSame
    have hLt := pairwise_iff_pairs.mp hKeys e he
    rw [hSame, Std.ReflOrd.compare_self] at hLt
    cases hLt
  · rintro rfl
    simpa using hTest

/- Two callee nodes in one caller node are gone through. -/
theorem mem_countedPairs
    (hne : a ≠ b)
    (ha : s.image? a = some x)
    (hb : s.image? b = some y)
    (hNode : x.node = y.node)
    (hModified : only = true → x.calleeModified = true ∨ y.calleeModified = true) :
    (x, y) ∈ s.countedPairs only ∨ (y, x) ∈ s.countedPairs only := by
  have ha' := (OrdMap.get?_eq_some_iff _ _ _).mp ha
  have hb' := (OrdMap.get?_eq_some_iff _ _ _).mp hb
  have hIn : ∀ e ∈ s.images.entries, e.2.node = y.node → e ∈ s.images.entries.filter fun e =>
        e.2.node == y.node := by
    intro e he hSame
    exact List.mem_filter.mpr ⟨he, beq_iff_eq.mpr hSame⟩
  have hMembers : x ∈ s.imagesIn y.node ∧ y ∈ s.imagesIn y.node := by
    rw [imagesIn_eq]
    exact ⟨List.mem_map.mpr ⟨_, hIn _ ha' hNode, rfl⟩, List.mem_map.mpr ⟨_, hIn _ hb' rfl, rfl⟩⟩
  have hGroup : s.imagesIn y.node ∈ s.groups only := by
    refine List.mem_filter.mpr ⟨List.mem_map.mpr ⟨y.node, ?_, rfl⟩, ?_⟩
    · rw [imageNodes, OrdSet.mem_toList_iff, OrdSet.mem_ofList_iff]
      exact List.mem_map.mpr ⟨y, List.mem_map.mpr ⟨_, hb', rfl⟩, rfl⟩
    · cases only with
      | false => rfl
      | true =>
        rw [Bool.not_true, Bool.false_or, List.any_eq_true]
        rcases hModified rfl with hx | hy
        · exact ⟨x, hMembers.1, hx⟩
        · exact ⟨y, hMembers.2, hy⟩
  have hFlat : ∀ p ∈ pairs (s.imagesIn y.node),
      (only = true → p.1.calleeModified = true ∨ p.2.calleeModified = true) →
      p ∈ s.countedPairs only := by
    intro p hp hTest
    refine List.mem_filter.mpr ⟨List.mem_flatten.mpr ⟨_, List.mem_map.mpr ⟨_, hGroup, rfl⟩, hp⟩, ?_⟩
    cases only with
    | false => rfl
    | true => simpa using hTest rfl
  have hPair := mem_pairs_or (hIn _ ha' hNode) (hIn _ hb' rfl)
    (fun hSame => hne (congrArg Prod.fst hSame))
  rw [imagesIn_eq, pairs_map] at hFlat
  refine hPair.imp (fun hp => ?_) fun hp => ?_
  · exact hFlat _ (List.mem_map.mpr ⟨_, hp, rfl⟩) hModified
  · exact hFlat _ (List.mem_map.mpr ⟨_, hp, rfl⟩) fun hOnly => (hModified hOnly).symm

/- A caller node holds two of them if there is a pair. -/
theorem isOneToMany_iff :
    s.isOneToMany only = true ↔ ∃ p, p ∈ s.countedPairs only := by
  unfold isOneToMany countedPairs
  rw [List.any_eq_true]
  constructor
  · rintro ⟨members, hGroup, hTwo⟩
    have hTwo := of_decide_eq_true hTwo
    -- With `only` the pair is made with a modified member.
    have hPair : ∃ p ∈ pairs members, (!only || p.1.calleeModified || p.2.calleeModified) =
          true := by
      cases only with
      | false =>
        rcases members with _ | ⟨x, rest⟩
        · cases hTwo
        · rcases exists_pair_of_mem List.mem_cons_self hTwo with ⟨p, hp, _⟩
          exact ⟨p, hp, rfl⟩
      | true =>
        have hAny := (List.mem_filter.mp hGroup).2
        rw [Bool.not_true, Bool.false_or, List.any_eq_true] at hAny
        rcases hAny with ⟨x, hx, hModified⟩
        rcases exists_pair_of_mem hx hTwo with ⟨p, hp, rfl | rfl⟩
        · exact ⟨p, hp, by simp [hModified]⟩
        · exact ⟨p, hp, by simp [hModified]⟩
    rcases hPair with ⟨p, hp, hTest⟩
    exact ⟨p, List.mem_filter.mpr ⟨List.mem_flatten.mpr
      ⟨_, List.mem_map.mpr ⟨members, hGroup, rfl⟩, hp⟩,
      hTest⟩⟩
  · rintro ⟨p, hp⟩
    rcases List.mem_flatten.mp (List.mem_filter.mp hp).1 with ⟨_, hGroup, hp⟩
    rcases List.mem_map.mp hGroup with ⟨members, hIn, rfl⟩
    refine ⟨members, hIn, decide_eq_true ?_⟩
    by_contra hFew
    rw [pairs_eq_nil (Nat.not_lt.mp hFew)] at hp
    cases hp

/- What the comparison of two images says. -/
theorem overlap_eq
    (x y : NodeImage) :
    overlap x y =
      if x.overlapsAll = true then .ok true
      else if x.stop < wordBound ∧ y.stop < wordBound then
        .ok (decide (x.base < y.stop ∧ y.base < x.stop))
      else .error .addOverflow := by
  unfold overlap NodeImage.stop addWord
  split
  · rfl
  · by_cases hx : x.base + max x.calleeSize 1 < wordBound
    · by_cases hy : y.base + max y.calleeSize 1 < wordBound
      · simp only [hx, hy, if_true, ok_bind, and_self, Bool.decide_and]
        rfl
      · simp only [hx, hy, if_true, if_false, ok_bind, and_false]
        rfl
    · simp only [hx, if_false, false_and]
      rfl

-- Images Of Inserted Cells

/- The simulation that inserts fill, one after another. -/
def insertAll
    (callee caller : Graph)
    (cells : List (Cell × Cell)) : Checked Simulation :=
  cells.foldlM
    (fun s p => insert callee caller s p.1 p.2) {}

/- The images tell of their nodes what these are. -/
def Fits
    (s : Simulation)
    (callee caller : Graph) : Prop :=
  ∀ node img, s.image? node = some img →
    ∃ n l, callee.slot node = .live n ∧
      caller.slot img.node = .live l ∧
      img = NodeImage.of n l img.node img.base

variable {callee caller : Graph} {s' : Simulation}

theorem fits_of_align
    {c1 c2 : Cell}
    {node : NodeId}
    {img : NodeImage}
    (hRun : align callee caller c1 c2 = .ok (some (node, img))) :
    ∃ n l, callee.slot node = .live n ∧ caller.slot img.node = .live l ∧
      img = NodeImage.of n l img.node img.base := by
  unfold align at hRun
  rcases of_bind hRun with ⟨d1, hResolve1, hRun⟩
  rcases of_bind hRun with ⟨d2, hResolve2, hRun⟩
  rcases (Graph.leads_of_resolve hResolve1).choose_spec.1
    |>.live_end with ⟨n1, hLive1⟩
  rcases (Graph.leads_of_resolve hResolve2).choose_spec.1
    |>.live_end with ⟨n2, hLive2⟩
  rw [Graph.contents_of_live hLive1, Graph.contents_of_live hLive2, ok_bind, ok_bind] at hRun
  split at hRun
  · cases hRun
  · rcases of_bind hRun with ⟨base?, _, hRun⟩
    cases base? with
    | none => cases hRun
    | some base =>
      cases hRun
      exact ⟨n1, n2, hLive1, hLive2, rfl⟩

theorem fits_of_insertWithin
    {fuel : Nat}
    {work : List (Cell × Cell)}
    (hFits : s.Fits callee caller)
    (hRun : insertWithin callee caller fuel work s = .ok s') :
    s'.Fits callee caller := by
  induction fuel generalizing work s with
  | zero =>
    cases work with
    | nil =>
      cases hRun
      exact hFits
    | cons p work => cases hRun
  | succ fuel ih =>
    rcases work with _ | ⟨⟨c1, c2⟩, work⟩
    · cases hRun
      exact hFits
    · unfold insertWithin at hRun
      rcases of_bind hRun with ⟨_ | ⟨id, img⟩, hAlign, hRun⟩
      · cases hRun
        exact hFits
      · dsimp only at hRun
        cases hOld : s.image? id with
        | some old =>
          rw [hOld] at hRun
          dsimp only at hRun
          split at hRun
          · exact ih hFits hRun
          · cases hRun
            exact hFits
        | none =>
          rw [hOld] at hRun
          have hNew :
              (s.record id img).Fits callee caller := by
            intro node img' hImage
            rw [image?_record] at hImage
            split at hImage
            · next hSame =>
              cases hImage
              rw [hSame]
              exact fits_of_align hAlign
            · exact hFits node img' hImage
          dsimp only at hRun
          rcases of_bind hRun with ⟨n, _, hRun⟩
          rcases of_bind hRun with ⟨_ | work', _, hRun⟩
          · cases hRun
            exact hNew
          · exact ih hNew hRun

/- What inserts note of the images is so. -/
theorem fits_of_inserts
    {cells : List (Cell × Cell)}
    (hRun : insertAll callee caller cells = .ok s) :
    s.Fits callee caller := by
  refine foldlM_induction (P := fun s => s.Fits callee caller) ?_ ?_ hRun
  · intro s p _ s' hFits hStep
    unfold insert at hStep
    split at hStep
    · cases hStep
      exact hFits
    · exact fits_of_insertWithin hFits hStep
  · intro node img hImage
    cases hImage

-- Disjoint Images

/-
  Two callee nodes and the cells on which they start. If asked for, one of
  the two is modified.
-/
structure Counted
    (s : Simulation)
    (callee : Graph)
    (only : Bool)
    (a b : NodeId)
    (n m : Node)
    (x y : Cell) : Prop where
  distinct : a ≠ b
  left : callee.slot a = .live n
  right : callee.slot b = .live m
  modified : only = true →
    n.isModified = true ∨ m.isModified = true
  leftPlace : s.places a = some x
  rightPlace : s.places b = some y

/- Nodes that start on two cells share a byte there. -/
def Meets
    (caller : Graph)
    (n m : Node)
    (x y : Cell) : Prop :=
  x.node = y.node ∧ ∃ l, caller.slot x.node = .live l ∧
    (l.isCollapsed = true ∨ l.isArray = true ∨
      (x.offset < y.offset + max m.size 1 ∧
        y.offset < x.offset + max n.size 1))

variable {n m : Node} {x y : Cell}

/- A placed node has an image that tells its size. -/
theorem Fits.exists_image?
    (hFits : s.Fits callee caller)
    (hLive : callee.slot a = .live n)
    (hPlace : s.places a = some x) :
    ∃ l, caller.slot x.node = .live l ∧
      s.image? a = some (NodeImage.of n l x.node x.offset) := by
  rcases Option.map_eq_some_iff.mp hPlace with ⟨img, hImage, rfl⟩
  rcases hFits a img hImage with ⟨n', l, hSlot, hCaller, hImg⟩
  rw [hLive] at hSlot
  cases hSlot
  exact ⟨l, hCaller, hImage.trans (congrArg some hImg)⟩

/- The comparison of the images of two nodes in one. -/
theorem overlap_images
    {l : Node}
    (hSlot : caller.slot x.node = .live l)
    (hNode : x.node = y.node) :
    (∀ verdict, overlap (NodeImage.of n l x.node x.offset)
        (NodeImage.of m l y.node y.offset) = .ok verdict →
      (verdict = true ↔ Meets caller n m x y)) ∧
    ∀ fault, overlap (NodeImage.of n l x.node x.offset)
        (NodeImage.of m l y.node y.offset) = .error fault →
      fault = .addOverflow ∧ (wordBound ≤ x.offset + max n.size 1 ∨
          wordBound ≤ y.offset + max m.size 1) := by
  have hMeets : Meets caller n m x y ↔ (l.isCollapsed || l.isArray) = true ∨
        (x.offset < y.offset + max m.size 1 ∧ y.offset < x.offset + max n.size 1) := by
    unfold Meets
    rw [Bool.or_eq_true, or_assoc]
    constructor
    · rintro ⟨_, l', hSlot', hAll⟩
      rw [hSlot] at hSlot'
      cases hSlot'
      exact hAll
    · exact fun hAll => ⟨hNode, l, hSlot, hAll⟩
  rw [overlap_eq, hMeets]
  change (∀ verdict, (if (l.isCollapsed || l.isArray) = true
    then _ else _) = _ → _) ∧ ∀ fault,
    (if (l.isCollapsed || l.isArray) = true then _ else _) = _ → _
  by_cases hAll : (l.isCollapsed || l.isArray) = true
  · simp only [if_pos hAll]
    refine ⟨fun verdict hOk => ?_, fun fault hError => ?_⟩
    · cases hOk
      exact ⟨fun _ => Or.inl hAll, fun _ => rfl⟩
    · cases hError
  · simp only [if_neg hAll]
    split
    · refine ⟨fun verdict hOk => ?_, fun fault hError => ?_⟩
      · cases hOk
        rw [decide_eq_true_eq, or_iff_right hAll]
        rfl
      · cases hError
    · next hFar =>
      refine ⟨fun verdict hOk => ?_, fun fault hError => ?_⟩
      · cases hOk
      · cases hError
        refine ⟨rfl, ?_⟩
        by_contra hNear
        rw [not_or, Nat.not_le, Nat.not_le] at hNear
        exact hFar hNear

theorem Counted.symm
    (hPair : s.Counted callee only a b n m x y) :
    s.Counted callee only b a m n y x :=
  ⟨hPair.distinct.symm, hPair.right, hPair.left, fun hOnly => (hPair.modified hOnly).symm,
    hPair.rightPlace, hPair.leftPlace⟩

theorem Meets.symm
    (hMeets : Meets caller n m x y) :
    Meets caller m n y x := by
  rcases hMeets with ⟨hNode, l, hSlot, hShare⟩
  exact ⟨hNode.symm, l, hNode ▸ hSlot, hShare.imp_right (Or.imp_right And.symm)⟩

/- Two images gone through are those of counted nodes. -/
theorem Fits.exists_counted
    (hFits : s.Fits callee caller)
    (hMem : p ∈ s.countedPairs only) :
    ∃ a b n m x y l, s.Counted callee only a b n m x y ∧
      x.node = y.node ∧ caller.slot x.node = .live l ∧
      p = (NodeImage.of n l x.node x.offset, NodeImage.of m l y.node y.offset) := by
  rcases p with ⟨i, j⟩
  rcases of_mem_countedPairs hMem with ⟨a, b, hne, hLeft, hRight, hNode, hModified⟩
  rcases hFits a i hLeft with ⟨n, l, hn, hSlot, hi⟩
  rcases hFits b j hRight with ⟨m, l', hm, hSlot', hj⟩
  rw [← hNode, hSlot] at hSlot'
  cases hSlot'
  have hPair : s.Counted callee only a b n m { node := i.node, offset := i.base }
      { node := j.node, offset := j.base } := by
    refine ⟨hne, hn, hm, fun hOnly => ?_, places_of_image? hLeft, places_of_image? hRight⟩
    have hOne := hModified hOnly
    rw [hi, hj] at hOne
    exact hOne
  exact ⟨a, b, n, m, _, _, l, hPair, hNode, hSlot, Prod.ext hi hj⟩

/- Counted nodes in one caller node are gone through. -/
theorem Fits.exists_pair
    (hFits : s.Fits callee caller)
    (hPair : s.Counted callee only a b n m x y)
    (hNode : x.node = y.node) :
    ∃ l, caller.slot x.node = .live l ∧ ((NodeImage.of n l x.node x.offset,
        NodeImage.of m l y.node y.offset) ∈ s.countedPairs only ∨
      (NodeImage.of m l y.node y.offset, NodeImage.of n l x.node x.offset) ∈
          s.countedPairs only) := by
  rcases hFits.exists_image? hPair.left hPair.leftPlace with ⟨l, hSlot, hLeft⟩
  rcases hFits.exists_image? hPair.right hPair.rightPlace with ⟨l', hSlot', hRight⟩
  rw [← hNode, hSlot] at hSlot'
  cases hSlot'
  exact ⟨l, hSlot, mem_countedPairs hPair.distinct hLeft hRight hNode hPair.modified⟩

/- The comparison of two counted nodes found them apart. -/
theorem Fits.apart_of_injective
    (hFits : s.Fits callee caller)
    (hInjective : s.isInjective only = .ok true)
    (hPair : s.Counted callee only a b n m x y)
    (hNode : x.node = y.node) :
    ¬ Meets caller n m x y ∧ x.offset + max n.size 1 < wordBound ∧
      y.offset + max m.size 1 < wordBound := by
  rcases hFits.exists_pair hPair hNode with ⟨l, hSlot, hMem⟩
  rw [isInjective_eq] at hInjective
  have hNone := nonePass_cases.1.mp hInjective
  have hBounds : ∀ i j : NodeImage, overlap i j = .ok false →
      i.stop < wordBound ∧ j.stop < wordBound := by
    intro i j hApart
    rw [overlap_eq] at hApart
    split at hApart
    · cases hApart
    · split at hApart
      · next hNear => exact hNear
      · cases hApart
  rcases hMem with hMem | hMem
  · have hApart := hNone _ hMem
    refine ⟨fun hMeets => ?_, hBounds _ _ hApart⟩
    cases ((overlap_images hSlot hNode).1 _ hApart).mpr hMeets
  · have hApart := hNone _ hMem
    refine ⟨fun hMeets => ?_, (hBounds _ _ hApart).symm⟩
    cases ((overlap_images (hNode ▸ hSlot) hNode.symm).1 _ hApart).mpr hMeets.symm

/- The image of a cell of a placed node. -/
theorem get?_of_places
    (hPlace : s.places a = some x)
    {o : Nat}
    (hWord : x.offset + o < wordBound) :
    s.get? ⟨a, o⟩ = .ok (some ⟨x.node, x.offset + o⟩) := by
  rcases Option.map_eq_some_iff.mp hPlace with ⟨img, hImage, rfl⟩
  have hSum : addWord img.base o = .ok (img.base + o) := if_pos hWord
  unfold get?
  rw [option_mapM_eq_some_iff]
  refine ⟨img, hImage, ?_⟩
  rw [hSum]
  rfl

end Simulation

open Simulation in
/-
  The test for injectivity says whether two of the nodes it counts share a
  byte of the caller, and has no answer only if one of them ends beyond the
  words there. If none share a byte, their cells have different addresses.
  Two of them are in one caller node if the map is one to many.
-/
theorem injectivity_means_disjoint_images
    {callee caller : Graph}
    {cells : List (Cell × Cell)}
    {s : Simulation}
    (hRun : insertAll callee caller cells = .ok s)
    (only : Bool) :
    (∀ verdict, s.isInjective only = .ok verdict →
      (verdict = true ↔ ∀ a b n m x y,
        s.Counted callee only a b n m x y →
          ¬ Meets caller n m x y)) ∧
    (∀ fault, s.isInjective only = .error fault →
      fault = .addOverflow ∧ ∃ a b n m x y,
        s.Counted callee only a b n m x y ∧
        x.node = y.node ∧
        wordBound ≤ x.offset + max n.size 1) ∧
    (s.isInjective only = .ok true →
      ∀ a b n m x y, s.Counted callee only a b n m x y →
      ∀ o o', o < max n.size 1 → o' < max m.size 1 →
      (x.node = y.node ∨ x.offset + o < wordBound ∧
        y.offset + o' < wordBound) →
      ∃ c d e e', s.get? ⟨a, o⟩ = .ok (some c) ∧
        s.get? ⟨b, o'⟩ = .ok (some d) ∧
        caller.effective c = .ok e ∧
        caller.effective d = .ok e' ∧ e ≠ e') ∧
    (s.isOneToMany only = true ↔ ∃ a b n m x y,
      s.Counted callee only a b n m x y ∧
      x.node = y.node) := by
  have hFits := fits_of_inserts hRun
  refine ⟨?_, ?_, ?_, ?_⟩
  · intro verdict hVerdict
    cases verdict with
    | true =>
        refine ⟨fun _ a b n m x y hPair hMeets => ?_,
          fun _ => rfl⟩
        exact (hFits.apart_of_injective hVerdict hPair
          hMeets.1).1 hMeets
    | false =>
        refine ⟨fun hTrue => ?_, fun hNone => ?_⟩
        · cases hTrue
        · rw [isInjective_eq] at hVerdict
          rcases nonePass_cases.2.1 hVerdict with
            ⟨p, hMem, hOverlap⟩
          rcases hFits.exists_counted hMem with
            ⟨a, b, n, m, x, y, l, hPair, hNode, hSlot, rfl⟩
          exact absurd (((overlap_images hSlot hNode).1 _
            hOverlap).mp rfl) (hNone a b n m x y hPair)
  · intro fault hFault
    rw [isInjective_eq] at hFault
    rcases nonePass_cases.2.2 fault hFault with
      ⟨p, hMem, hOverlap⟩
    rcases hFits.exists_counted hMem with
      ⟨a, b, n, m, x, y, l, hPair, hNode, hSlot, rfl⟩
    rcases (overlap_images hSlot hNode).2 fault hOverlap with
      ⟨hOver, hFar | hFar⟩
    · exact ⟨hOver, a, b, n, m, x, y, hPair, hNode, hFar⟩
    · exact ⟨hOver, b, a, m, n, y, x, hPair.symm, hNode.symm,
        hFar⟩
  · intro hInjective a b n m x y hPair o o' ho ho' hWords
    rcases hFits.exists_image? hPair.left hPair.leftPlace with
      ⟨l, hSlot, _⟩
    rcases hFits.exists_image? hPair.right hPair.rightPlace
      with ⟨l', hSlot', _⟩
    have hBoth : x.offset + o < wordBound ∧
        y.offset + o' < wordBound := by
      rcases hWords with hNode | hWords
      · have hApart :=
          hFits.apart_of_injective hInjective hPair hNode
        omega
      · exact hWords
    refine ⟨_, _, _, _,
      get?_of_places hPair.leftPlace hBoth.1,
      get?_of_places hPair.rightPlace hBoth.2,
      Graph.effective_of_resolve (Graph.resolve_of_live hSlot)
        hSlot,
      Graph.effective_of_resolve
        (Graph.resolve_of_live hSlot') hSlot', ?_⟩
    -- In one plain node the two offsets would be one byte.
    intro hSame
    injection hSame with hNode hOffset
    have hApart :=
      (hFits.apart_of_injective hInjective hPair hNode).1
    rw [← hNode, hSlot] at hSlot'
    cases hSlot'
    have hPlain : l.isPlain = true := by
      by_contra hOther
      rw [Bool.not_eq_true, Node.isPlain_eq_false_iff]
        at hOther
      refine hApart ⟨hNode, l, hSlot, ?_⟩
      exact hOther.imp_right Or.inl
    rw [Node.effectiveOffset_of_plain hPlain,
      Node.effectiveOffset_of_plain hPlain] at hOffset
    dsimp only at hOffset
    refine hApart ⟨hNode, l, hSlot, Or.inr (Or.inr ?_)⟩
    omega
  · rw [isOneToMany_iff]
    constructor
    · rintro ⟨p, hMem⟩
      rcases hFits.exists_counted hMem with
        ⟨a, b, n, m, x, y, _, hPair, hNode, _, _⟩
      exact ⟨a, b, n, m, x, y, hPair, hNode⟩
    · rintro ⟨a, b, n, m, x, y, hPair, hNode⟩
      rcases hFits.exists_pair hPair hNode with
        ⟨l, _, hMem | hMem⟩
      · exact ⟨_, hMem⟩
      · exact ⟨_, hMem⟩

/- A modified node with a link to one of no size. -/
def neighbours : List Update :=
  [.createNode (Flags.only .modified) 8,
    .createNode Flags.empty 0,
    .merge (.addLink ⟨0, 0⟩ none ⟨1, 0⟩)]

/- A node with a link into itself, eight bytes on. -/
def oneHolder : List Update :=
  [.createNode Flags.empty 24,
    .merge (.addLink ⟨0, 4⟩ none ⟨0, 12⟩)]

open Simulation in
/- Both lie in the one node, and no byte of theirs is one. -/
theorem injectivity_means_disjoint_images_of_neighbours :
    ∃ callee caller s,
      insertAll callee caller [(⟨0, 0⟩, ⟨0, 4⟩)] = .ok s ∧
      s.isInjective true = .ok true ∧
      s.isOneToMany true = true ∧
      ∀ o, o < 8 → ∃ c d e e',
        s.get? ⟨0, o⟩ = .ok (some c) ∧
        s.get? ⟨1, 0⟩ = .ok (some d) ∧
        caller.effective c = .ok e ∧
        caller.effective d = .ok e' ∧ e ≠ e' := by
  rcases Update.exists_runs {} neighbours oneHolder
      (P := fun g h =>
        (insertAll g h [(⟨0, 0⟩, ⟨0, 4⟩)]).map
          (fun s => (s.isInjective true, s.image? 0,
            s.image? 1)) =
          .ok (.ok true, some ⟨0, 4, 8, true, false⟩,
            some ⟨0, 12, 0, false, false⟩))
      (by decide) (by decide +kernel) with
    ⟨callee, caller, _, _, _, _, hEval⟩
  rcases Checked.map_eq_ok_iff.mp hEval with ⟨s, hRun, hSees⟩
  simp only [Prod.mk.injEq] at hSees
  rcases hSees with ⟨hInjective, hImage, hImage'⟩
  have hFits := fits_of_inserts hRun
  rcases hFits 0 _ hImage with ⟨n, _, hn, _, hSize⟩
  rcases hFits 1 _ hImage' with ⟨m, _, hm, _, _⟩
  injection hSize with _ _ hSize hModified _
  have hPair : s.Counted callee true 0 1 n m ⟨0, 4⟩ ⟨0, 12⟩ :=
    ⟨by decide, hn, hm, fun _ => Or.inl hModified.symm,
      places_of_image? hImage, places_of_image? hImage'⟩
  rcases injectivity_means_disjoint_images hRun true with
    ⟨_, _, hApart, hMany⟩
  refine ⟨callee, caller, s, hRun, hInjective,
    hMany.mpr ⟨_, _, _, _, _, _, hPair, rfl⟩, fun o ho => ?_⟩
  exact hApart hInjective _ _ _ _ _ _ hPair o 0 (by omega)
    (by omega) (Or.inl rfl)

/- Two nodes of eight bytes. -/
def twoNodes : List Update :=
  [.createNode Flags.empty 8, .createNode Flags.empty 8]

/- A node that they can be laid on. -/
def oneNode : List Update :=
  [.createNode Flags.empty 8]

open Simulation in
/-
  One node ends beyond the words. It shares no byte with the other, but the
  test has no answer.
-/
theorem no_verdict_on_farImage :
    ∃ callee caller s,
      Update.runAll {} twoNodes = .ok callee ∧
      Update.runAll {} oneNode = .ok caller ∧
      insertAll callee caller
        [(⟨0, 0⟩, ⟨0, 4294967295⟩), (⟨1, 0⟩, ⟨0, 0⟩)] =
          .ok s ∧
      s.isFunction = true ∧
      (∀ a b n m x y, s.Counted callee false a b n m x y →
        ¬ Meets caller n m x y) ∧
      s.isInjective false = .error .addOverflow := by
  rcases Update.exists_runs {} twoNodes oneNode
      (P := fun g h =>
        (insertAll g h
          [(⟨0, 0⟩, ⟨0, 4294967295⟩), (⟨1, 0⟩, ⟨0, 0⟩)]).map
          (fun s => (s.isFunction, s.images.entries)) =
        .ok (true, [(0, ⟨0, 4294967295, 8, false, false⟩),
          (1, ⟨0, 0, 8, false, false⟩)]) ∧
        (insertAll g h
          [(⟨0, 0⟩, ⟨0, 4294967295⟩), (⟨1, 0⟩, ⟨0, 0⟩)] >>=
          fun s => s.isInjective false) =
            .error .addOverflow)
      (by decide) (by decide +kernel) with
    ⟨callee, caller, hBuild, hBuild', _, _, hEval, hFails⟩
  rcases Checked.map_eq_ok_iff.mp hEval with ⟨s, hRun, hSees⟩
  simp only [Prod.mk.injEq] at hSees
  rw [hRun, Checked.ok_bind] at hFails
  refine ⟨callee, caller, s, hBuild, hBuild', hRun, hSees.1,
    ?_, hFails⟩
  rintro a b n m x y hPair ⟨hNode, l, hSlot, hShare⟩
  have hFits := fits_of_inserts hRun
  rcases hFits.exists_image? hPair.left hPair.leftPlace with
    ⟨l', hSlot', hLeft⟩
  rcases hFits.exists_image? hPair.right hPair.rightPlace with
    ⟨_, _, hRight⟩
  rw [hSlot] at hSlot'
  cases hSlot'
  have hLeft := (OrdMap.get?_eq_some_iff _ _ _).mp hLeft
  have hRight := (OrdMap.get?_eq_some_iff _ _ _).mp hRight
  have hne := hPair.distinct
  rw [hSees.2] at hLeft hRight
  simp only [List.mem_cons, List.not_mem_nil, or_false,
    Prod.mk.injEq, NodeImage.of, NodeImage.mk.injEq,
    Bool.or_eq_false_iff] at hLeft hRight
  grind

end HeapShape
