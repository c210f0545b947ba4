import HeapShape.Proofs.Graph.Slot
import Mathlib.Data.List.Perm.Subperm
import Mathlib.Logic.Relation

/-
  Forwarding chains.

  `Leads g id m k` says that the chain of slot `id` ends at the live slot
  `m`, and that the offsets on the way add up to `k`. Resolution and look-up
  with shortening both give the end of the chain, and shortening a chain
  moves no end.

  Main declarations:
    * `Graph.Leads`
    * `Graph.Shortened.leads`
    * `Graph.find_of_leads`
    * `Graph.find_eq_ok`
-/

-- Chains

namespace HeapShape

open Checked

namespace Graph

/- One slot forwards to another. -/
def Forwards
    (g : Graph)
    (a b : NodeId) : Prop :=
  ∃ o, g.slot a = .forward { node := b, offset := o }

/- The chain of a slot ends at a live slot, so far on. -/
inductive Leads
    (g : Graph) :
    NodeId → NodeId → Nat → Prop
| live
    {id : NodeId} {n : Node}
    (hSlot : g.slot id = .live n) :
    Leads g id id 0
| forward
    {id m : NodeId} {t : Cell} {k : Nat} (hSlot : g.slot id = .forward t)
    (hRest : Leads g t.node m k) :
    Leads g id m (t.offset + k)

variable {g : Graph} {id m : NodeId} {k : Nat}

/- A chain has one end. -/
theorem Leads.unique
    {m' : NodeId}
    {k' : Nat}
    (h : g.Leads id m k)
    (h' : g.Leads id m' k') :
    m = m' ∧ k = k' := by
  induction h generalizing m' k' with
  | live hSlot =>
    cases h' with
    | live _ => exact ⟨rfl, rfl⟩
    | forward hSlot' _ =>
      rw [hSlot] at hSlot'
      cases hSlot'
  | forward hSlot _ ih =>
    cases h' with
    | live hSlot' =>
      rw [hSlot] at hSlot'
      cases hSlot'
    | forward hSlot' hRest' =>
      rw [hSlot] at hSlot'
      cases hSlot'
      rcases ih hRest' with ⟨hm, hk⟩
      exact ⟨hm, by rw [hk]⟩

/- The end of a chain is live. -/
theorem Leads.live_end
    (h : g.Leads id m k) :
    ∃ n, g.slot m = .live n := by
  induction h with
  | live hSlot => exact ⟨_, hSlot⟩
  | forward _ _ ih => exact ih

/- The start of a chain is occupied. -/
theorem Leads.hasNode
    (h : g.Leads id m k) :
    g.hasNode id = true := by
  cases h with
  | live hSlot => exact hasNode_of_live hSlot
  | forward hSlot _ => exact hasNode_of_forward hSlot

variable {n : Node} {x : NodeId} {o : Nat}

/- A live slot is the end of its own chain. -/
theorem Leads.eq_of_live
    (h : g.Leads id m k)
    (hSlot : g.slot id = .live n) :
    m = id ∧ k = 0 :=
  h.unique (.live hSlot)

/-
  A chain depends on the forwards along it and on its end being live.
-/
theorem Leads.congr
    {h : Graph}
    (hForward : ∀ x t, g.slot x = .forward t → h.slot x = .forward t)
    (hLive : ∀ x n, g.slot x = .live n → ∃ n', h.slot x = .live n')
    (hLeads : g.Leads id m k) :
    h.Leads id m k := by
  induction hLeads with
  | live hSlot =>
    rcases hLive _ _ hSlot with ⟨_, hSlot'⟩
    exact .live hSlot'
  | forward hSlot _ ih => exact .forward (hForward _ _ hSlot) ih

/- Chains do not read the contents of live nodes. -/
theorem Leads.setLive
    (hx : g.slot x = .live n)
    (n' : Node)
    (h : g.Leads id m k) :
    (g.setSlot x (.live n')).Leads id m k := by
  have hLt : x < g.slots.size := lt_size_of_live hx
  apply h.congr
  · intro y t hy
    rw [slot_setSlot hLt]
    split
    · next hEq =>
      subst hEq
      rw [hx] at hy
      cases hy
    · exact hy
  · intro y n₁ hy
    rw [slot_setSlot hLt]
    split
    · exact ⟨n', rfl⟩
    · exact ⟨n₁, hy⟩

/-
  When a live slot comes to forward to another, the chains that ended at it
  go on to the other.
-/
theorem Leads.setForward
    {n' : Node}
    {y : NodeId}
    (hx : g.slot x = .live n)
    (hy : g.slot y = .live n')
    (hne : y ≠ x)
    (h : g.Leads id m k) :
    (g.setSlot x (.forward { node := y, offset := o })).Leads id (if m = x then y else m)
        (if m = x then k + o else k) := by
  have hLt : x < g.slots.size := lt_size_of_live hx
  have hSlot := slot_setSlot hLt (.forward { node := y, offset := o })
  induction h with
  | @live id n₁ hId =>
    by_cases hEq : id = x
    · subst hEq
      rw [if_pos rfl, if_pos rfl, Nat.zero_add]
      apply Leads.forward (t := ⟨y, o⟩) (k := 0)
      · rw [hSlot, if_pos rfl]
      · apply Leads.live (n := n')
        rw [hSlot, if_neg hne, hy]
    · rw [if_neg hEq, if_neg hEq]
      apply Leads.live (n := n₁)
      rw [hSlot, if_neg hEq, hId]
  | @forward id m t k hId _ ih =>
    have hNe : id ≠ x := by
      rintro rfl
      rw [hx] at hId
      cases hId
    have hStep : (g.setSlot x (.forward { node := y, offset := o })).slot id = .forward t := by
      rw [hSlot, if_neg hNe, hId]
    have hLeads := Leads.forward hStep ih
    split at hLeads
    · next hEq =>
      rw [if_pos hEq, if_pos hEq, Nat.add_assoc]
      exact hLeads
    · next hEq =>
      rw [if_neg hEq, if_neg hEq]
      exact hLeads

/- No slot on a chain that ends is met twice. -/
theorem Leads.acyclic
    (h : g.Leads id m k) :
    ¬ Relation.TransGen g.Forwards id id := by
  induction h with
  | live hSlot =>
    intro hLoop
    rcases Relation.TransGen.head'_iff.mp hLoop with ⟨_, ⟨_, hForward⟩, _⟩
    rw [hSlot] at hForward
    cases hForward
  | forward hSlot _ ih =>
    intro hLoop
    rcases Relation.TransGen.head'_iff.mp hLoop with ⟨_, ⟨_, hForward⟩, hBack⟩
    rw [hSlot] at hForward
    cases hForward
    apply ih
    exact Relation.TransGen.tail' hBack ⟨_, hSlot⟩

-- The Bound On Chains

/-
  A chain that ends visits pairwise different slots, so a walk bounded by
  their number does not run out. What holds at the end of a chain and passes
  from the rest of a chain to the whole holds of every chain that ends.
-/
theorem Leads.induction_within
    {P : Nat → NodeId → NodeId → Nat → Prop}
    (hLive : ∀ fuel id n, g.slot id = .live n → P (fuel + 1) id id 0)
    (hForward : ∀ fuel id t m k,
      g.slot id = .forward t → g.Leads t.node m k → P fuel t.node m k →
        P (fuel + 1) id m (t.offset + k))
    (h : g.Leads id m k) :
    P g.chainBound id m k := by
  have hPath : ∃ path : List NodeId, path.Nodup ∧
        (∀ x ∈ path, x < g.slots.size ∧ Relation.ReflTransGen g.Forwards id x) ∧
        ∀ fuel, path.length ≤ fuel → P fuel id m k := by
    induction h with
    | @live id n hSlot =>
      refine ⟨[id], by simp, ?_, ?_⟩
      · intro x hx
        rw [List.mem_singleton] at hx
        subst hx
        exact ⟨lt_size_of_live hSlot, .refl⟩
      · intro fuel hFuel
        cases fuel with
        | zero => simp at hFuel
        | succ fuel => exact hLive fuel id n hSlot
    | @forward id m t k hSlot hRest ih =>
      rcases ih with ⟨path, hNodup, hOn, hWithin⟩
      have hStep : g.Forwards id t.node := ⟨_, hSlot⟩
      have hNew : id ∉ path := by
        intro hMem
        apply (Leads.forward hSlot hRest).acyclic
        exact Relation.TransGen.head' hStep (hOn id hMem).2
      refine ⟨id :: path, List.nodup_cons.mpr ⟨hNew, hNodup⟩, ?_, ?_⟩
      · intro x hx
        rcases List.mem_cons.mp hx with rfl | hx
        · exact ⟨lt_size_of_slot_ne_free (slot_ne_free_of_forward hSlot), .refl⟩
        · exact ⟨(hOn x hx).1, .head hStep (hOn x hx).2⟩
      · intro fuel hFuel
        cases fuel with
        | zero => simp at hFuel
        | succ fuel =>
          apply hForward fuel id t m k hSlot hRest
          apply hWithin
          rw [List.length_cons] at hFuel
          omega
  rcases hPath with ⟨path, hNodup, hOn, hWithin⟩
  have hSubset : path ⊆ List.range g.slots.size := by
    intro x hx
    exact List.mem_range.mpr (hOn x hx).1
  have hLength : path.length ≤ g.slots.size := by
    have hLe := (hNodup.subperm hSubset).length_le
    rwa [List.length_range] at hLe
  apply hWithin
  unfold chainBound
  omega

/- The end of a chain, reached from an offset. -/
theorem shifted_eq
    (m : NodeId)
    (o k : Nat) :
    ({ node := m, offset := o } : Cell).shifted k =
      if o + k < wordBound then
        .ok { node := m, offset := o + k }
      else .error .addOverflow := by
  unfold Cell.shifted addWord
  dsimp only
  split <;> rfl

/- Resolution gives the end of the chain. -/
theorem resolve_of_leads
    (h : g.Leads id m k)
    (ho : o < wordBound) :
    g.resolve { node := id, offset := o } =
      ({ node := m, offset := o } : Cell).shifted k := by
  unfold resolve
  refine Leads.induction_within (P := fun fuel id m k => ∀ o, o < wordBound →
      g.resolveWithin fuel { node := id, offset := o } =
        ({ node := m, offset := o } : Cell).shifted k)
    ?_ ?_ h o ho
  · intro fuel id n hSlot o ho
    unfold resolveWithin
    simp only [hSlot, shifted_eq, Nat.add_zero, if_pos ho]
  · intro fuel id t m k hSlot _ ih o ho
    unfold resolveWithin
    simp only [hSlot, addWord]
    by_cases hSum : o + t.offset < wordBound
    · rw [if_pos hSum]
      change g.resolveWithin fuel _ = _
      rw [ih _ hSum, shifted_eq, shifted_eq, Nat.add_assoc]
    · have hAll : ¬ o + (t.offset + k) < wordBound := by
        omega
      rw [if_neg hSum, shifted_eq, if_neg hAll]
      rfl

variable {c d : Cell}

/- A cell of a live node is its own live cell. -/
theorem resolve_of_live
    (hSlot : g.slot c.node = .live n) :
    g.resolve c = .ok c := by
  unfold resolve chainBound resolveWithin
  rw [hSlot]

/- A resolution that succeeds found the end of a chain. -/
theorem leads_of_resolve
    (h : g.resolve c = .ok d) :
    ∃ k, g.Leads c.node d.node k ∧ d.offset = c.offset + k := by
  unfold resolve at h
  generalize g.chainBound = fuel at h
  induction fuel generalizing c with
  | zero => cases h
  | succ fuel ih =>
    unfold resolveWithin at h
    split at h
    · cases h
    · next hSlot =>
      cases h
      exact ⟨0, .live hSlot, rfl⟩
    · next t hSlot =>
      rcases of_bind h with ⟨offset, hOffset, hRest⟩
      rcases ih hRest with ⟨k, hLeads, hSum⟩
      rcases addWord_eq_ok_iff.mp hOffset with ⟨rfl, _⟩
      refine ⟨t.offset + k, .forward hSlot hLeads, ?_⟩
      rw [hSum]
      exact Nat.add_assoc _ _ _

/- What a word resolves to is a word into a live node. -/
theorem resolve_eq_ok
    (hc : c.offset < wordBound)
    (hResolve : g.resolve c = .ok d) :
    ∃ k n, g.Leads c.node d.node k ∧ g.slot d.node = .live n ∧
      d.offset = c.offset + k ∧ d.offset < wordBound := by
  rcases leads_of_resolve hResolve with ⟨k, hLeads, hOffset⟩
  rcases hLeads.live_end with ⟨n, hLive⟩
  refine ⟨k, n, hLeads, hLive, hOffset, ?_⟩
  have hSame := resolve_of_leads hLeads hc
  rw [hResolve, shifted_eq] at hSame
  split at hSame
  · next hLt =>
    rw [hOffset]
    exact hLt
  · cases hSame

-- Shortening

/-
  Some forwarding slots of a graph now forward straight to the ends of their
  chains. All else is as before.
-/
structure Shortened
    (g h : Graph) : Prop where
  config : h.config = g.config
  free : h.free = g.free
  roots : h.roots = g.roots
  callSites : h.callSites = g.callSites
  functions : h.functions = g.functions
  size : h.slots.size = g.slots.size
  slot : ∀ id, h.slot id = g.slot id ∨
    ∃ t m k, g.slot id = .forward t ∧ g.Leads id m k ∧
      k < wordBound ∧
      h.slot id = .forward { node := m, offset := k }

variable {h : Graph}

theorem Shortened.refl
    (g : Graph) : Shortened g g where
  config := rfl
  free := rfl
  roots := rfl
  callSites := rfl
  functions := rfl
  size := rfl
  slot := fun _ => Or.inl rfl

/- Live slots are not touched. -/
theorem Shortened.live_iff
    (hs : Shortened g h)
    {n : Node} :
    h.slot id = .live n ↔ g.slot id = .live n := by
  rcases hs.slot id with hSame | ⟨t, m, k, hOld, _, _, hNew⟩
  · rw [hSame]
  · rw [hOld, hNew]
    constructor
    · intro hEq
      cases hEq
    · intro hEq
      cases hEq

/- Free slots stay free, and no other becomes free. -/
theorem Shortened.free_iff
    (hs : Shortened g h) :
    h.slot id = .free ↔ g.slot id = .free := by
  rcases hs.slot id with hSame | ⟨t, m, k, hOld, _, _, hNew⟩
  · rw [hSame]
  · rw [hOld, hNew]
    constructor
    · intro hEq
      cases hEq
    · intro hEq
      cases hEq

theorem Shortened.hasNode_iff
    (hs : Shortened g h) :
    h.hasNode id = true ↔ g.hasNode id = true := by
  rw [Graph.hasNode_iff, Graph.hasNode_iff, Ne, Ne, hs.free_iff]

/- Every chain keeps its end and its length. -/
theorem Shortened.leads
    (hs : Shortened g h)
    (hLeads : g.Leads id m k) :
    h.Leads id m k := by
  induction hLeads with
  | live hSlot => exact .live (hs.live_iff.mpr hSlot)
  | @forward id m t k hSlot hRest ih =>
    rcases hs.slot id with hSame | ⟨_, m', k', _, hEnd, _, hNew⟩
    · exact .forward (hSame.trans hSlot) ih
    · rcases hEnd.unique (.forward hSlot hRest) with ⟨rfl, rfl⟩
      rcases hRest.live_end with ⟨n, hn⟩
      have hLive := Leads.live (hs.live_iff.mpr hn)
      simpa using Leads.forward hNew hLive

/- One more slot of a graph is made to forward straight. -/
theorem Shortened.setSlot
    (hs : Shortened g h)
    {t : Cell}
    (hOld : g.slot id = .forward t)
    (hEnd : g.Leads id m k)
    (hk : k < wordBound) :
    Shortened g (h.setSlot id (.forward { node := m, offset := k })) where
  config := hs.config
  free := hs.free
  roots := hs.roots
  callSites := hs.callSites
  functions := hs.functions
  size := slots_size_setSlot.trans hs.size
  slot := by
    intro j
    have hLt : id < h.slots.size := by
      rw [hs.size]
      exact lt_size_of_slot_ne_free (slot_ne_free_of_forward hOld)
    rw [slot_setSlot hLt]
    by_cases hj : j = id
    · subst hj
      rw [if_pos rfl]
      exact Or.inr ⟨t, m, k, hOld, hEnd, hk, rfl⟩
    · rw [if_neg hj]
      exact hs.slot j

-- Look-Up With Shortening

/-
  A chain as it is walked from offset `before`: its end, its length, and how
  far each visited slot is from the end.
-/
structure Chain.Walks
    (chain : Chain)
    (g : Graph)
    (m : NodeId)
    (length : Nat) : Prop where
  last : chain.last = m
  total : chain.total = length
  visited : ∀ x ∈ chain.visited,
    (∃ t, g.slot x.1 = .forward t) ∧
      ∃ k, g.Leads x.1 m k ∧ x.2 + k = length

/- A walk gives the end of the chain, or it overflows. -/
theorem walkWithin_of_leads
    (h : g.Leads id m k) :
    (k < wordBound → ∃ chain, g.walkWithin g.chainBound id 0 = .ok chain ∧
        chain.Walks g m k) ∧
      (wordBound ≤ k → g.walkWithin g.chainBound id 0 = .error .addOverflow) := by
  have hWalk := Leads.induction_within (P := fun fuel id m k => ∀ before, before < wordBound →
      (before + k < wordBound → ∃ chain, g.walkWithin fuel id before = .ok chain ∧
            chain.Walks g m (before + k)) ∧
        (wordBound ≤ before + k → g.walkWithin fuel id before = .error .addOverflow))
    ?_ ?_ h 0 (by decide)
  · simpa only [Nat.zero_add] using hWalk
  · intro fuel id n hSlot before hBefore
    unfold walkWithin
    simp only [hSlot]
    refine ⟨fun _ => ⟨_, rfl, rfl, rfl, ?_⟩, ?_⟩
    · intro x hx
      cases hx
    · intro hOver
      omega
  · intro fuel id t m k hSlot hRest ih before hBefore
    unfold walkWithin
    simp only [hSlot, addWord]
    by_cases hSum : before + t.offset < wordBound
    · rw [if_pos hSum]
      rcases ih _ hSum with ⟨hIn, hOut⟩
      constructor
      · intro hAll
        rcases hIn (by omega) with ⟨chain, hChain, hWalks⟩
        refine ⟨{ chain with
          visited := (id, before) :: chain.visited },
          ?_, hWalks.last, ?_, ?_⟩
        · change (g.walkWithin fuel t.node _ >>= _) = _
          rw [hChain]
          rfl
        · exact hWalks.total.trans (Nat.add_assoc _ _ _)
        · intro x hx
          rcases List.mem_cons.mp hx with rfl | hx
          · exact ⟨⟨t, hSlot⟩, _, .forward hSlot hRest, rfl⟩
          · rcases hWalks.visited x hx with ⟨hForward, k', hEnd, hLen⟩
            exact ⟨hForward, k', hEnd, hLen.trans (Nat.add_assoc _ _ _)⟩
      · intro hOver
        change (g.walkWithin fuel t.node _ >>= _) = _
        rw [hOut (by omega)]
        rfl
    · rw [if_neg hSum]
      constructor
      · intro hAll
        omega
      · intro _
        rfl

variable {chain : Chain} {g' : Graph}

/- Shortening a walked chain moves no end. -/
theorem shortened_shorten
    (hWalks : chain.Walks g m k)
    (hk : k < wordBound) :
    Shortened g (g.shorten chain) := by
  unfold shorten
  rw [hWalks.last, hWalks.total]
  have hVisited := hWalks.visited
  generalize chain.visited = visited at hVisited
  suffices hAll : ∀ h, Shortened g h → Shortened g (visited.foldl (fun h x => h.setSlot x.1
          (.forward { node := m, offset := k - x.2 })) h) by
    exact hAll g (.refl g)
  induction visited with
  | nil =>
    intro h hs
    exact hs
  | cons x rest ih =>
    intro h hs
    rcases hVisited x List.mem_cons_self with ⟨⟨t, hOld⟩, k', hEnd, hLen⟩
    have hLeft : k - x.2 = k' := by omega
    rw [List.foldl_cons]
    apply ih
    · intro y hy
      exact hVisited y (List.mem_cons_of_mem _ hy)
    · rw [hLeft]
      exact hs.setSlot hOld hEnd (by omega)

/-
  Look-up gives the end of the chain, or it overflows, and only shortens
  chains.
-/
theorem find_of_leads
    (h : g.Leads id m k)
    (o : Nat) :
    (o + k < wordBound → ∃ g', g.find { node := id, offset := o } =
          .ok ({ node := m, offset := o + k }, g') ∧
        Shortened g g') ∧
      (wordBound ≤ o + k → g.find { node := id, offset := o } = .error .addOverflow) := by
  rcases walkWithin_of_leads h with ⟨hIn, hOut⟩
  unfold find
  by_cases hWord : k < wordBound
  · rcases hIn hWord with ⟨chain, hChain, hWalks⟩
    simp only [hChain]
    constructor
    · intro hSum
      refine ⟨if chain.visited.length > 1 then
        g.shorten chain else g, ?_, ?_⟩
      · simp only [hWalks.total, hWalks.last, addWord, bind, Except.bind, if_pos hSum]
        rfl
      · split
        · exact shortened_shorten hWalks hWord
        · exact .refl g
    · intro hOver
      have hSum : ¬ o + k < wordBound := by omega
      simp only [hWalks.total, addWord, bind, Except.bind, if_neg hSum]
  · rw [hOut (by omega)]
    constructor
    · intro hSum
      omega
    · intro _
      rfl

/- A walk that succeeds found the end of a chain. -/
theorem leads_of_walkWithin
    {fuel : Nat}
    {before : Nat}
    (h : g.walkWithin fuel id before = .ok chain) :
    ∃ m k, g.Leads id m k := by
  induction fuel generalizing id before chain with
  | zero => cases h
  | succ fuel ih =>
    unfold walkWithin at h
    split at h
    · cases h
    · next hSlot => exact ⟨id, 0, .live hSlot⟩
    · next t hSlot =>
      rcases of_bind h with ⟨after, _, h⟩
      rcases of_bind h with ⟨rest, hRest, _⟩
      rcases ih hRest with ⟨m, k, hLeads⟩
      exact ⟨m, t.offset + k, .forward hSlot hLeads⟩

/- What a look-up that succeeds has found and changed. -/
theorem find_eq_ok
    (h : g.find c = .ok (d, g')) :
    ∃ k, g.Leads c.node d.node k ∧ d.offset = c.offset + k ∧ d.offset < wordBound ∧
      Shortened g g' := by
  have hLeads : ∃ m k, g.Leads c.node m k := by
    unfold find at h
    rcases of_bind h with ⟨chain, hChain, _⟩
    exact leads_of_walkWithin hChain
  rcases hLeads with ⟨m, k, hLeads⟩
  rcases find_of_leads hLeads c.offset with ⟨hIn, hOut⟩
  by_cases hSum : c.offset + k < wordBound
  · rcases hIn hSum with ⟨h', hFind, hs⟩
    rw [hFind] at h
    cases h
    exact ⟨k, hLeads, rfl, hSum, hs⟩
  · rw [hOut (by omega)] at h
    cases h

/- The same for the node of a slot. -/
theorem findNode_eq_ok
    {r : NodeId}
    (h : g.findNode id = .ok (r, g')) :
    ∃ k, g.Leads id r k ∧ Shortened g g' := by
  unfold findNode at h
  rcases of_bind h with ⟨⟨c, g₁⟩, hFind, hDone⟩
  cases hDone
  rcases find_eq_ok hFind with ⟨k, hLeads, _, _, hs⟩
  exact ⟨k, hLeads, hs⟩

end Graph

end HeapShape
