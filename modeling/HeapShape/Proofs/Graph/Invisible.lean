import HeapShape.Proofs.Graph.Shape
import HeapShape.Proofs.Graph.WellFormed

/-
  Shortening cannot be seen.

  Look-up gives what resolution gives, overflow included. It rewrites all
  the slots of the chain it followed, each with what is left of the way, so
  a cell that enters the chain anywhere is resolved as before.

  Main declarations:
    * `Graph.exists_mem_visited`
    * `Graph.map_find`
    * `Graph.find_straightens`
    * `shortening_is_invisible`
-/

-- The Slots Of A Chain

namespace HeapShape

open Checked

namespace Graph

variable {g h : Graph} {id x : NodeId} {c d t : Cell} {chain : Chain}

/- A walk visits every slot that forwards on the chain. -/
theorem exists_mem_visited
    {fuel before : Nat}
    (hWalk : g.walkWithin fuel id before = .ok chain)
    (hx : Relation.ReflTransGen g.Forwards id x)
    (hSlot : g.slot x = .forward t) :
    ∃ b, (x, b) ∈ chain.visited := by
  induction fuel generalizing id before chain with
  | zero => cases hWalk
  | succ fuel ih =>
    unfold walkWithin at hWalk
    split at hWalk
    · cases hWalk
    · next hLive =>
      rcases Relation.ReflTransGen.cases_head hx with rfl | ⟨_, ⟨_, hForward⟩, _⟩
      · rw [hLive] at hSlot
        cases hSlot
      · rw [hLive] at hForward
        cases hForward
    · next u hForward =>
      rcases of_bind hWalk with ⟨after, _, hWalk⟩
      rcases of_bind hWalk with ⟨rest, hRest, hWalk⟩
      cases hWalk
      rcases Relation.ReflTransGen.cases_head hx with rfl | ⟨y, ⟨o, hStep⟩, hTail⟩
      · exact ⟨before, List.mem_cons_self⟩
      · rw [hForward] at hStep
        cases hStep
        exact (ih hRest hTail).imp fun _ =>
          List.mem_cons_of_mem _

/- A visited slot is made to forward to the end. -/
theorem exists_slot_shorten
    {b : Nat}
    (hx : (x, b) ∈ chain.visited)
    (hLt : x < g.slots.size) :
    ∃ k, (g.shorten chain).slot x = .forward { node := chain.last, offset := k } := by
  unfold shorten
  -- Once a slot forwards there, later changes leave it so.
  suffices hAll : ∀ (visited : List (NodeId × Nat)) (h : Graph), x < h.slots.size →
      ((∃ b, (x, b) ∈ visited) ∨ ∃ k, h.slot x = .forward { node := chain.last, offset := k }) →
      ∃ k, (visited.foldl (fun h y => h.setSlot y.1
          (.forward { node := chain.last, offset := chain.total - y.2 })) h).slot x =
        .forward { node := chain.last, offset := k } by
    exact hAll chain.visited g hLt (Or.inl ⟨b, hx⟩)
  intro visited
  induction visited with
  | nil =>
    rintro h _ (⟨_, hMem⟩ | hDone)
    · cases hMem
    · exact hDone
  | cons y rest ih =>
    intro h hLt hBefore
    rw [List.foldl_cons]
    refine ih _ (slots_size_setSlot.symm ▸ hLt) ?_
    by_cases hxy : x = y.1
    · subst hxy
      exact Or.inr ⟨_, (slot_setSlot hLt _ _).trans (if_pos rfl)⟩
    · rcases hBefore with ⟨b, hMem⟩ | ⟨k, hSlot⟩
      · rcases List.mem_cons.mp hMem with rfl | hMem
        · exact absurd rfl hxy
        · exact Or.inl ⟨b, hMem⟩
      · refine Or.inr ⟨k, ?_⟩
        by_cases hy : y.1 < h.slots.size
        · rw [slot_setSlot hy, if_neg hxy, hSlot]
        · unfold setSlot slot at *
          rw [Array.setIfInBounds_eq_of_size_le (Nat.le_of_not_lt hy)]
          exact hSlot

/- Look-up and resolution of a cell agree. -/
theorem map_find
    (hAcyclic : ∀ id, ¬ Relation.TransGen g.Forwards id id)
    (hOccupied : ∀ a b, g.Forwards a b → g.hasNode b = true)
    (hc : c.offset < wordBound) :
    (g.find c).map Prod.fst = g.resolve c := by
  by_cases hNode : g.hasNode c.node = true
  · rcases leads_of_acyclic hAcyclic hOccupied hNode with ⟨m, k, hLeads⟩
    have hResolve : g.resolve c = ({ node := m, offset := c.offset } : Cell).shifted k :=
      resolve_of_leads hLeads hc
    rcases find_of_leads hLeads c.offset with ⟨hIn, hOut⟩
    rw [hResolve, shifted_eq]
    split
    · next hWord =>
      rcases hIn hWord with ⟨h, hFind, _⟩
      rw [hFind]
      rfl
    · next hWord =>
      rw [hOut (Nat.le_of_not_lt hWord)]
      rfl
  · have hFree : g.slot c.node = .free := by
      by_contra hSlot
      exact hNode (hasNode_iff.mpr hSlot)
    unfold find resolve chainBound resolveWithin walkWithin
    simp only [hFree]
    rfl

/- After a look-up all slots of the chain forward straight. -/
theorem find_straightens
    (hFind : g.find c = .ok (d, h))
    (hx : Relation.ReflTransGen g.Forwards c.node x)
    (hSlot : g.slot x = .forward t) :
    ∃ k, h.slot x = .forward { node := d.node, offset := k } := by
  have hLt := lt_size_of_slot_ne_free (slot_ne_free_of_forward hSlot)
  rcases find_eq_ok hFind with ⟨_, hLeads, _⟩
  unfold find at hFind
  rcases of_bind hFind with ⟨chain, hWalk, hFind⟩
  rcases of_bind hFind with ⟨o, _, hFind⟩
  rcases Prod.mk.inj (Except.ok.inj hFind) with ⟨hd, rfl⟩
  have hEnd : d.node = chain.last := by rw [← hd]
  rcases exists_mem_visited hWalk hx hSlot with ⟨b, hMem⟩
  generalize d.node = m at hLeads hEnd ⊢
  split
  · rw [hEnd]
    exact exists_slot_shorten hMem hLt
  · next hShort =>
    -- The only slot visited forwards to a live one.
    have hOnly : ∀ y u, Relation.ReflTransGen g.Forwards
        c.node y → g.slot y = .forward u → y = x := by
      intro y u hy hForward
      rcases exists_mem_visited hWalk hy hForward with ⟨b', hMem'⟩
      generalize chain.visited = visited at *
      rcases visited with _ | ⟨z, _ | ⟨_, _⟩⟩
      · cases hMem
      · rw [List.mem_singleton] at hMem hMem'
        rw [← hMem'] at hMem
        exact (congrArg Prod.fst hMem).symm
      · exact absurd (by simp) hShort
    cases hLeads with
    | live hLive =>
      rcases Relation.ReflTransGen.cases_head hx with rfl | ⟨_, ⟨_, hForward⟩, _⟩
      · rw [hLive] at hSlot
        cases hSlot
      · rw [hLive] at hForward
        cases hForward
    | @forward _ _ u _ hStart hRest =>
      have hEq := hOnly _ _ .refl hStart
      subst hEq
      rw [hStart] at hSlot
      cases hSlot
      cases hRest with
      | live hLive => exact ⟨t.offset, hStart⟩
      | forward hNext hTail =>
        have hLoop := hOnly _ _ (.single ⟨_, hStart⟩) hNext
        exact absurd (.single ⟨_, hLoop ▸ hStart⟩) (Leads.forward hNext hTail).acyclic

end Graph

-- Invisibility

open HeapShape.Graph in
/-
  In a graph whose chains have no cycles a look-up gives what resolution
  gives, lets the slots it visits forward straight to the live node it
  found, and no cell resolves otherwise afterwards.
-/
theorem shortening_is_invisible
    {g : Graph}
    (hAcyclic : ∀ id, ¬ Relation.TransGen g.Forwards id id)
    (hOccupied : ∀ a b, g.Forwards a b → g.hasNode b = true)
    {c : Cell}
    (hc : c.offset < wordBound) :
    (g.find c).map Prod.fst = g.resolve c ∧
    (∀ d h, g.find c = .ok (d, h) → (∀ x, h.resolve x = g.resolve x) ∧
      (∃ n, g.slot d.node = .live n ∧ h.slot d.node = .live n) ∧
      ∀ x t, Relation.ReflTransGen g.Forwards c.node x → g.slot x = .forward t →
          ∃ k, h.slot x = .forward { node := d.node, offset := k }) ∧
    ∀ x d, g.resolve x = .ok d → g.resolve d = .ok d := by
  refine ⟨map_find hAcyclic hOccupied hc, ?_, ?_⟩
  · intro d h hFind
    rcases find_eq_ok hFind with ⟨_, hLeads, _, _, hs⟩
    rcases hLeads.live_end with ⟨n, hLive⟩
    exact ⟨hs.resolve_eq, ⟨n, hLive, hs.live_iff.mpr hLive⟩,
      fun _ _ => find_straightens hFind⟩
  · intro x d hResolve
    rcases leads_of_resolve hResolve with ⟨_, hLeads, _⟩
    rcases hLeads.live_end with ⟨_, hLive⟩
    exact resolve_of_live hLive

/- Three slots that forward one to the next. -/
def longChain : Graph where
  slots := #[.live {}, .forward ⟨0, 4⟩, .forward ⟨1, 8⟩,
    .forward ⟨2, 16⟩]

/-
  A look-up from the far end shortens the whole chain, and a cell of a slot
  in the middle is resolved as before.
-/
theorem shortening_is_invisible_of_longChain :
    ∃ h, longChain.find ⟨3, 1⟩ = .ok (⟨0, 29⟩, h) ∧
      longChain.resolve ⟨3, 1⟩ = .ok ⟨0, 29⟩ ∧
      h.slot 2 = .forward ⟨0, 12⟩ ∧
      h.resolve ⟨2, 7⟩ = longChain.resolve ⟨2, 7⟩ := by
  have hDown : ∀ a b, longChain.Forwards a b → b < a := by
    rintro (_ | _ | _ | _ | a) b ⟨o, hSlot⟩ <;> cases hSlot <;>
      decide
  have hLoop : ∀ a b, Relation.TransGen longChain.Forwards a b → b < a := by
    intro a b hPath
    induction hPath with
    | single hStep => exact hDown _ _ hStep
    | tail _ hStep ih => exact (hDown _ _ hStep).trans ih
  have hAll := shortening_is_invisible (c := ⟨3, 1⟩)
    (fun id hPath => Nat.lt_irrefl id (hLoop id id hPath))
    (by
      rintro (_ | _ | _ | _ | a) b ⟨o, hSlot⟩ <;>
        cases hSlot <;> rfl)
    (by decide)
  have hFind : ∃ h, longChain.find ⟨3, 1⟩ = .ok (⟨0, 29⟩, h) ∧
      h.slot 2 = .forward ⟨0, 12⟩ := ⟨_, rfl, rfl⟩
  rcases hFind with ⟨h, hFind, hSlot⟩
  refine ⟨h, hFind, ?_, hSlot, (hAll.2.1 _ h hFind).1 _⟩
  rw [← hAll.1, hFind]
  rfl

end HeapShape
