import HeapShape.Proofs.Graph.Evolves
import HeapShape.Proofs.Graph.Reachable

/-
  Bounds do not matter to merging.

  Merging is defined with a bound on merges inside merges. A run that does
  not meet its bound is the same under every larger one, and no run on a
  graph meets a bound above the weight of the graph. So the bound could be
  left out: what is computed is what merging without a bound computes, and
  it comes to an end.

  Main declarations:
    * `Checked.Upto`
    * `Graph.WellFormed.unifyWithin_eq`
    * `Merging.In`
    * `merging_terminates`
-/

-- Runs Up To A Bound

namespace HeapShape

open Checked

namespace Checked

variable {α β : Type} {x y : Checked α}

/- A run is another one, unless it meets its bound. -/
def Upto
    (x y : Checked α) : Prop :=
  x = .error .unbounded ∨ x = y

theorem Upto.refl
    (x : Checked α) :
    Upto x x :=
  Or.inr rfl

theorem Upto.bind
    {f f' : α → Checked β}
    (hx : Upto x y)
    (hf : ∀ a, Upto (f a) (f' a)) :
    Upto (x >>= f) (y >>= f') := by
  rcases hx with rfl | rfl
  · exact Or.inl rfl
  · cases x with
    | error fault => exact .refl _
    | ok a => exact hf a

theorem Upto.foldlM
    {step step' : β → α → Checked β}
    (hStep : ∀ b a, Upto (step b a) (step' b a))
    (xs : List α)
    (start : β) :
    Upto (xs.foldlM step start) (xs.foldlM step' start) := by
  induction xs generalizing start with
  | nil => exact .refl _
  | cons a xs ih =>
    rw [List.foldlM_cons, List.foldlM_cons]
    exact (hStep start a).bind ih

/- A run with a result, or an overflow, met no bound. -/
theorem Upto.eq_of_yields
    {P : α → Prop}
    (hxy : Upto x y)
    (hx : Yields x P) :
    x = y := by
  rcases hxy with rfl | hSame
  · rcases hx with hOver | ⟨a, hOk, _⟩
    · cases hOver
    · cases hOk
  · exact hSame

end Checked

namespace Graph

open Checked

/- Merges that agree where the first meets no bound. -/
def Merge.Upto
    (merge merge' : Merge) : Prop :=
  ∀ g a b, Checked.Upto (merge g a b) (merge' g a b)

section

variable {merge merge' : Merge} (hMerge : Merge.Upto merge merge') (g : Graph)
variable (this other : NodeId) (offset : Nat)

include hMerge

theorem upto_addLinkBy
    (c : Cell)
    (type? : Option TypeTag)
    (t : Cell) :
    Upto (addLinkBy merge g c type? t) (addLinkBy merge' g c type? t) := by
  unfold addLinkBy
  refine Upto.bind (.refl _) fun found => ?_
  refine Upto.bind (.refl _) fun n => ?_
  dsimp only
  split
  · exact hMerge _ _ _
  · exact .refl _

theorem upto_replayLinks
    (links : OrdMap Field Cell) :
    Upto (replayLinks merge g this offset links) (replayLinks merge' g this offset links) := by
  refine Upto.foldlM (fun g entry => ?_) _ g
  exact Upto.bind (.refl _) fun spot =>
    upto_addLinkBy hMerge _ _ _ _

theorem upto_absorb :
    Upto (absorb merge g this other offset) (absorb merge' g this other offset) := by
  refine Upto.bind (.refl _) fun moved => ?_
  refine Upto.bind (.refl _) fun n => ?_
  refine Upto.bind (.refl _) fun g => ?_
  refine Upto.bind (.refl _) fun g => ?_
  exact upto_replayLinks hMerge _ _ _ _

theorem upto_collapseBy :
    Upto (collapseBy merge g this) (collapseBy merge' g this) := by
  unfold collapseBy
  refine Upto.bind (.refl _) fun found => ?_
  refine Upto.bind (.refl _) fun n => ?_
  split
  · exact .refl _
  · split
    · refine Upto.bind (.refl _) fun g => ?_
      refine Upto.bind (.refl _) fun g => ?_
      exact (upto_replayLinks hMerge _ _ _ _).bind fun g => .refl _
    · exact (upto_absorb hMerge _ _ _ _).bind fun g => .refl _

theorem upto_collapseThenMerge :
    Upto (collapseThenMerge merge g this other) (collapseThenMerge merge' g this other) :=
  (upto_collapseBy hMerge g this).bind fun _ => hMerge _ _ _

theorem upto_mergeAt :
    Upto (mergeAt merge g this other offset) (mergeAt merge' g this other offset) := by
  have hAbsorb := upto_absorb hMerge
  have hCollapse := upto_collapseThenMerge hMerge g this other
  unfold mergeAt
  refine Upto.bind (.refl _) fun n => ?_
  refine Upto.bind (.refl _) fun m => ?_
  split
  · split
    · exact .refl _
    · exact (upto_collapseBy hMerge _ _).bind fun _ => .refl _
  · split
    · exact hCollapse
    · split
      · exact hAbsorb _ _ _ _
      · dsimp only
        split
        · split
          · exact hAbsorb _ _ _ _
          · exact hCollapse
        · split
          · exact hCollapse
          · split
            · exact hCollapse
            · exact Upto.bind (.refl _) fun g => hAbsorb g _ _ _
        · generalize (if n.size = 0 then offset
            else offset % n.size) = inner
          split
          · exact hAbsorb _ _ _ _
          · refine Upto.bind (.refl _) fun reach => ?_
            split
            · exact hCollapse
            · exact hAbsorb _ _ _ _
        · refine Upto.bind (.refl _) fun reach => ?_
          exact Upto.bind (.refl _) fun g => hAbsorb g _ _ _

theorem upto_unifyBy :
    Merge.Upto (unifyBy merge) (unifyBy merge') := by
  intro g a b
  unfold unifyBy
  refine Upto.bind (.refl _) fun foundA => ?_
  refine Upto.bind (.refl _) fun foundB => ?_
  refine Upto.bind (.refl _) fun n => ?_
  refine Upto.bind (.refl _) fun m => ?_
  dsimp only
  split
  · split
    · exact .refl _
    · exact (upto_collapseBy hMerge _ _).bind fun _ => .refl _
  · split
    · exact upto_mergeAt hMerge _ _ _ _
    · exact upto_mergeAt hMerge _ _ _ _

end

/- A larger bound changes nothing where none is met. -/
theorem upto_unifyWithin
    {fuel bound : Nat}
    (hLe : fuel ≤ bound) :
    Merge.Upto (unifyWithin fuel) (unifyWithin bound) := by
  induction fuel generalizing bound with
  | zero => exact fun _ _ _ => Or.inl rfl
  | succ fuel ih =>
    cases bound with
    | zero => omega
    | succ bound => exact upto_unifyBy (ih (Nat.le_of_succ_le_succ hLe))

-- Merging Without A Bound

variable {g : Graph} {a b c t : Cell} {id : NodeId} {bound : Nat}

/- The weight is bound enough, so all larger ones are. -/
theorem WellFormed.unifyWithin_eq
    (hg : g.WellFormed)
    (ha : g.Has a)
    (hb : g.Has b)
    (hBound : g.weight < bound) :
    unifyWithin bound g a b = g.unify a b := by
  have hEnough := ((lightens_unifyWithin (g.weight + 1)).shrinks hg.roomy ha.owns hb.owns
      (Nat.lt_succ_self _)).yields
  have hSame := fun {bound} (hLe : g.weight + 1 ≤ bound) =>
    (upto_unifyWithin hLe g a b).eq_of_yields hEnough
  exact (hSame hBound).symm.trans (hSame g.weight_lt_mergeBound)

theorem WellFormed.collapseBy_eq
    (hg : g.WellFormed)
    (hNode : g.hasNode id = true)
    (hBound : g.weight ≤ bound) :
    collapseBy (unifyWithin bound) g id = g.collapse id := by
  rcases hg.leads hNode with ⟨m, k, hLeads⟩
  rcases hLeads.live_end with ⟨n, hLive⟩
  have hEnough := ((lightens_unifyWithin
    g.weight).yields_collapseBy hg.roomy hLeads hLive (Nat.le_refl _)).yields
  have hSame := fun {bound} (hLe : g.weight ≤ bound) =>
    (upto_collapseBy (upto_unifyWithin hLe) g id).eq_of_yields hEnough
  exact (hSame hBound).symm.trans (hSame (Nat.le_of_lt g.weight_lt_mergeBound))

theorem WellFormed.addLinkBy_eq
    (hg : g.WellFormed)
    (hc : g.Has c)
    (ht : g.Has t)
    (type? : Option TypeTag)
    (hBound : g.weight < bound) :
    addLinkBy (unifyWithin bound) g c type? t = g.addLink c type? t := by
  have hEnough : Yields (addLinkBy (unifyWithin (g.weight + 1)) g c type? t) _ :=
    ((lightens_unifyWithin (g.weight + 1)).yields_addLinkBy
      hg.roomy hc.owns ht.owns (.inr (Nat.le_refl _))
      (Nat.lt_succ_self _)).yields
  have hSame := fun {bound} (hLe : g.weight + 1 ≤ bound) =>
    (upto_addLinkBy (upto_unifyWithin hLe) g c type? t).eq_of_yields hEnough
  exact (hSame hBound).symm.trans (hSame g.weight_lt_mergeBound)

end Graph

namespace Merging

/- The cells and nodes of an operation lie in a graph. -/
def In
    (g : Graph) :
    Merging → Prop
| unify a b => g.Has a ∧ g.Has b
| collapse id => g.hasNode id = true
| setArray id stride =>
    g.hasNode id = true ∧ stride < wordBound
| addLink c _ t => g.Has c ∧ g.Has t
| makeLink c _ => g.Has c
| bindRoot _ init? => ∀ c, init? = some c → g.Has c

/- No operation meets a bound or a freed slot. -/
theorem In.yields_run
    {g : Graph}
    {op : Merging}
    (hIn : op.In g)
    (hg : g.WellFormed) :
    Yields (op.run g) Graph.WellFormed := by
  cases op with
  | unify a b =>
    exact (hg.roomy.yields_unify hIn.1.owns hIn.2.owns).yields.imp fun _ hh => hh.wellFormed
  | collapse id => exact (hg.roomy.yields_collapse hIn).yields.bind fun _ hh => .ok hh.1.wellFormed
  | setArray id stride =>
    exact (hg.roomy.yields_setArray hIn.1 hIn.2).yields.imp fun _ hh => hh.wellFormed
  | addLink c type? t =>
    exact (hg.roomy.yields_addLink hIn.1.owns hIn.2.owns
      type? (Nat.le_refl _)).yields.imp fun _ hh => hh.wellFormed
  | makeLink c type? =>
    exact (Graph.Spends.makeLink (hg.admits (s := _)
      (P := fun _ => False) (X := fun _ => False)) hIn.owns
      type? (Nat.le_refl _)).yields.bind fun _ hh => .ok hh.1.wellFormed
  | bindRoot r init? =>
    exact (Graph.Evolves.bindRoot (fun _ => False)
      (fun _ => False) hg hIn).bind fun _ hh => .ok hh.1.wellFormed

end Merging

open HeapShape.Graph in
/-
  Merging in a well-formed graph comes to an end, with a graph or by
  overflow. The weight of the graph bounds the depth of merges inside
  merges: under this bound and all larger ones a run is the same. Absorbing
  a node and collapsing one both leave a graph of less weight.
-/
theorem merging_terminates
    {g : Graph}
    (hg : g.WellFormed) :
    (∀ op : Merging, op.In g →
      Checked.Yields (op.run g) Graph.WellFormed) ∧
    (∀ a b bound, g.Has a → g.Has b → g.weight < bound →
      unifyWithin bound g a b = g.unify a b) ∧
    (∀ id bound, g.hasNode id = true → g.weight ≤ bound →
      collapseBy (unifyWithin bound) g id = g.collapse id) ∧
    (∀ c type? t bound, g.Has c → g.Has t →
      g.weight < bound →
        addLinkBy (unifyWithin bound) g c type? t =
          g.addLink c type? t) ∧
    (∀ this other n m offset bound,
      g.slot this = .live n → g.slot other = .live m →
      this ≠ other → m.LiesIn n offset → g.weight ≤ bound →
        Checked.Yields
          (absorb (unifyWithin bound) g this other offset)
          fun h => h.weight < g.weight) ∧
    ∀ id n, g.slot id = .live n → n.isCollapsed = false →
      Checked.Yields (g.collapse id)
        fun r => r.2.weight < g.weight := by
  refine ⟨fun _ hIn => hIn.yields_run hg,
    fun _ _ _ ha hb => hg.unifyWithin_eq ha hb,
    fun _ _ => hg.collapseBy_eq,
    fun _ _ _ _ hc ht => hg.addLinkBy_eq hc ht _, ?_, ?_⟩
  · intro this other n m offset bound hThis hOther hne hIn
      hBound
    have hPos := Slot.weight_live_pos m
    have hRoom : g.Roomy True 0 := hg.roomy
    refine ((lightens_unifyWithin bound).yields_absorb hg
      hRoom.snug hThis hOther hne hIn
      (fun hNot => absurd trivial hNot)
      (by omega)).yields.imp ?_
    intro h hw
    omega
  · intro id n hSlot hOpen
    refine ((lightens_unifyWithin _).yields_collapseBy
      hg.roomy (.live hSlot) hSlot
      (Nat.le_of_lt g.weight_lt_mergeBound)).yields.imp ?_
    rintro r ⟨hw, _⟩
    rw [hOpen] at hw
    exact hw

/-
  Two nodes that lead to each other, a node that leads to itself, and an
  array.
-/
def tangledNodes : List Update :=
  [.createNode Flags.empty 16, .createNode Flags.empty 16,
    .createNode Flags.empty 24,
    .merge (.addLink ⟨0, 0⟩ none ⟨1, 8⟩),
    .merge (.addLink ⟨1, 8⟩ none ⟨0, 0⟩),
    .merge (.addLink ⟨2, 8⟩ none ⟨2, 0⟩),
    .merge (.setArray 1 16)]

/- Laying the first node over the third merges all three. -/
theorem merging_terminates_of_tangledNodes :
    ∃ g h, g.WellFormed ∧ g.weight = 6 ∧
      (Merging.unify ⟨0, 0⟩ ⟨2, 8⟩).In g ∧
      g.unify ⟨0, 0⟩ ⟨2, 8⟩ = .ok h ∧ h.weight = 1 ∧
      ∀ bound, 6 < bound →
        Graph.unifyWithin bound g ⟨0, 0⟩ ⟨2, 8⟩ = .ok h := by
  rcases Update.exists_run {} tangledNodes
      (.unify ⟨0, 0⟩ ⟨2, 8⟩)
      (P := fun g h => g.weight = 6 ∧ h.weight = 1 ∧
        g.hasNode 0 = true ∧ g.hasNode 2 = true)
      (by decide) (by decide +kernel) with
    ⟨g, h, _, hg, hRun, hWeight, hLess, hZero, hTwo⟩
  have hIn : (Merging.unify ⟨0, 0⟩ ⟨2, 8⟩).In g :=
    ⟨⟨hZero, by decide⟩, hTwo, by decide⟩
  refine ⟨g, h, hg, hWeight, hIn, hRun, hLess, ?_⟩
  intro bound hBound
  rw [(merging_terminates hg).2.1 _ _ bound hIn.1 hIn.2
    (hWeight ▸ hBound)]
  exact hRun

end HeapShape
