import HeapShape.Lowering
import HeapShape.Proofs.Graph.Carried
import HeapShape.Proofs.Graph.Snug

/-
  Graphs on the way to that of a function.

  All cells of such a graph lie inside their nodes, so that none of them can
  be moved beyond the word range: a node is merged into another only where
  it has room. And no value has a cell both as a formal and as a scalar.

  Main declarations:
    * `Draft`
    * `Draft.bindRoot`
    * `Draft.valueCell`
    * `Draft.makeLink`
-/

-- Drafts

namespace HeapShape

open Checked

/- A value is a formal that takes a pointer. -/
def FunctionDef.HasPointer
    (f : FunctionDef)
    (v : ValueId) : Prop :=
  ∃ formal ∈ f.formals, formal.isPointer = true ∧
    formal.value = v

instance
    (f : FunctionDef)
    (v : ValueId) : Decidable (f.HasPointer v) :=
  inferInstanceAs (Decidable (∃ formal ∈ f.formals,
    formal.isPointer = true ∧ formal.value = v))

/- A graph on the way to that of a function. -/
structure Draft
    (f : FunctionDef)
    (g : Graph) : Prop extends g.Tight where
  wellFormed : g.WellFormed
  formals : ∀ v c, g.roots.get? (.formal v) = some c →
    f.HasPointer v ∧ g.roots.get? (.scalar v) = none

open Graph

variable {f : FunctionDef} {g h : Graph} {T : Cell → Prop} {c d t : Cell} {type? : Option TypeTag}

/- Merging makes a draft of a draft. -/
theorem Draft.of_rewired
    (hg : Draft f g)
    (hLater : Later g h)
    (hKept : Rewired g h T)
    (hT : ∀ t, T t → h.Inside t) :
    Draft f h where
  toTight := hg.toTight.of_rewired hLater.merged hKept hT
  wellFormed := hLater.wellFormed
  formals := by
    intro v c hRoot
    rw [hKept.roots] at hRoot ⊢
    exact hg.formals v c hRoot

/- Merging that adds no target. -/
theorem Draft.of_merging
    (hg : Draft f g)
    (hLater : Later g h)
    (hDerived : Derived g h fun _ => False) :
    Draft f h :=
  hg.of_rewired hLater hDerived.toRewired fun _ hNone => hNone.elim

theorem Draft.find
    (hg : Draft f g)
    (hRun : g.find c = .ok (d, h)) :
    Draft f h ∧ (g.Inside c → h.Inside d) := by
  have hStep := Carries.find (E := False) hg.wellFormed hRun
  rcases Fused.find (T := fun _ => False) hg.wellFormed.freeListed hRun with ⟨hFused, hPlace, _⟩
  refine ⟨hg.of_merging hStep.later hFused.toDerived, fun hc => ?_⟩
  exact (hc.merged hStep.later.merged).of_samePlace hPlace.symm

theorem Draft.unify
    (hg : Draft f g)
    (hRun : g.unify c d = .ok h) :
    Draft f h :=
  hg.of_merging (Carries.unify (E := False) hg.wellFormed hRun).later
    (Fused.unify hg.wellFormed.freeListed hRun).toDerived

theorem Draft.addLink
    (hg : Draft f g)
    (ht : g.Inside t)
    (hRun : g.addLink c type? t = .ok h) :
    Draft f h := by
  have hStep := Carries.addLink (E := False) hg.wellFormed hRun
  have hAdded := Fused.addLink (T := fun u => u = t) hg.wellFormed.freeListed rfl hRun
  apply hg.of_rewired hStep.later hAdded.toRewired
  rintro u rfl
  exact ht.merged hStep.later.merged

theorem Draft.addTypes
    (hg : Draft f g)
    {types : TypeSet}
    (hRun : g.addTypes c types = .ok h) :
    Draft f h :=
  hg.of_merging (Carries.addTypes (E := False) hg.wellFormed hRun).later
    (Fused.addTypes hg.wellFormed.freeListed hRun).toDerived

variable {id : NodeId}

theorem Draft.setArray
    (hg : Draft f g)
    {stride : Nat}
    (hStride : stride < wordBound)
    (hRun : g.setArray id stride = .ok h) :
    Draft f h :=
  hg.of_merging (Carries.setArray (E := False) hg.wellFormed hStride hRun).later
    (Fused.setArray hg.wellFormed.freeListed hRun).toDerived

/- A fresh node; its start is inside. -/
theorem Draft.createNode
    (hg : Draft f g)
    (flags : Flags)
    (size : Nat)
    (hn : (freshNode flags size).WellFormed g.config) :
    Draft f (g.createNode flags size).2 ∧ (g.createNode flags size).2.slot
        (g.createNode flags size).1 = .live (freshNode flags size) := by
  have hStep := Carries.createNode (E := False) hg.wellFormed flags size hn
  have hSlot := (hg.wellFormed.slot_createNode flags size).2 (g.createNode flags size).1
  rw [if_pos rfl] at hSlot
  exact ⟨hg.of_merging hStep.later (.createNode hg.wellFormed.freeListed _ _), hSlot⟩

theorem Draft.createBlank
    (hg : Draft f g) :
    Draft f g.createBlank.2 ∧ g.createBlank.2.Inside (Cell.start g.createBlank.1) := by
  have hStep := Carries.createBlank (E := False) hg.wellFormed
  have hSlot := (hg.wellFormed.slot_createNode Flags.empty 0).2 (g.createNode Flags.empty 0).1
  rw [if_pos rfl] at hSlot
  exact ⟨hg.of_merging hStep.later (.createNode hg.wellFormed.freeListed _ _), .start hSlot⟩

/- A link leads inside, old or new. -/
theorem Draft.makeLink
    (hg : Draft f g)
    (hc : c.offset < wordBound)
    (hRun : g.makeLink c type? = .ok (t, h)) :
    Draft f h ∧ h.Inside t := by
  unfold Graph.makeLink at hRun
  rcases of_bind hRun with ⟨found?, hLink, hRun⟩
  cases found? with
  | some target =>
    cases hRun
    rcases link?_eq_ok hc hLink with ⟨m, k, n, u, _, hLive, _, hGet, hTarget⟩
    have hu := hg.targets u ⟨m, n, _, hLive, hGet⟩
    rcases leads_of_resolve hTarget with ⟨j, hLeads, hOffset⟩
    have hPlace : g.SamePlace u t := (Merged.refl hg.wellFormed).samePlace hLeads hOffset
    exact ⟨hg, hu.of_samePlace hPlace.symm⟩
  | none =>
    dsimp only at hRun
    rcases of_bind hRun with ⟨g₂, hAdd, hFind⟩
    rcases hg.createBlank with ⟨hFresh, hStart⟩
    have hAdded := hFresh.addLink hStart hAdd
    have hLater := (Carries.addLink (E := False) hFresh.wellFormed hAdd).later
    rcases hAdded.find hFind with ⟨hFound, hInside⟩
    exact ⟨hFound, hInside (hStart.merged hLater.merged)⟩

/- Facts about nodes change no cell. -/
theorem Draft.modifyNode
    (hg : Draft f g)
    {change : Node → Node}
    (hRun : g.modifyNode id change = .ok h)
    (hLater : Later g h)
    (hLinks : ∀ n, (change n).links = n.links) :
    Draft f h :=
  hg.of_rewired (T := fun _ => False) hLater (.modifyNode hg.wellFormed.freeListed hLinks hRun)
    fun _ hNone => hNone.elim

theorem Draft.addFlags
    (hg : Draft f g)
    {flags : Flags}
    (hRun : g.addFlags id flags = .ok h) :
    Draft f h :=
  hg.modifyNode hRun (Carries.addFlags (E := False) hg.wellFormed hRun).later fun _ => rfl

theorem Draft.growSize
    (hg : Draft f g)
    {size : Nat}
    (hSize : size < wordBound)
    (hRun : g.growSize id size = .ok h) :
    Draft f h :=
  hg.modifyNode hRun (Carries.growSize (E := False) hg.wellFormed hSize hRun).later
    fun n => by split <;> rfl

theorem Draft.addAllocSite
    (hg : Draft f g)
    {site : AllocSite}
    (hRun : g.addAllocSite id site = .ok h) :
    Draft f h :=
  hg.modifyNode hRun (Carries.addAllocSite (E := False) hg.wellFormed hRun).later fun _ => rfl

-- Binding Roots

/- A root that can be bound without giving a value two. -/
def Draft.Admits
    (f : FunctionDef)
    (g : Graph) :
    Root → Prop
| .scalar v => ∀ c, g.roots.get? (.formal v) ≠ some c
| .formal v =>
    f.HasPointer v ∧ ∀ c, g.roots.get? (.scalar v) ≠ some c
| .result _ => True
| .global _ => True

open Graph

variable {r : Root} {init? : Option Cell}

theorem Draft.Admits.congr
    (hr : Draft.Admits f g r)
    (hRoots : h.roots = g.roots) :
    Draft.Admits f h r := by
  cases r with
  | scalar v => simpa only [Draft.Admits, hRoots] using hr
  | formal v => simpa only [Draft.Admits, hRoots] using hr
  | result _ => trivial
  | global _ => trivial

theorem Draft.insertRoot
    (hg : Draft f g)
    (hr : Draft.Admits f g r)
    (hHas : g.Has c)
    (hc : g.Inside c) :
    Draft f { g with roots := g.roots.insert r c } := by
  have hGet : ∀ x, (g.roots.insert r c).get? x =
      if x = r then some c else g.roots.get? x :=
    fun x => OrdMap.get?_insert _ _ _ _
  have hm := (Sound.insertRoot (E := False) hg.wellFormed r hHas).merged
  refine ⟨hg.toTight.insertRoot hm hc, hg.wellFormed.insertRoot r hHas, ?_⟩
  intro v d hd
  rw [hGet] at hd ⊢
  split at hd
  · next hEq =>
    rw [← hEq] at hr ⊢
    refine ⟨hr.1, ?_⟩
    rw [if_neg Root.noConfusion]
    exact Option.eq_none_iff_forall_ne_some.mpr hr.2
  · rcases hg.formals v d hd with ⟨hPointer, hNone⟩
    refine ⟨hPointer, ?_⟩
    rw [if_neg, hNone]
    rintro rfl
    exact hr d hd

/- The cell of a root is inside, old or new. -/
theorem Draft.rootTarget
    (hg : Draft f g)
    (hr : Draft.Admits f g r)
    (hInit : ∀ i, init? = some i → g.Inside i)
    (hRun : g.rootTarget r init? = .ok (c, h)) :
    Draft f h ∧ h.Inside c := by
  unfold Graph.rootTarget at hRun
  split at hRun
  · next existing init hRoot =>
    rcases of_bind hRun with ⟨g₁, hUnify, hFind⟩
    have hUnited := hg.unify hUnify
    rcases hUnited.find hFind with ⟨hFound, hInside⟩
    have hRoots := (Fused.unify (T := fun _ => False) hg.wellFormed.freeListed hUnify).roots
    refine ⟨hFound, hInside (hUnited.roots r existing ?_)⟩
    rw [hRoots, hRoot]
  · next existing hRoot =>
    rcases hg.find hRun with ⟨hFound, hInside⟩
    exact ⟨hFound, hInside (hg.roots r _ hRoot)⟩
  · next init hRoot =>
    rcases of_bind hRun with ⟨⟨d, g₁⟩, hFind, hRun⟩
    cases hRun
    rcases hg.find hFind with ⟨hFound, hInside⟩
    have hRoots := (Fused.find (T := fun _ => False) hg.wellFormed.freeListed hFind).1.roots
    rcases (Sound.find (E := False) hg.wellFormed hFind).2 with ⟨hWord, n, _, hSlot⟩
    have hd := hInside (hInit init rfl)
    have hr' : Draft.Admits f g₁ r := hr.congr hRoots
    have hBound := hFound.insertRoot hr' ⟨hasNode_of_live hSlot, hWord⟩ hd
    refine ⟨hBound, hBound.roots r c ?_⟩
    rw [OrdMap.get?_insert, if_pos rfl]
  · next hRoot =>
    cases hRun
    rcases hg.createBlank with ⟨hFresh, hStart⟩
    have hRoots : g.createBlank.2.roots = g.roots := roots_createNode _ _
    have hSlot := (hg.wellFormed.slot_createNode Flags.empty 0).2 (g.createNode Flags.empty 0).1
    rw [if_pos rfl] at hSlot
    have hHas : g.createBlank.2.Has (Cell.start g.createBlank.1) :=
      ⟨hasNode_of_live hSlot, (by decide : 0 < wordBound)⟩
    have hBound := hFresh.insertRoot (hr.congr hRoots) hHas hStart
    exact ⟨hBound, hBound.roots r _ ((OrdMap.get?_insert _ _ _ _).trans (if_pos rfl))⟩

theorem Draft.bindRoot
    (hg : Draft f g)
    (hr : Draft.Admits f g r)
    (hInit : ∀ i, init? = some i → g.Inside i)
    (hRun : g.bindRoot r init? = .ok (c, h)) :
    Draft f h ∧ h.Inside c ∧ (∃ n, h.slot c.node = .live n) ∧
      ∀ x, x ≠ r → h.roots.get? x = g.roots.get? x := by
  rcases bindRoot_eq_ok (E := False) hg.wellFormed hRun with ⟨g₁, hTarget, hNote, hDerived, hLive⟩
  rcases hg.rootTarget hr hInit hTarget with ⟨hBound, hc⟩
  exact ⟨hBound.of_merging hNote.later hDerived, hc.merged hNote.later.merged, hLive,
    fun _ hx => get?_bindRoot_of_ne hg.wellFormed hRun hx⟩

/- A value is looked up as a formal, else as a scalar. -/
theorem Draft.valueCell
    (hg : Draft f g)
    {v : ValueId}
    (hRun : g.valueCell v = .ok (c, h)) :
    Draft f h ∧ h.Inside c ∧ ∃ n, h.slot c.node = .live n := by
  have hLive := live_of_valueCell hg.wellFormed hRun
  unfold Graph.valueCell at hRun
  split at hRun
  · next d hRoot =>
    rcases hg.find hRun with ⟨hFound, hInside⟩
    exact ⟨hFound, hInside (hg.roots _ _ hRoot), hLive⟩
  · next hRoot =>
    have hr : Draft.Admits f g (.scalar v) := by
      intro d hd
      rw [hRoot] at hd
      cases hd
    rcases hg.bindRoot hr (fun i hi => by cases hi) hRun with ⟨hBound, hc, _⟩
    exact ⟨hBound, hc, hLive⟩

end HeapShape
