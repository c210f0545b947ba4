import HeapShape.Proofs.Graph.Copied
import HeapShape.Proofs.Lookup
import HeapShape.Propagation

/-
  Where two graphs meet at a call.

  A call is recorded with the cells of its values. A step of propagation
  then copies one side of each junction and merges the copy with the other
  side. Merges go on while later junctions are copied, so what a junction
  achieves is told of every later graph.

  Main declarations:
    * `Graph.CallAt`
    * `Copier.Meets`
    * `Copier.Grows.join`
    * `Copier.Grows.joinAll`
-/

-- The Cells Of A Call

namespace HeapShape

open Checked

namespace Graph

/- The values of a list, as far as there are, at cells. -/
def ValuesAt
    (g : Graph)
    (values : List (Option ValueId))
    (cells : List (Option Cell)) : Prop :=
  List.Forall₂ (Option.Rel g.ValueAt) values cells

/- The values of a call are at its cells. -/
structure CallAt
    (g : Graph)
    (cs : CallSite)
    (cells : CallSiteCells) : Prop where
  actuals : g.ValuesAt cs.actuals cells.actuals
  result : Option.Rel g.ValueAt cs.result? cells.result?

/- No value is bound both as a formal and as a scalar. -/
def Apart
    (g : Graph) : Prop :=
  ∀ v c, g.roots.get? (.formal v) = some c →
    g.roots.get? (.scalar v) = none

variable {E : Prop} {g h : Graph} {cs : CallSite} {cells : CallSiteCells}

/- Partners in one list have partners in a related list. -/
theorem mem_zip_of_forall₂
    {α β γ : Type}
    {S : β → γ → Prop}
    {xs : List α}
    {ys : List β}
    {zs : List γ}
    (hAll : List.Forall₂ S ys zs)
    {x : α}
    {y : β}
    (hMem : (x, y) ∈ xs.zip ys) :
    ∃ z, (x, z) ∈ xs.zip zs ∧ S y z := by
  induction hAll generalizing xs with
  | nil =>
    rw [List.zip_nil_right] at hMem
    cases hMem
  | cons hHead hTail ih =>
    cases xs with
    | nil => cases hMem
    | cons x' xs =>
      rcases List.mem_cons.mp hMem with hEq | hMem
      · cases hEq
        exact ⟨_, List.mem_cons_self, hHead⟩
      · rcases ih hMem with ⟨z, hz, hyz⟩
        exact ⟨z, List.mem_cons_of_mem _ hz, hyz⟩

theorem ValuesAt.imp
    {values : List (Option ValueId)}
    {cells : List (Option Cell)}
    (hAt : g.ValuesAt values cells)
    (hImp : ∀ v c, g.ValueAt v c → h.ValueAt v c) :
    h.ValuesAt values cells := by
  apply List.Forall₂.imp _ hAt
  intro v? c? hRel
  cases hRel with
  | some hValue => exact .some (hImp _ _ hValue)
  | none => exact .none

theorem CallAt.imp
    (hAt : g.CallAt cs cells)
    (hImp : ∀ v c, g.ValueAt v c → h.ValueAt v c) :
    h.CallAt cs cells := by
  refine ⟨hAt.actuals.imp hImp, ?_⟩
  have hResult := hAt.result
  generalize cs.result? = v?, cells.result? = c? at hResult ⊢
  cases hResult with
  | some hValue => exact .some (hImp _ _ hValue)
  | none => exact .none

variable {v : ValueId}

/- The pointer that a formal gets has a cell in the call. -/
theorem CallAt.exists_pair
    (hAt : g.CallAt cs cells)
    {f : FunctionDef}
    {formal : Formal}
    (hActual : (formal, some v) ∈ f.formals.zip cs.actuals)
    (hPointer : formal.isPointer = true) :
    ∃ c, (formal.value, c) ∈ f.pointerPairs cells.actuals ∧ g.ValueAt v c := by
  rcases mem_zip_of_forall₂ hAt.actuals hActual with ⟨c?, hMem, hRel⟩
  cases hRel with
  | some hValue =>
    refine ⟨_, FunctionDef.mem_pointerPairs.mpr ?_, hValue⟩
    exact ⟨formal, hMem, hPointer, rfl⟩

/- So has the result of the call. -/
theorem CallAt.exists_result
    (hAt : g.CallAt cs cells)
    (hResult : cs.result? = some v) :
    ∃ c, cells.result? = some c ∧ g.ValueAt v c := by
  have hRel := hAt.result
  rw [hResult] at hRel
  cases hc : cells.result? with
  | none =>
    rw [hc] at hRel
    cases hRel
  | some c =>
    rw [hc] at hRel
    cases hRel with
    | some hValue => exact ⟨c, rfl, hValue⟩

/- A value gets a scalar only if it has no formal. -/
theorem Apart.valueCell
    (hg : g.WellFormed)
    (hApart : g.Apart)
    {c : Cell}
    (hRun : g.valueCell v = .ok (c, h)) :
    h.Apart := by
  unfold Graph.valueCell at hRun
  split at hRun
  · have hRoots := (Fused.find (T := fun _ => False) hg.freeListed hRun).1.roots
    intro w d hFormal
    rw [hRoots] at hFormal ⊢
    exact hApart w d hFormal
  · next hNone =>
    intro w d hFormal
    have hKept : ∀ x, x ≠ Root.scalar v → h.roots.get? x = g.roots.get? x :=
      fun x hx => get?_bindRoot_of_ne hg hRun hx
    rw [hKept _ Root.noConfusion] at hFormal
    rw [hKept, hApart w d hFormal]
    rintro hEq
    cases hEq
    rw [hNone] at hFormal
    cases hFormal

end Graph

open Graph

variable {E : Prop} {g h : Graph} {cs : CallSite} {cells : CallSiteCells}

/- The cells of values, and what looking them up changes. -/
theorem valueCells_eq_ok
    (hg : g.WellFormed)
    {values : List (Option ValueId)}
    {cells : List (Option Cell)}
    (hRun : valueCells g values = .ok (cells, h)) :
    Sound E g h (fun last => LinksHold E g last) ∧ Later g h ∧ h.ValuesAt values cells ∧
      (g.Apart → h.Apart) := by
  induction values generalizing g cells with
  | nil =>
    cases hRun
    exact ⟨.refl hg, .refl hg, .nil, id⟩
  | cons v? rest ih =>
    cases v? with
    | none =>
      rw [valueCells] at hRun
      rcases of_bind hRun with ⟨⟨others, g₁⟩, hRest, hRun⟩
      cases hRun
      rcases ih hg hRest with ⟨hSound, hLater, hAt, hApart⟩
      exact ⟨hSound, hLater, .cons .none hAt, hApart⟩
    | some v =>
      rw [valueCells] at hRun
      rcases of_bind hRun with ⟨⟨c, g₁⟩, hCell, hRun⟩
      rcases of_bind hRun with ⟨⟨others, g₂⟩, hRest, hRun⟩
      cases hRun
      have hFirst := Carries.valueCell (E := False) hg hCell
      have hHere := (hFirst.here False.elim).2
      rcases ih hFirst.later.wellFormed hRest with ⟨hSound, hLater, hAt, hApart⟩
      refine ⟨(Sound.valueCell hg hCell).before hSound, hFirst.later.trans hLater, ?_, ?_⟩
      · exact .cons (.some (hHere.later hLater)) hAt
      · exact fun h => hApart (h.valueCell hg hCell)

/- The cells of a call, and what recording them changes. -/
theorem callSiteCells_eq_ok
    (hg : g.WellFormed)
    (hRun : callSiteCells g cs = .ok (cells, h)) :
    Sound E g h (fun last => LinksHold E g last) ∧ Later g h ∧ h.CallAt cs cells ∧
      (g.Apart → h.Apart) := by
  unfold callSiteCells at hRun
  rcases of_bind hRun with ⟨⟨actuals, g₁⟩, hValues, hRun⟩
  rcases valueCells_eq_ok (E := E) hg hValues with ⟨hSound, hLater, hAt, hApart⟩
  cases hResult : cs.result? with
  | none =>
    rw [hResult] at hRun
    cases hRun
    refine ⟨hSound, hLater, ⟨hAt, ?_⟩, hApart⟩
    rw [hResult]
    exact .none
  | some v =>
    rw [hResult] at hRun
    dsimp only at hRun
    rcases of_bind hRun with ⟨⟨c, g₂⟩, hCell, hRun⟩
    cases hRun
    have hg₁ := hLater.wellFormed
    have hLast := Carries.valueCell (E := False) hg₁ hCell
    refine ⟨hSound.before (Sound.valueCell hg₁ hCell), hLater.trans hLast.later, ⟨?_, ?_⟩, ?_⟩
    · exact hAt.imp fun v c hv => hv.later hLast.later
    · rw [hResult]
      exact .some (hLast.here False.elim).2
    · exact fun h => (hApart h).valueCell hg₁ hCell

-- Junctions

/-
  A look-up of a place in a graph, which binds roots of `R` only. What is
  said of the place by `P` stays true.
-/
def Finds
    (E : Prop)
    (R : Root → Prop)
    (own : Graph → Checked (Cell × Graph))
    (P : Cell → Graph → Prop) : Prop :=
  ∀ g place h, g.WellFormed → own g = .ok (place, h) →
    (∀ r, ¬ R r → h.roots.get? r = g.roots.get? r) ∧
    Graph.Carries E g h (fun _ => True) fun last =>
      Graph.LinksHold E g last ∧ P place last

namespace Copier

/-
  The node of a source cell has a copy, and the image of the cell in it
  meets a place of the destination.
-/
def Meets
    (E : Prop)
    (k : Copier)
    (last : Graph)
    (force : Bool)
    (c : Cell)
    (P : Cell → Graph → Prop) : Prop :=
  ∃ d copy place, k.source.resolve c = .ok d ∧
    k.copies.get? d.node = some copy ∧
    (force = true → k.options.stripAllocas = true →
      d.node ∈ k.forced) ∧
    P place last ∧
    last.SameNode place
      { node := copy, offset := d.offset } ∧
    (E → last.SameAddress place
      { node := copy, offset := d.offset })

/- Both sides of a junction meet, if there are both. -/
def Joined
    (E : Prop)
    (k : Copier)
    (last : Graph)
    (j : Junction)
    (P : Cell → Graph → Prop) : Prop :=
  ∀ c, j.cell = .ok (some c) → j.place?.isSome = true →
    k.Meets E last j.force c P

end Copier

open Graph

variable {R : Root → Prop} {own : Graph → Checked (Cell × Graph)} {P : Cell → Graph → Prop}

/- A place that is given. -/
theorem finds_given
    {c : Cell}
    (hc : ∀ last, P c last) :
    Finds E R (fun g => .ok (c, g)) P := by
  intro g place h hg hRun
  cases hRun
  refine ⟨fun _ _ => rfl, (Carries.refl hg).imp (fun _ _ hS => hS) ?_⟩
  exact fun last _ _ hLinks => ⟨hLinks, hc last⟩

/- The cell of a root. -/
theorem finds_root
    {r : Root}
    (hr : R r) :
    Finds E R (fun g => g.bindRoot r none) (fun place last => last.RootAt r place) := by
  intro g place h hg hRun
  refine ⟨?_, (Carries.bindRoot hg hRun).imp
    (fun _ _ hS => hS) fun _ _ _ hAll => ⟨hAll.1, hAll.2.1⟩⟩
  intro x hx
  apply get?_bindRoot_of_ne hg hRun
  rintro rfl
  exact hx hr

namespace Copier

variable {k k' : Copier} {last : Graph} {force : Bool} {c : Cell} {j : Junction}

theorem Meets.extended
    (hMeets : k.Meets E last force c P)
    (h : Extends k k') :
    k'.Meets E last force c P := by
  rcases hMeets with ⟨d, copy, place, hResolve, hCopy, hForced, hPlace⟩
  refine ⟨d, copy, place, ?_, h.copies _ _ hCopy, ?_, hPlace⟩
  · rw [h.source, hResolve]
  · intro hForce hStrip
    rw [h.options] at hStrip
    exact h.forced _ (hForced hForce hStrip)

/- A copier that has copied nothing. -/
theorem pictured_start
    {source dest : Graph}
    (hSource : source.WellFormed)
    (hDest : dest.WellFormed)
    (options : CopyOptions) :
    let k : Copier := { source := source, dest := dest, options := options }
    k.Pictured ∧ k.ForcedCopied := by
  refine ⟨⟨hSource, hDest, ?_⟩, ?_⟩
  · intro src c hCopy
    cases hCopy
  · intro src hForced
    cases hForced

/- Merging the image of a cell with a place. -/
theorem Grows.copyAndMerge
    (hk : k.Pictured)
    (hForced : k.ForcedCopied)
    (hOwn : Finds E R own P)
    (hRun : copyAndMerge k c force own = .ok k') :
    Grows E R k k' fun last => NewLinked E k k' last ∧ k'.Meets E last force c P := by
  unfold HeapShape.copyAndMerge at hRun
  rcases of_bind hRun with ⟨⟨image, k₁⟩, hCopyCell, hRun⟩
  unfold mapDest at hRun
  rcases of_bind hRun with ⟨dest, hDest, hRun⟩
  cases hRun
  rcases of_bind hDest with ⟨⟨place, g₁⟩, hPlace, hUnify⟩
  rcases Grows.copyCell (E := E) (R := R) hk hForced hCopyCell with
    ⟨d, copy, hResolve, hCopy, hIn, hGrows⟩
  rcases hOwn _ _ _ hGrows.pictured.dest hPlace with ⟨hBound, hFound⟩
  have hg₁ := hFound.later.wellFormed
  have hUnited := Carries.unify (E := E) hg₁ hUnify
  have hBound' := (Fused.unify (T := fun _ => False) hg₁.freeListed hUnify).roots
  have hBoth := (hFound.before hUnited).imp (Q := fun last => LinksHold E k₁.dest last ∧
      P place last ∧ last.SameNode place image ∧ (E → last.SameAddress place image))
    (fun _ _ hS => hS)
    fun last _ _ hAll =>
      ⟨hAll.1.1, hAll.1.2, hAll.2.1, hAll.2.2⟩
  have hMerged := Grows.of_carries (R := R) hGrows.pictured
    (fun r hr => by rw [hBound', hBound r hr]) hBoth
  apply (hGrows.trans hMerged).imp
  rintro last _ ⟨⟨hNew, hImage⟩, hP, hNode, hAddress⟩
  refine ⟨hNew, d, copy, place, ?_, hCopy, ?_, hP, hNode.trans hImage.symm.sameNode,
    fun hEx => (hAddress hEx).trans hImage.symm.sameAddress⟩
  · exact (congrArg (Graph.resolve · c) hGrows.extension.source).trans hResolve
  · intro hForce hStrip
    rw [← hGrows.extension.options] at hIn
    exact hIn hForce hStrip

/- One junction. -/
theorem Grows.join
    (hk : k.Pictured)
    (hForced : k.ForcedCopied)
    (hOwn : ∀ own, j.place? = some own → Finds E R own P)
    (hRun : k.join j = .ok k') :
    Grows E R k k' fun last => NewLinked E k k' last ∧ k'.Joined E last j P := by
  unfold Copier.join at hRun
  rcases of_bind hRun with ⟨c?, hCell, hRun⟩
  cases c? with
  | none =>
    cases hRun
    apply (Grows.refl hk).imp
    intro last _ _
    refine ⟨NewLinked.refl, ?_⟩
    intro c hSome
    rw [hCell] at hSome
    cases hSome
  | some d =>
    cases hPlace : j.place? with
    | none =>
      rw [hPlace] at hRun
      cases hRun
      apply (Grows.refl hk).imp
      intro last _ _
      refine ⟨NewLinked.refl, ?_⟩
      intro c _ hIs
      rw [hPlace] at hIs
      cases hIs
    | some own =>
      rw [hPlace] at hRun
      apply (Grows.copyAndMerge hk hForced (hOwn own hPlace) hRun).imp
      rintro last _ ⟨hNew, hMeets⟩
      refine ⟨hNew, ?_⟩
      intro c hSome _
      rw [hCell] at hSome
      cases hSome
      exact hMeets

/- One junction after the other. -/
theorem Grows.joinAll
    {α : Type}
    {J : α → Junction}
    {P : α → Cell → Graph → Prop}
    {xs : List α}
    (hk : k.Pictured)
    (hForced : k.ForcedCopied)
    (hOwn : ∀ x ∈ xs, ∀ own, (J x).place? = some own → Finds E R own (P x))
    (hRun : (xs.map J).foldlM Copier.join k = .ok k') :
    Grows E R k k' fun last => NewLinked E k k' last ∧
      ∀ x ∈ xs, k'.Joined E last (J x) (P x) := by
  induction xs generalizing k with
  | nil =>
    cases hRun
    apply (Grows.refl hk).imp
    intro last _ _
    exact ⟨NewLinked.refl, fun x hx => by cases hx⟩
  | cons x xs ih =>
    rw [List.map_cons, List.foldlM_cons] at hRun
    rcases of_bind hRun with ⟨k₁, hStep, hRun⟩
    have hFirst := Grows.join hk hForced (hOwn x List.mem_cons_self) hStep
    have hRest := ih hFirst.pictured (hFirst.forced hForced)
      (fun y hy => hOwn y (List.mem_cons_of_mem _ hy)) hRun
    apply (hFirst.trans hRest).imp
    rintro last _ ⟨⟨hNew, hHere⟩, hNew', hThere⟩
    refine ⟨hNew.trans hNew' hRest.extension, ?_⟩
    intro y hy
    rcases List.mem_cons.mp hy with rfl | hy
    · exact fun c hCell hPlace =>
        (hHere c hCell hPlace).extended hRest.extension
    · exact hThere y hy

end Copier

end HeapShape
