import HeapShape.Proofs.Lowering.Overflow
import HeapShape.Proofs.Pass.Marked

/-
  The two look-ups of a value.

  A value may have the cell of a scalar and that of a formal. Reading a
  graph takes the scalar first, work on it takes the formal first. The two
  agree on a value that has only one of the cells, so on all but the formals
  to which an operation gives a new meaning.

  Main declarations:
    * `Graph.Tight.lookups_agree`
    * `FunctionDef.Splits`
    * `value_lookups_agree`
-/

-- The Cell Of A Value

namespace HeapShape

open Checked

namespace Graph

variable {g : Graph} {c : Cell} {v : ValueId}

/- A cell inside its node is found where it is resolved. -/
theorem Inside.found
    (hc : g.Inside c) :
    ∃ d h n, g.resolve c = .ok d ∧ g.find c = .ok (d, h) ∧ h.slot d.node = .live n := by
  rcases hc with ⟨m, n, k, hLeads, hLive, hWord, _⟩
  rcases (find_of_leads hLeads c.offset).1 hWord with ⟨h, hFind, hs⟩
  refine ⟨_, h, n, ?_, hFind, hs.live_iff.mpr hLive⟩
  have hResolve := resolve_of_leads hLeads (o := c.offset) (by omega)
  rw [shifted_eq, if_pos hWord] at hResolve
  exact hResolve

/- A value with one cell is found there by both look-ups. -/
theorem Tight.lookups_agree
    (hg : g.Tight)
    (hCell : g.hasCell v = true)
    (hOne : g.roots.get? (.scalar v) = none ∨ g.roots.get? (.formal v) = none) :
    ∃ c h, g.cell? v = .ok (some c) ∧ g.valueCell v = .ok (c, h) := by
  unfold hasCell OrdMap.contains at hCell
  unfold cell? rootCell? Graph.valueCell scalarCell
  cases hScalar : g.roots.get? (.scalar v) with
  | none =>
    cases hFormal : g.roots.get? (.formal v) with
    | none => simp [hScalar, hFormal] at hCell
    | some c =>
      rcases (hg.roots _ c hFormal).found with ⟨d, h, _, hResolve, hFind, _⟩
      refine ⟨d, h, ?_, hFind⟩
      rw [Option.mapM_some, hResolve]
      rfl
  | some c =>
    rcases (hg.roots _ c hScalar).found with ⟨d, h, n, hResolve, hFind, hLive⟩
    rw [hOne.resolve_left (by simp [hScalar])]
    unfold Graph.bindRoot rootTarget noteUniqueScalar
    rw [hScalar]
    dsimp only
    rw [hFind, ok_bind]
    dsimp only
    rw [modifyContents_of_live hLive]
    refine ⟨d, _, ?_, rfl⟩
    rw [Option.mapM_some, hResolve]
    rfl

end Graph

-- Lowered Functions

open Graph

/-
  A value that may come to have two cells: as a formal, and as a scalar.
-/
def FunctionDef.Splits
    (f : FunctionDef)
    (g : Graph)
    (v : ValueId) : Prop :=
  (f.HasPointer v ∨ g.roots.get? (.formal v) ≠ none) ∧
    ((∃ op ∈ f.body, v ∈ op.dst?) ∨
      g.roots.get? (.scalar v) ≠ none)

instance
    (f : FunctionDef)
    (g : Graph)
    (v : ValueId) : Decidable (f.Splits g v) :=
  inferInstanceAs (Decidable (_ ∧ _))

/-
  Values are followed: those that are bound as formals, and those that may
  be bound as scalars and as formals.
-/
def Watch.values
    (bound scalar formal : ValueId → Prop) : Watch where
  site := fun _ => False
  node := fun _ => False
  formal := bound
  root := fun
  | .scalar v => scalar v
  | .formal v => formal v
  | _ => True
  loose := False
  full := True
  known := False.elim

variable {bound scalar formal : ValueId → Prop} {p : Program} {f : FunctionDef} {g h : Graph}

theorem admits_values
    {s : Nat}
    (hg : g.WellFormed)
    (hTight : g.Tight)
    (hBound : ∀ v, bound v → ∃ c, g.roots.get? (.formal v) = some c) :
    (Watch.values bound scalar formal).Admits s g where
  toRoomy := hg.roomy
  tight := fun _ => hTight
  formals := hBound

/-
  Where a function is lowered into a graph, both look-ups of a value give
  one cell, unless the value is a formal and is bound as a scalar, too.
-/
theorem value_lookups_agree
    (hg : g.WellFormed)
    (hTight : g.Tight)
    (hSizes : ∀ decl ∈ p.globals, decl.size < wordBound)
    (hWords : ∀ op ∈ f.body, op.inWords = true)
    (hRun : lowerFunction p f g = .ok (.ok h)) :
    h.WellFormed ∧ h.Tight ∧ ∀ v, h.hasCell v = true → ¬ f.Splits g v →
        ∃ c h', h.cell? v = .ok (some c) ∧ h.valueCell v = .ok (c, h') := by
  have hg' := hg.addFunction f.id
  rcases of_bind hRun with ⟨g₁, hSigned, hBody⟩
  have hFirst := (spends_lowerSignature
    (w := .values (fun _ => False) (fun _ => False) f.HasPointer)
    (admits_values (s := _) hg' (hTight.addFunction f.id)
      fun _ hNone => hNone.elim)
    (fun formal hMem hPointer => ⟨formal, hMem, hPointer, rfl⟩)
    trivial (Nat.le_refl _)).of_eq_ok hSigned
  have hBinds := bindsFormals_of_lowerSignature hg' hSigned
  have hRest := ((givesUnless_lowerBody (w := .values
      (fun v => f.HasPointer v ∨ g.roots.get? (.formal v) ≠ none)
      (fun v => (∃ op ∈ f.body, v ∈ op.dst?) ∨
        ¬ (f.HasPointer v ∨ g.roots.get? (.formal v) ≠ none))
      fun _ => False)
    (admits_values (s := _) hFirst.wellFormed
      (hFirst.tight not_false) ?_) hSizes hWords ?_
    (Nat.le_refl _)).of_eq_ok hBody).1 h rfl
  · refine ⟨hRest.wellFormed, hRest.tight not_false, ?_⟩
    intro v hCell hNot
    refine (hRest.tight not_false).lookups_agree hCell ?_
    by_contra hBoth
    rw [not_or] at hBoth
    rcases hBoth with ⟨hScalar, hFormal⟩
    have hIs : f.HasPointer v ∨ g.roots.get? (.formal v) ≠ none := by
      by_contra hNeither
      rw [not_or, not_not] at hNeither
      by_cases hMid : g₁.roots.get? (.formal v) = none
      · exact hRest.bound _ hMid hFormal
      · exact hNeither.1 (hFirst.bound _ hNeither.2 hMid)
    refine hNot ⟨hIs, ?_⟩
    by_cases hMid : g₁.roots.get? (.scalar v) = none
    · have hNew : (∃ op ∈ f.body, v ∈ op.dst?) ∨ _ := hRest.bound _ hMid hScalar
      exact .inl (hNew.resolve_right (not_not.mpr hIs))
    · exact .inr fun hNone => hFirst.bound _ hNone hMid
  · rintro v (hPointer | hOld)
    · rcases hPointer with ⟨formal, hMem, hPointer, rfl⟩
      exact hBinds formal hMem hPointer
    · rcases Option.ne_none_iff_exists'.mp hOld with ⟨c, hRoot⟩
      exact ⟨c, hFirst.roots _ c hRoot⟩
  · exact ⟨fun _ _ _ _ => not_false, fun op hMem v hv => .inl ⟨op, hMem, hv⟩,
      fun v => (em _).imp_right .inr, fun _ => trivial, trivial⟩

/-
  A function that gives its formal a new meaning and hands it on.
-/
def reboundFormal : FunctionDef where
  id := 0
  name := "main"
  formals := [{ value := 0, isPointer := true },
    { value := 1, isPointer := true }]
  body := [.alloc 0 0 .heap 8 none, .store 1 (some 0) none]

/- The look-ups differ on it, and agree on the other one. -/
theorem value_lookups_agree_of_reboundFormal :
    ∃ h, lowerFunction {} reboundFormal {} = .ok (.ok h) ∧
      reboundFormal.Splits {} 0 ∧
      h.cell? 0 = .ok (some ⟨2, 0⟩) ∧
      (h.valueCell 0).map Prod.fst = .ok ⟨0, 0⟩ ∧
      ¬ reboundFormal.Splits {} 1 ∧
      ∃ c i, h.cell? 1 = .ok (some c) ∧ h.valueCell 1 = .ok (c, i) := by
  rcases Lowered.exists_graph (m := lowerFunction {} reboundFormal {})
      (P := fun h => h.cell? 0 = .ok (some ⟨2, 0⟩) ∧
        (h.valueCell 0).map Prod.fst = .ok ⟨0, 0⟩ ∧
        h.hasCell 1 = true)
      (by decide +kernel) with ⟨h, hRun, hRead, hWork, hCell⟩
  have hOther : ¬ reboundFormal.Splits {} 1 := by decide
  exact ⟨h, hRun, by decide, hRead, hWork, hOther,
    (value_lookups_agree (wellFormed_empty {}) (tight_empty {})
      (by decide) (by decide) hRun).2.2 1 hCell hOther⟩

end HeapShape
