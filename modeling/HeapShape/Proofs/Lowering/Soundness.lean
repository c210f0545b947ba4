import HeapShape.Proofs.Lowering.Operation

/-
  The graph of a function satisfies its operations.

  The steps of the operations are put together along the body. What each of
  them achieves is told of the last graph, so nothing has to be shown anew
  when another operation follows.

  Main declarations:
    * `carries_lowerBody`
    * `FunctionDef.keepsStrides`
    * `lowering_satisfies_operations`
    * `store_lost_in_widenedArray`
-/

-- Functions

namespace HeapShape

open Checked Graph

variable {E : Prop} {p : Program} {f : FunctionDef}
variable {g h : Graph} {op : Operation} {ops : List Operation} {m : Lowered}

/- A sequence succeeds exactly if both steps do. -/
theorem Lowered.andThen_eq_ok
    {next : Graph → Lowered}
    (hRun : m.andThen next = .ok (.ok h)) :
    ∃ g, m = .ok (.ok g) ∧ next g = .ok (.ok h) := by
  unfold Lowered.andThen at hRun
  rcases of_bind hRun with ⟨outcome, rfl, hRun⟩
  cases outcome with
  | error e => cases hRun
  | ok g => exact ⟨g, rfl, hRun⟩

theorem lowerOperations_eq_ok
    (hRun : ops.foldl (fun m op => Lowered.andThen m fun g =>
      lowerOperation p f g op) m = .ok (.ok h)) :
    ∃ g, m = .ok (.ok g) ∧ lowerBody p f g ops = .ok (.ok h) := by
  induction ops generalizing m with
  | nil => exact ⟨h, hRun, rfl⟩
  | cons op ops ih =>
    rcases ih hRun with ⟨g₁, hFirst, hRest⟩
    rcases Lowered.andThen_eq_ok hFirst with ⟨g, rfl, hOp⟩
    refine ⟨g, rfl, ?_⟩
    unfold lowerBody at hRest ⊢
    rw [List.foldl_cons]
    have hStep : Lowered.andThen (.ok (.ok g)) (fun g =>
        lowerOperation p f g op) = .ok (.ok g₁) := hOp
    rw [hStep, hRest]

/- The operations of a body are lowered one by one. -/
theorem lowerBody_cons_eq_ok
    (hRun : lowerBody p f g (op :: ops) = .ok (.ok h)) :
    ∃ g₁, lowerOperation p f g op = .ok (.ok g₁) ∧
      lowerBody p f g₁ ops = .ok (.ok h) := by
  rw [lowerBody, List.foldl_cons] at hRun
  rcases lowerOperations_eq_ok hRun with ⟨g₁, hFirst, hRest⟩
  rcases Lowered.andThen_eq_ok hFirst with ⟨g', hEq, hOp⟩
  cases hEq
  exact ⟨g₁, hOp, hRest⟩

/- Whatever follows an operation, its constraint holds. -/
theorem carries_lowerBody
    (hSizes : ∀ decl ∈ p.globals, decl.size < wordBound)
    (hWords : ∀ op ∈ ops, op.inWords = true)
    (hDst : ∀ op ∈ ops, ∀ v ∈ op.dst?, ¬ f.HasPointer v)
    (hg : Draft f g)
    (hRun : lowerBody p f g ops = .ok (.ok h)) :
    Draft f h ∧ Carries E g h (fun last => Draft f last ∧
        keepStrides p f last g ops = true)
        fun last => LinksHold E g last ∧
          (Draft f last → ∀ op ∈ ops, op.Holds E f last) := by
  induction ops generalizing g with
  | nil =>
    cases hRun
    refine ⟨hg, (Carries.refl hg.wellFormed).imp (fun _ _ _ => trivial) ?_⟩
    intro last _ _ hLinks
    exact ⟨hLinks, fun _ op hOp => by cases hOp⟩
  | cons op ops ih =>
    rcases lowerBody_cons_eq_ok hRun with ⟨g₁, hOp, hRest⟩
    rcases carries_lowerOperation (E := E) hg hSizes (hWords op List.mem_cons_self)
        (hDst op List.mem_cons_self) hOp with
      ⟨hg₁, hFirst⟩
    rcases ih (fun o ho => hWords o (List.mem_cons_of_mem _ ho))
        (fun o ho => hDst o (List.mem_cons_of_mem _ ho))
        hg₁ hRest with ⟨hh, hTail⟩
    refine ⟨hh, (hFirst.trans hTail).imp ?_ ?_⟩
    · rintro last _ ⟨hDraft, hKeep⟩
      rw [keepStrides, hOp] at hKeep
      simp only [Bool.and_eq_true] at hKeep
      exact ⟨⟨hDraft, hKeep.1⟩, hDraft, hKeep.2⟩
    · rintro last _ _ ⟨⟨hLinks, hHead⟩, hAll⟩
      refine ⟨hLinks, fun hDraft o ho => ?_⟩
      rcases List.mem_cons.mp ho with rfl | ho
      · exact hHead hDraft
      · exact hAll hDraft o ho

/- The cells of the formals and of the result. -/
theorem carries_lowerSignature
    (hg : Draft f g)
    (hScalars : ∀ v c, g.roots.get? (.scalar v) ≠ some c)
    (hRun : lowerSignature f g = .ok h) :
    Draft f h ∧ Carries E g h (fun _ => True) fun last => LinksHold E g last := by
  unfold lowerSignature at hRun
  rcases of_bind hRun with ⟨g₁, hFormals, hRun⟩
  have hBound : Draft f g₁ ∧ (∀ v c, g₁.roots.get? (.scalar v) ≠ some c) ∧
      Carries E g g₁ (fun _ => True) fun last =>
        LinksHold E g last := by
    refine foldlM_induction (P := fun g₁ => Draft f g₁ ∧
        (∀ v c, g₁.roots.get? (.scalar v) ≠ some c) ∧
        Carries E g g₁ (fun _ => True) fun last =>
          LinksHold E g last)
      ?_ ⟨hg, hScalars, .refl hg.wellFormed⟩ hFormals
    rintro a formal hMem b ⟨ha, hNone, hStep⟩ hBind
    rcases of_bind hBind with ⟨⟨c, g₂⟩, hBind, hEq⟩
    cases hEq
    rcases List.mem_filter.mp hMem with ⟨hFormal, hPointer⟩
    have hr : Draft.Admits f a (.formal formal.value) := ⟨⟨formal, hFormal, hPointer, rfl⟩, hNone _⟩
    rcases ha.bindRoot hr (fun i hi => by cases hi) hBind with ⟨hb, _, _, hOther⟩
    refine ⟨hb, ?_, hStep.keep ((Carries.bindRoot
      ha.wellFormed hBind).imp (fun _ _ hS => hS) fun _ _ _ hAll => hAll.1)⟩
    intro v d hd
    rw [hOther _ Root.noConfusion] at hd
    exact hNone v d hd
  rcases hBound with ⟨hg₁, _, hStep⟩
  split at hRun
  · rcases of_bind hRun with ⟨⟨c, g₂⟩, hResult, hEq⟩
    cases hEq
    refine ⟨(hg₁.bindRoot (r := .result f.id) trivial (fun i hi => by cases hi) hResult).1, ?_⟩
    exact hStep.keep ((Carries.bindRoot hg₁.wellFormed
      hResult).imp (fun _ _ hS => hS) fun _ _ _ hAll => hAll.1)
  · cases hRun
    exact ⟨hg₁, hStep⟩

/- The cells of the values of calls. -/
theorem carries_lowerCalls
    (hg : Draft f g)
    (hRun : lowerCalls p f g = .ok h) :
    Draft f h ∧ Carries E g h (fun _ => True) fun last => LinksHold E g last := by
  unfold lowerCalls at hRun
  refine foldlM_induction (P := fun h => Draft f h ∧ Carries E g h (fun _ => True) fun last =>
        LinksHold E g last)
    ?_ ⟨hg, .refl hg.wellFormed⟩ hRun
  rintro a v _ b ⟨ha, hStep⟩ hValue
  rcases of_bind hValue with ⟨⟨c, g₁⟩, hValue, hEq⟩
  cases hEq
  refine ⟨(ha.valueCell hValue).1, hStep.keep ((Carries.valueCell ha.wellFormed hValue).imp
      (fun _ _ hS => hS) fun _ _ _ hAll => hAll.1)⟩

/- The graph in which a function begins is a draft. -/
theorem draft_empty
    (f : FunctionDef)
    (config : GraphConfig) :
    Draft f (({ config := config } : Graph).addFunction f.id) where
  wellFormed := (wellFormed_empty config).congr rfl rfl rfl rfl
  roots := by
    intro r c hRoot
    cases hRoot
  targets := by
    rintro t ⟨id, n, k, hSlot, _⟩
    cases hSlot
  formals := by
    intro v c hRoot
    cases hRoot

/-
  Whether the arrays of a function keep the strides they were made with
  until its graph is complete.
-/
def FunctionDef.keepsStrides
    (f : FunctionDef)
    (p : Program)
    (config : GraphConfig)
    (g : Graph) : Bool :=
  (lowerSignature f (({ config := config } : Graph).addFunction
    f.id)).toOption.any fun start =>
      keepStrides p f g start f.body

theorem holds_of_lowerFunction
    {config : GraphConfig}
    (hSizes : ∀ decl ∈ p.globals, decl.size < wordBound)
    (hWords : ∀ op ∈ f.body, op.inWords = true)
    (hDst : ∀ op ∈ f.body, ∀ v ∈ op.dst?, ¬ f.HasPointer v)
    (hRun : lowerFunction p f { config := config } =
      .ok (.ok g))
    (hKeeps : E → f.keepsStrides p config g = true) :
    ∀ op ∈ f.body, op.Holds E f g := by
  have hStart := draft_empty f config
  unfold lowerFunction at hRun
  rcases of_bind hRun with ⟨g₁, hSignature, hRun⟩
  rcases Lowered.andThen_eq_ok hRun with ⟨g₂, hBody, hRun⟩
  have hCalls := Lowered.eq_ok_of_lift hRun
  rcases carries_lowerSignature (E := E) hStart (fun v c hRoot => by cases hRoot) hSignature with
    ⟨hg₁, hFirst⟩
  rcases carries_lowerBody (E := E) hSizes hWords hDst hg₁ hBody with ⟨hg₂, hSecond⟩
  rcases carries_lowerCalls (E := E) hg₂ hCalls with ⟨hg, hThird⟩
  have hAll := (hFirst.trans hSecond).keep hThird
  have hNone : SameStrides (({ config := config } : Graph).addFunction f.id) g := by
    intro id n m k n' hSlot
    cases hSlot
  have hStrides : E → keepStrides p f g g₁ f.body = true := by
    intro hEx
    have hAny := hKeeps hEx
    unfold FunctionDef.keepsStrides at hAny
    rw [hSignature] at hAny
    exact hAny
  have hHere := hAll.here fun hEx =>
    ⟨hNone, trivial, hg, hStrides hEx⟩
  exact hHere.2 hg

/-
  The graph of a function satisfies the constraint of every operation of its
  body, node by node. Addresses agree too if arrays keep their strides.
-/
theorem lowering_satisfies_operations
    {p : Program}
    {f : FunctionDef}
    {config : GraphConfig}
    {g : Graph}
    (hSizes : ∀ decl ∈ p.globals, decl.size < wordBound)
    (hWords : ∀ op ∈ f.body, op.inWords = true)
    (hDst : ∀ op ∈ f.body, ∀ v ∈ op.dst?, ¬ f.HasPointer v)
    (hRun : lowerFunction p f { config := config } =
      .ok (.ok g)) :
    (∀ op ∈ f.body, op.Holds False f g) ∧
    (f.keepsStrides p config g = true →
      ∀ op ∈ f.body, op.Holds True f g) :=
  ⟨holds_of_lowerFunction hSizes hWords hDst hRun False.elim,
    fun hKeeps => holds_of_lowerFunction hSizes hWords hDst
      hRun fun _ => hKeeps⟩

/- A property of a lowered graph, found by evaluation. -/
theorem Lowered.exists_graph
    {P : Graph → Prop}
    [DecidablePred P]
    (hAny : m.graph?.any (fun g => decide (P g)) = true) :
    ∃ g, m = .ok (.ok g) ∧ P g := by
  simp only [Option.any_eq_true, decide_eq_true_eq, Lowered.graph?, Option.bind_eq_some_iff,
    Checked.toOption_eq_some_iff] at hAny
  rcases hAny with ⟨g, ⟨outcome, rfl, rfl⟩, hP⟩
  exact ⟨g, rfl, hP⟩

/-
  A function that links the elements of an array to a list in a global and
  gives back what it reads there.
-/
def listFunction : FunctionDef where
  id := 0
  name := "list"
  formals := [{ value := 0, isPointer := true }]
  returnsPointer := true
  body :=
    [.alloc 1 0 .heap 64 (some "list"),
      .indexAddr 2 1 16,
      .fieldAddr 3 2 24,
      .store 3 (some 0) (some "ptr"),
      .globalAddr 4 0,
      .store 4 (some 3) none,
      .load 5 4 none,
      .load 6 5 (some "ptr"),
      .copy 7 6,
      .store 7 (some 4) none,
      .ptrToInt 7,
      .intToPtr 8,
      .store 5 (some 8) (some "ptr"),
      .ret 6,
      .indexAddr 9 5 8]

/-
  Later operations merge the formal, the result and the integer read as a
  pointer, and ask for a smaller stride; all constraints still hold.
-/
theorem lowering_satisfies_operations_of_listFunction :
    ∃ g, lowerFunction
        { globals := [{ id := 0, name := "head", size := 8 }] }
        listFunction { config := { typeAwareFields := true } } =
          .ok (.ok g) ∧
      listFunction.keepsStrides
        { globals := [{ id := 0, name := "head", size := 8 }] }
        { typeAwareFields := true } g = true ∧
      g.cell? 8 = g.rootCell? (.result 0) ∧
      ∀ op ∈ listFunction.body,
        op.Holds True listFunction g := by
  rcases Lowered.exists_graph
      (m := lowerFunction
        { globals := [{ id := 0, name := "head", size := 8 }] }
        listFunction { config := { typeAwareFields := true } })
      (P := fun g => listFunction.keepsStrides
        { globals := [{ id := 0, name := "head", size := 8 }] }
        { typeAwareFields := true } g = true ∧
        g.cell? 8 = g.rootCell? (.result 0))
      (by decide +kernel) with ⟨g, hRun, hKeeps, hSame⟩
  exact ⟨g, hRun, hKeeps, hSame,
    (lowering_satisfies_operations (by decide) (by decide)
      (by decide) hRun).2 hKeeps⟩

/-
  A function that stores into the second element of an array and then takes
  the array by elements twice as wide.
-/
def widenedArray : FunctionDef where
  id := 0
  name := "widen"
  body :=
    [.alloc 0 0 .heap 64 none, .alloc 1 1 .heap 8 none,
      .indexAddr 2 0 8, .fieldAddr 3 2 8,
      .store 3 (some 1) none, .indexAddr 4 0 16]

/- What was stored there is no longer found. -/
theorem store_lost_in_widenedArray :
    ∃ g, lowerFunction {} widenedArray {} = .ok (.ok g) ∧
      .store 3 (some 1) none ∈ widenedArray.body ∧
      ¬ (Operation.store 3 (some 1) none).Holds True
        widenedArray g := by
  rcases Lowered.exists_graph
      (m := lowerFunction {} widenedArray {})
      (P := fun g => g.cell? 3 = .ok (some ⟨0, 8⟩) ∧
        g.link? ⟨0, 8⟩ none = .ok none)
      (by decide +kernel) with ⟨g, hRun, hCell, hLink⟩
  refine ⟨g, hRun, by decide, ?_⟩
  rintro ⟨a, hAddr, _, hStored⟩
  rcases hStored 1 rfl with ⟨v, _, _, hExact⟩
  rcases hExact trivial with ⟨u, e, hFound, _⟩
  rw [hCell] at hAddr
  cases hAddr
  rw [hLink] at hFound
  cases hFound

end HeapShape
