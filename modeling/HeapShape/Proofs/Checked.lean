import HeapShape.Fault

/-
  Laws of computations that may fault.

  A computation that succeeds is taken apart step by step:
  `Checked.bind_eq_ok_iff` for two steps one after the other,
  `Checked.foldlM_induction` for a loop. What fails only when a sum is no
  word is put together with `Checked.Yields`.

  Main declarations:
    * `Checked.bind_eq_ok_iff`
    * `Checked.mapM_eq_ok`
    * `Checked.filterM_eq_ok`
    * `Checked.Yields`
-/

-- Computations That Succeed

namespace HeapShape

namespace Checked

variable {α β γ : Type} {x : Checked α} {f : α → Checked β} {e : Fault}
variable {x? : Option α} {step : β → α → Checked β} {xs ys : List α} {start : β}

/- A sequence succeeds exactly if both steps do. -/
theorem bind_eq_ok_iff
    {b : β} :
    (x >>= f) = .ok b ↔ ∃ a, x = .ok a ∧ f a = .ok b := by
  cases x with
  | error e =>
    constructor
    · intro h
      cases h
    · rintro ⟨a, ha, _⟩
      cases ha
  | ok a =>
    constructor
    · intro h
      exact ⟨a, rfl, h⟩
    · rintro ⟨a', ha, h⟩
      cases ha
      exact h

/- The steps of a sequence that succeeds. -/
theorem of_bind
    {b : β}
    (hRun : (x >>= f) = .ok b) :
    ∃ a, x = .ok a ∧ f a = .ok b :=
  bind_eq_ok_iff.mp hRun

/- A sequence fails in its first step or in its second. -/
theorem bind_eq_error
    (h : (x >>= f) = .error e) :
    x = .error e ∨ ∃ a, x = .ok a ∧ f a = .error e := by
  cases x with
  | error fault =>
    cases h
    exact Or.inl rfl
  | ok a => exact Or.inr ⟨a, rfl, h⟩

/- A returned value is the value. -/
theorem pure_eq_ok_iff
    {a b : α} :
    (pure a : Checked α) = .ok b ↔ a = b := by
  constructor
  · intro h
    cases h
    rfl
  · rintro rfl
    rfl

theorem ok_bind
    (a : α)
    (f : α → Checked β) :
    (Except.ok a >>= f) = f a :=
  rfl

theorem error_bind
    (e : Fault)
    (f : α → Checked β) :
    (Except.error e >>= f) = .error e :=
  rfl

/- The value of a computation, if there is one. -/
theorem toOption_eq_some_iff
    {ε : Type}
    {x : Except ε α}
    {a : α} :
    x.toOption = some a ↔ x = .ok a := by
  cases x with
  | error e =>
    constructor
    · intro h
      cases h
    · intro h
      cases h
  | ok b =>
    constructor
    · intro h
      cases h
      rfl
    · intro h
      cases h
      rfl

/- A result that was changed. -/
theorem map_eq_ok_iff
    {f : α → β}
    {b : β} :
    x.map f = .ok b ↔ ∃ a, x = .ok a ∧ f a = b := by
  cases x with
  | error fault =>
    constructor
    · intro h
      cases h
    · rintro ⟨a, h, _⟩
      cases h
  | ok a =>
    constructor
    · intro h
      cases h
      exact ⟨a, rfl, rfl⟩
    · rintro ⟨_, h, rfl⟩
      cases h
      rfl

/- Changing the result of a sequence changes its last step. -/
theorem map_bind
    (x : Checked α)
    (f : α → Checked β)
    (k : β → γ) :
    (x >>= f).map k = x >>= fun a => (f a).map k := by
  cases x with
  | error e => rfl
  | ok a => rfl

/- A change that no result needs. -/
theorem map_eq_self
    {k : α → α}
    (hSame : ∀ a, x = .ok a → k a = a) :
    x.map k = x := by
  cases x with
  | error e => rfl
  | ok a => exact congrArg Except.ok (hSame a rfl)

/- A value that is there was changed. -/
theorem option_mapM_some_eq_ok
    {x : α}
    {y? : Option β}
    (h : (some x).mapM f = .ok y?) :
    ∃ y, f x = .ok y ∧ y? = some y := by
  rw [Option.mapM_some] at h
  cases hx : f x with
  | error e =>
    rw [hx] at h
    cases h
  | ok y =>
    rw [hx] at h
    cases h
    exact ⟨y, rfl, rfl⟩

/- A value that may be absent was there and was changed. -/
theorem option_mapM_eq_some_iff
    {y : β} :
    x?.mapM f = .ok (some y) ↔ ∃ x, x? = some x ∧ f x = .ok y := by
  constructor
  · intro h
    cases x? with
    | none => cases h
    | some x =>
      rcases option_mapM_some_eq_ok h with ⟨z, hz, hEq⟩
      cases hEq
      exact ⟨x, rfl, hz⟩
  · rintro ⟨x, rfl, h⟩
    rw [Option.mapM_some, h]
    rfl

/- A value that may be absent was there and failed. -/
theorem option_mapM_eq_error
    (h : x?.mapM f = .error e) :
    ∃ x, x? = some x ∧ f x = .error e := by
  cases x? with
  | none => cases h
  | some x =>
    rw [Option.mapM_some] at h
    refine ⟨x, rfl, ?_⟩
    cases hx : f x with
    | error fault =>
      rw [hx] at h
      cases h
      rfl
    | ok y =>
      rw [hx] at h
      cases h

/- What the second step always yields, a sequence yields. -/
theorem result_of_bind
    {Q : β → Prop}
    (hf : ∀ a b, f a = .ok b → Q b)
    (b : β)
    (hRun : (x >>= f) = .ok b) :
    Q b := by
  rcases bind_eq_ok_iff.mp hRun with ⟨a, _, hRun⟩
  exact hf a b hRun

/-
  What holds at the start of a loop and is kept by each of its steps holds
  at the end.
-/
theorem foldlM_induction
    {P : β → Prop}
    {final : β}
    (hStep : ∀ b, ∀ a ∈ xs, ∀ c, P b → step b a = .ok c → P c)
    (hStart : P start)
    (hRun : xs.foldlM step start = .ok final) :
    P final := by
  induction xs generalizing start with
  | nil =>
    rw [List.foldlM_nil, pure_eq_ok_iff] at hRun
    exact hRun ▸ hStart
  | cons x xs ih =>
    rw [List.foldlM_cons] at hRun
    rcases of_bind hRun with ⟨next, hNext, hRest⟩
    refine ih ?_ ?_ hRest
    · intro b a ha
      exact hStep b a (List.mem_cons_of_mem _ ha)
    · exact hStep start x List.mem_cons_self next hStart hNext

/- Steps that agree on all items of a list. -/
theorem foldlM_congr
    {step' : β → α → Checked β}
    (hSame : ∀ b, ∀ a ∈ xs, step b a = step' b a)
    (start : β) :
    xs.foldlM step start = xs.foldlM step' start := by
  induction xs generalizing start with
  | nil => rfl
  | cons x xs ih =>
    rw [List.foldlM_cons, List.foldlM_cons, hSame start x List.mem_cons_self]
    congr 1
    funext next
    apply ih
    intro b a ha
    exact hSame b a (List.mem_cons_of_mem _ ha)

/- A list whose values were all changed, one by one. -/
theorem mapM_eq_ok
    {ys : List β}
    (h : xs.mapM f = .ok ys) :
    ys.length = xs.length ∧ ∀ (i : Nat) x, xs[i]? = some x →
        ∃ y, ys[i]? = some y ∧ f x = .ok y := by
  induction xs generalizing ys with
  | nil =>
    rw [List.mapM_nil, pure_eq_ok_iff] at h
    subst h
    refine ⟨rfl, fun i x hx => ?_⟩
    cases hx
  | cons x xs ih =>
    rw [List.mapM_cons] at h
    rcases of_bind h with ⟨y, hy, h⟩
    rcases of_bind h with ⟨ys', hys, h⟩
    rw [pure_eq_ok_iff] at h
    subst h
    rcases ih hys with ⟨hLength, hEach⟩
    refine ⟨by simp [hLength], fun i z hz => ?_⟩
    cases i with
    | zero =>
      cases hz
      exact ⟨y, rfl, hy⟩
    | succ i => exact hEach i z hz

/- A list is not changed because of one of its values. -/
theorem mapM_eq_error
    (h : xs.mapM f = .error e) :
    ∃ x ∈ xs, f x = .error e := by
  induction xs with
  | nil => cases h
  | cons x xs ih =>
    rw [List.mapM_cons] at h
    rcases bind_eq_error h with hx | ⟨y, _, h⟩
    · exact ⟨x, List.mem_cons_self, hx⟩
    · rcases bind_eq_error h with hxs | ⟨ys, _, h⟩
      · exact (ih hxs).imp fun _ hz =>
          ⟨List.mem_cons_of_mem _ hz.1, hz.2⟩
      · cases h

/- A list whose values all stay as they are. -/
theorem mapM_eq_self
    {f : α → Checked α}
    (hf : ∀ x ∈ xs, f x = .ok x) :
    xs.mapM f = .ok xs := by
  induction xs with
  | nil => rfl
  | cons x xs ih =>
    rw [List.forall_mem_cons] at hf
    rw [List.mapM_cons, hf.1, ok_bind, ih hf.2]
    rfl

/- A list is changed exactly if each of its values is. -/
theorem exists_mapM_eq_ok_iff
    {P : β → Prop}
    {xs : List α} :
    (∃ ys, xs.mapM f = .ok ys ∧ ∀ y ∈ ys, P y) ↔ ∀ x ∈ xs, ∃ y, f x = .ok y ∧ P y := by
  induction xs with
  | nil =>
    rw [List.mapM_nil]
    exact ⟨fun _ => nofun, fun _ => ⟨[], rfl, nofun⟩⟩
  | cons x rest ih =>
    simp only [List.mapM_cons, bind_eq_ok_iff, pure_eq_ok_iff, List.forall_mem_cons, ← ih]
    constructor
    · rintro ⟨_, ⟨y, hx, ys, hRest, rfl⟩, hAll⟩
      rw [List.forall_mem_cons] at hAll
      exact ⟨⟨y, hx, hAll.1⟩, ys, hRest, hAll.2⟩
    · rintro ⟨⟨y, hx, hy⟩, ys, hRest, hAll⟩
      exact ⟨y :: ys, ⟨y, hx, ys, hRest, rfl⟩, List.forall_mem_cons.mpr ⟨hy, hAll⟩⟩

/- Items that pass a test are kept, and all are tested. -/
theorem filterAuxM_eq_ok
    {f : α → Checked Bool}
    {before : List α}
    (h : xs.filterAuxM f before = .ok ys) :
    (∀ x ∈ before, x ∈ ys) ∧ ∀ x ∈ xs, ∃ b, f x = .ok b ∧ (b = true → x ∈ ys) := by
  induction xs generalizing before with
  | nil =>
    cases h
    exact ⟨fun _ hx => hx, fun _ hx => absurd hx List.not_mem_nil⟩
  | cons x xs ih =>
    unfold List.filterAuxM at h
    rcases of_bind h with ⟨b, hb, h⟩
    rcases ih h with ⟨hBefore, hEach⟩
    cases b with
    | false =>
      refine ⟨hBefore, fun z hz => ?_⟩
      rcases List.mem_cons.mp hz with rfl | hz
      · exact ⟨false, hb, Bool.noConfusion⟩
      · exact hEach z hz
    | true =>
      refine ⟨fun z hz =>
        hBefore z (List.mem_cons_of_mem _ hz), ?_⟩
      intro z hz
      rcases List.mem_cons.mp hz with rfl | hz
      · exact ⟨true, hb, fun _ =>
          hBefore z List.mem_cons_self⟩
      · exact hEach z hz

theorem filterM_eq_ok
    {f : α → Checked Bool}
    (h : xs.filterM f = .ok ys) :
    ∀ x ∈ xs, ∃ b, f x = .ok b ∧ (b = true → x ∈ ys) := by
  unfold List.filterM at h
  rcases of_bind h with ⟨zs, hAux, h⟩
  rw [pure_eq_ok_iff] at h
  subst h
  intro x hx
  rcases (filterAuxM_eq_ok hAux).2 x hx with ⟨b, hb, hKept⟩
  exact ⟨b, hb, fun hTrue => List.mem_reverse.mpr (hKept hTrue)⟩

/- A filter that no item passes. -/
theorem filterM_eq_nil
    {f : α → Checked Bool}
    (hf : ∀ x ∈ xs, f x = .ok false) :
    xs.filterM f = .ok [] := by
  have hAux : ∀ before, xs.filterAuxM f before = .ok before := by
    intro before
    induction xs with
    | nil => rfl
    | cons x rest ih =>
      rw [List.forall_mem_cons] at hf
      rw [List.filterAuxM, hf.1, ok_bind]
      exact ih hf.2
  rw [List.filterM, hAux]
  rfl

-- Computations That May Overflow

/-
  There is a result with a property, unless a sum leaves the word range on
  the way.
-/
def Yields
    (x : Checked α)
    (P : α → Prop) : Prop :=
  x = .error .addOverflow ∨ ∃ a, x = .ok a ∧ P a

variable {Q P : α → Prop} {a : α} {F : Prop}

theorem Yields.ok
    (ha : P a) :
    Yields (.ok a) P :=
  Or.inr ⟨a, rfl, ha⟩

theorem Yields.bind
    {Q : β → Prop}
    (hx : Yields x P)
    (hf : ∀ a, P a → Yields (f a) Q) :
    Yields (x >>= f) Q := by
  rcases hx with hOver | ⟨a, hOk, ha⟩
  · rw [hOver]
    exact Or.inl rfl
  · rw [hOk]
    exact hf a ha

/- A result that was computed has the property. -/
theorem Yields.of_eq_ok
    (hx : Yields x P)
    (hRun : x = .ok a) :
    P a := by
  rcases hx with hOverflow | ⟨b, hb, hP⟩
  · rw [hRun] at hOverflow
    cases hOverflow
  · rw [hRun] at hb
    cases hb
    exact hP

theorem Yields.imp_eq
    (hx : Yields x P)
    (hPQ : ∀ a, x = .ok a → P a → Q a) :
    Yields x Q := by
  rcases hx with hOver | ⟨a, hOk, ha⟩
  · exact Or.inl hOver
  · exact Or.inr ⟨a, hOk, hPQ a hOk ha⟩

theorem Yields.imp
    (hx : Yields x P)
    (hPQ : ∀ a, P a → Q a) :
    Yields x Q :=
  hx.imp_eq fun a _ => hPQ a

/- The result is one that was computed. -/
theorem Yields.and_eq
    (hx : Yields x P) :
    Yields x fun a => P a ∧ x = .ok a :=
  hx.imp_eq fun _ hOk ha => ⟨ha, hOk⟩

theorem yields_addWord
    (a b : Nat) :
    Yields (addWord a b) fun c => c = a + b ∧ a + b < wordBound := by
  unfold addWord
  split
  · next hWord => exact Or.inr ⟨_, rfl, rfl, hWord⟩
  · exact Or.inl rfl

/- A loop whose steps do not fail otherwise does not. -/
theorem yields_foldlM
    {P : β → Prop}
    (hStart : P start)
    (hStep : ∀ b, ∀ a ∈ xs, P b → Yields (step b a) P) :
    Yields (xs.foldlM step start) P := by
  induction xs generalizing start with
  | nil => exact Yields.ok hStart
  | cons x xs ih =>
    rw [List.foldlM_cons]
    refine (hStep start x List.mem_cons_self hStart).bind ?_
    intro next hNext
    exact ih hNext fun b a ha =>
      hStep b a (List.mem_cons_of_mem _ ha)

/-
  There is a result with a property, unless a fact holds and a sum leaves
  the word range.
-/
def YieldsUnless
    (F : Prop)
    (x : Checked α)
    (P : α → Prop) : Prop :=
  (F ∧ x = .error .addOverflow) ∨ ∃ a, x = .ok a ∧ P a

theorem YieldsUnless.yields
    (hx : YieldsUnless F x P) :
    Yields x P :=
  Or.imp_left And.right hx

theorem Yields.unless
    (hx : Yields x P)
    (hF : x = .error .addOverflow → F) :
    YieldsUnless F x P :=
  Or.imp_left (fun hOver => ⟨hF hOver, hOver⟩) hx

theorem YieldsUnless.ok
    (ha : P a) :
    YieldsUnless F (.ok a) P :=
  Or.inr ⟨a, rfl, ha⟩

theorem YieldsUnless.of_eq_ok
    (hx : YieldsUnless F x P)
    (hRun : x = .ok a) :
    P a :=
  hx.yields.of_eq_ok hRun

theorem YieldsUnless.bind
    {Q : β → Prop}
    (hx : YieldsUnless F x P)
    (hf : ∀ a, P a → YieldsUnless F (f a) Q) :
    YieldsUnless F (x >>= f) Q := by
  rcases hx with ⟨hF, hOver⟩ | ⟨a, hOk, ha⟩
  · rw [hOver]
    exact Or.inl ⟨hF, rfl⟩
  · rw [hOk]
    exact hf a ha

theorem YieldsUnless.imp_eq
    (hx : YieldsUnless F x P)
    (hPQ : ∀ a, x = .ok a → P a → Q a) :
    YieldsUnless F x Q := by
  rcases hx with hOver | ⟨a, hOk, ha⟩
  · exact Or.inl hOver
  · exact Or.inr ⟨a, hOk, hPQ a hOk ha⟩

theorem YieldsUnless.imp
    (hx : YieldsUnless F x P)
    (hPQ : ∀ a, P a → Q a) :
    YieldsUnless F x Q :=
  hx.imp_eq fun a _ => hPQ a

theorem YieldsUnless.and_eq
    (hx : YieldsUnless F x P) :
    YieldsUnless F x fun a => P a ∧ x = .ok a :=
  hx.imp_eq fun _ hOk ha => ⟨ha, hOk⟩

/-
  A result has a property, and an overflow has a cause. Nothing is said of
  other faults.
-/
def Explains
    (F : Prop)
    (x : Checked α)
    (P : α → Prop) : Prop :=
  (x = .error .addOverflow → F) ∧ ∀ a, x = .ok a → P a

theorem Explains.ok
    (ha : P a) :
    Explains F (.ok a) P := by
  refine ⟨nofun, ?_⟩
  intro b hb
  cases hb
  exact ha

theorem Explains.bind
    {Q : β → Prop}
    (hx : Explains F x P)
    (hf : ∀ a, x = .ok a → P a → Explains F (f a) Q) :
    Explains F (x >>= f) Q := by
  cases hRun : x with
  | error fault =>
    refine ⟨?_, nofun⟩
    intro hOver
    cases hOver
    exact hx.1 hRun
  | ok a => exact hf a hRun (hx.2 a hRun)

theorem Explains.imp
    (hx : Explains F x P)
    (hPQ : ∀ a, P a → Q a) :
    Explains F x Q :=
  hx.imp_right fun hOk a hRun => hPQ a (hOk a hRun)

theorem Explains.yieldsUnless
    (hx : Explains F x P)
    (hRuns : Yields x Q) :
    YieldsUnless F x P :=
  (hRuns.imp_eq fun a hOk _ => hx.2 a hOk).unless hx.1

/- A sum that is known to stay in the word range. -/
theorem yieldsUnless_addWord
    {a b : Nat}
    (hWord : ¬ F → a + b < wordBound) :
    YieldsUnless F (addWord a b) fun c => c = a + b ∧ a + b < wordBound := by
  refine (yields_addWord a b).unless fun hOver => ?_
  refine Classical.byContradiction fun hF => ?_
  rw [addWord, if_pos (hWord hF)] at hOver
  cases hOver

theorem yieldsUnless_foldlM
    {P : β → Prop}
    (hStart : P start)
    (hStep : ∀ b, ∀ a ∈ xs, P b → YieldsUnless F (step b a) P) :
    YieldsUnless F (xs.foldlM step start) P := by
  induction xs generalizing start with
  | nil => exact .ok hStart
  | cons x xs ih =>
    rw [List.foldlM_cons]
    refine (hStep start x List.mem_cons_self hStart).bind ?_
    intro next hNext
    exact ih hNext fun b a ha =>
      hStep b a (List.mem_cons_of_mem _ ha)

/- The results for a list are results for its items. -/
theorem yields_mapM
    {P : α → β → Prop}
    (hf : ∀ x ∈ xs, Yields (f x) (P x)) :
    Yields (xs.mapM f) fun ys => ∀ y ∈ ys, ∃ x ∈ xs, P x y := by
  induction xs with
  | nil =>
    rw [List.mapM_nil]
    exact Yields.ok fun _ hy => absurd hy List.not_mem_nil
  | cons x xs ih =>
    rw [List.mapM_cons]
    refine (hf x List.mem_cons_self).bind fun y hy => ?_
    refine (ih fun z hz =>
      hf z (List.mem_cons_of_mem _ hz)).bind fun ys hys => ?_
    refine Yields.ok fun z hz => ?_
    rcases List.mem_cons.mp hz with rfl | hz
    · exact ⟨x, List.mem_cons_self, hy⟩
    · rcases hys z hz with ⟨w, hw, hP⟩
      exact ⟨w, List.mem_cons_of_mem _ hw, hP⟩

theorem yields_filterAuxM
    {f : α → Checked Bool}
    (hf : ∀ x ∈ xs, Yields (f x) fun _ => True)
    (before : List α) :
    Yields (xs.filterAuxM f before) fun _ => True := by
  induction xs generalizing before with
  | nil => exact Yields.ok trivial
  | cons x xs ih =>
    unfold List.filterAuxM
    refine (hf x List.mem_cons_self).bind fun _ _ => ?_
    exact ih (fun z hz =>
      hf z (List.mem_cons_of_mem _ hz)) _

theorem yields_filterM
    {f : α → Checked Bool}
    (hf : ∀ x ∈ xs, Yields (f x) fun _ => True) :
    Yields (xs.filterM f) fun _ => True := by
  unfold List.filterM
  refine (yields_filterAuxM hf []).bind fun _ _ => ?_
  exact Yields.ok trivial

end Checked

end HeapShape
