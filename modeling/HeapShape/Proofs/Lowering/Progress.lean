import HeapShape.Proofs.Graph.Evolves
import HeapShape.Proofs.Lowering.Soundness

/-
  Lowering ends well.

  Lowering a program whose numbers are words gives a graph or the error of
  the program, unless a sum leaves the word range. Only allocations note
  sites, so a site is found in the graph of some functions only if one of
  their bodies allocates it. Each operation takes a number of bytes that its
  own numbers bound, so no sum leaves the word range where the bytes of a
  whole function are a word.

  Main declarations:
    * `Program.InWords`
    * `givesUnless_lowerOperation`
    * `givesUnless_lowerFunction`
    * `gives_lowerFunctions`
-/

-- Operations

namespace HeapShape

open Checked

/- The numbers of a program are words. -/
def Program.InWords
    (p : Program) : Prop :=
  (∀ decl ∈ p.globals, decl.size < wordBound) ∧
    ∀ f ∈ p.functions, ∀ op ∈ f.body, op.inWords = true

instance
    (p : Program) : Decidable p.InWords :=
  inferInstanceAs (Decidable (_ ∧ _))

/- The site at which an operation allocates. -/
def Operation.site? : Operation → Option AllocSite
| .alloc _ site kind _ _ => some { id := site, kind := kind }
| _ => none

/- No more bytes than this come from the numbers it names. -/
def Operation.bytes
    (p : Program) : Operation → Nat
| .alloc _ _ _ size _ => size
| .fieldAddr _ _ offset => offset
| .indexAddr _ _ stride => stride
| .globalAddr _ global =>
    ((p.global? global).map Global.size).getD 0
| _ => 0

/- The bytes of an operation, with those of its links. -/
def Operation.cost
    (p : Program)
    (config : GraphConfig)
    (op : Operation) : Nat :=
  op.bytes p + config.pointerSize + 3

/- The error of a field that is outside the word range. -/
def Operation.Overruns
    (op : Operation)
    (f : FunctionDef)
    (e : AnalysisError) : Prop :=
  ∃ dst base offset start,
    op = .fieldAddr dst base offset ∧
      wordBound ≤ start + offset ∧
      e = .offsetOverflow f.name start offset

/- What lowering gives, if it gives a graph. -/
def Lowered.Gives
    (m : Lowered)
    (Q : Graph → Prop) : Prop :=
  Yields m fun r => ∀ h, r = .ok h → Q h

/- A graph or an error. A sum overflows only if `F`. -/
def Lowered.GivesUnless
    (F : Prop)
    (m : Lowered)
    (R : AnalysisError → Prop)
    (Q : Graph → Prop) : Prop :=
  YieldsUnless F m fun r =>
    (∀ h, r = .ok h → Q h) ∧ ∀ e, r = .error e → R e

open Graph

variable {w : Watch} {s : Nat} {F : Prop} {p : Program} {f : FunctionDef} {g h : Graph}
variable {c : Cell} {v dst base addr : ValueId} {type? : Option TypeTag} {R : AnalysisError → Prop}
variable {m : Lowered} {Q Q' : Graph → Prop} {next : Graph → Lowered} {α : Type}

theorem Lowered.GivesUnless.gives
    (hm : m.GivesUnless F R Q) :
    m.Gives Q :=
  (hm.imp fun _ hr => hr.1).yields

theorem Lowered.GivesUnless.of_yields
    {x : Checked Graph}
    (hx : YieldsUnless F x Q) :
    Lowered.GivesUnless F (do return .ok (← x)) R Q := by
  refine hx.bind fun h hQ => .ok ⟨?_, fun _ hNone => by cases hNone⟩
  rintro _ ⟨⟩
  exact hQ

theorem Lowered.GivesUnless.andThen
    (hm : m.GivesUnless F R Q)
    (hNext : ∀ g, Q g → (next g).GivesUnless F R Q') :
    (m.andThen next).GivesUnless F R Q' := by
  refine YieldsUnless.bind hm ?_
  intro r hr
  cases r with
  | ok g => exact hNext g (hr.1 g rfl)
  | error e => exact .ok ⟨(fun _ hOk => by cases hOk), hr.2⟩

theorem Lowered.Gives.andThen
    (hm : m.Gives Q)
    (hNext : ∀ g, Q g → (next g).Gives Q') :
    (m.andThen next).Gives Q' := by
  refine Yields.bind hm ?_
  intro r hr
  cases r with
  | ok g => exact hNext g (hr g rfl)
  | error e => exact .ok fun _ hOk => by cases hOk

/- What every step keeps is given at the end. -/
theorem Lowered.Gives.foldl
    {step : Graph → α → Lowered}
    {xs : List α}
    (hm : m.Gives Q)
    (hStep : ∀ g, ∀ a ∈ xs, Q g → (step g a).Gives Q) :
    (xs.foldl (fun m a => m.andThen fun g => step g a) m).Gives Q := by
  induction xs generalizing m with
  | nil => exact hm
  | cons x xs ih =>
    have hFirst : (m.andThen fun g => step g x).Gives Q :=
      hm.andThen fun g => hStep g x (List.mem_cons_self ..)
    exact ih hFirst fun g a ha =>
      hStep g a (List.mem_cons_of_mem _ ha)

/-
  What a watch has to allow for a function: none of its sites, its
  destinations, and the cells of all values.
-/
structure Watch.Allows
    (w : Watch)
    (f : FunctionDef) : Prop where
  sites : ∀ op ∈ f.body, ∀ s ∈ op.site?, ¬ w.site s
  dsts : ∀ op ∈ f.body, ∀ v ∈ op.dst?, w.root (.scalar v)
  values : ∀ v, w.formal v ∨ w.root (.scalar v)
  globals : ∀ v, w.root (.global v)
  result : w.root (.result f.id)

theorem spends_bindScalar
    (hg : w.Admits s g)
    (hc : g.Owns w.loose c)
    (hDst : w.root (.scalar v))
    (hSpare : 1 ≤ s) :
    YieldsUnless w.full (bindScalar g v c) (Spends w 1 g) := by
  unfold bindScalar
  have hInit : ∀ i, some c = some i → g.Owns w.loose i := by
    rintro _ ⟨⟩
    exact hc
  refine (Spends.bindRoot hg (fun _ => hDst) hInit hSpare).bind ?_
  rintro ⟨d, h⟩ ⟨hStep, _⟩
  exact .ok hStep

theorem spends_noteAccess
    (hg : w.Admits s g)
    (hc : g.Owns w.loose c)
    (flag : Flag) :
    YieldsUnless w.full (noteAccess g c flag type?) (Spends w 0 g) := by
  unfold noteAccess
  refine (Spends.addFlags hg hc.occupied (Flags.only flag)).bind ?_
  intro h hStep
  cases type? with
  | none => exact .ok hStep
  | some tag =>
    exact (Spends.addTypes (hStep.admits hg (Nat.zero_le s))
      (hStep.owns hg hc) _).imp fun _ => hStep.trans

/- A site is noted at a fresh node. -/
theorem spends_lowerAlloc
    (hg : w.Admits s g)
    {site : AllocSite}
    {size : Nat}
    (hSize : size < wordBound)
    (hSite : ¬ w.site site)
    (hDst : w.root (.scalar dst))
    (hSpare : size + 2 ≤ s) :
    YieldsUnless w.full (lowerAlloc g dst site size type?) (Spends w (size + 2) g) := by
  rcases site.kind.flag_ne with ⟨_, hArray, hCollapsed⟩
  have hMade := Spends.createNode hg (Flags.only site.kind.flag) size
    (Carries.createNode (E := False) hg.wellFormed _ _ (wellFormed_freshNode g.config hSize
        (by rw [Flags.has_only]; simp [hArray])
        (by rw [Flags.has_only]; simp [hCollapsed]))).later
  unfold lowerAlloc
  generalize g.createNode (Flags.only site.kind.flag) size = fresh at hMade ⊢
  rcases hMade with ⟨hFresh, hStart⟩
  have hg₁ := hFresh.admits hg (by omega)
  refine (Spends.addAllocSite hg₁ hStart.occupied fun hP => absurd hP hSite).bind ?_
  intro g₁ hNoted
  have hg₂ := hNoted.admits hg₁ (Nat.zero_le _)
  have hHere := hNoted.owns hg₁ hStart
  have hSoFar := hFresh.trans hNoted
  cases type? with
  | none =>
    exact (spends_bindScalar hg₂ hHere hDst (by omega)).imp
      fun _ hh => (hSoFar.trans hh).mono (by omega)
  | some tag =>
    refine (Spends.addTypes hg₂ hHere (OrdSet.singleton tag)).bind ?_
    intro g₂ hTyped
    refine (spends_bindScalar (hTyped.admits hg₂ (Nat.zero_le _)) (hTyped.owns hg₂ hHere) hDst
      (by omega)).imp ?_
    exact fun _ hh => ((hSoFar.trans hTyped).trans hh).mono (by omega)

/- A node grows by no more than the offset of its field. -/
theorem givesUnless_lowerFieldAddr
    (hg : w.Admits s g)
    (hf : w.Allows f)
    {offset : Nat}
    (hDst : w.root (.scalar dst))
    (hSpare : offset + 2 ≤ s) :
    (lowerFieldAddr f.name g dst base offset).GivesUnless w.full
      ((Operation.fieldAddr dst base offset).Overruns f)
      (Spends w (offset + 2) g) := by
  unfold lowerFieldAddr
  refine (Spends.valueCell hg (hf.values base) (by omega)).and_eq.bind ?_
  rintro ⟨c, g₁⟩ ⟨⟨hBase, hc⟩, hRun⟩
  rcases live_of_valueCell hg.wellFormed hRun with ⟨n, hLive⟩
  dsimp only at hBase hc hLive ⊢
  cases hShift : c.shifted? offset with
  | none =>
    refine .ok ⟨(fun _ hOk => by cases hOk), ?_⟩
    rintro _ ⟨⟩
    refine ⟨dst, base, offset, c.offset, rfl, ?_, rfl⟩
    refine Nat.le_of_not_lt fun hWord => ?_
    unfold Cell.shifted? addWord? at hShift
    rw [if_pos hWord] at hShift
    cases hShift
  | some field =>
    rcases shifted?_eq_some hShift with ⟨rfl, hWord⟩
    have hg₁ := hBase.admits hg (by omega)
    have hGrow := Spends.growSize (k := offset) hg₁ hc.occupied hWord ?_
    · refine hGrow.and_eq.bind ?_
      rintro g₂ ⟨hGrown, hGrew⟩
      have hField : g₂.Owns w.loose { c with offset := c.offset + offset } :=
        ⟨hGrown.has hg₁.wellFormed ⟨hc.occupied, hWord⟩,
          fun _ => inside_of_growSize hLive hWord hGrew⟩
      refine Lowered.GivesUnless.of_yields ((spends_bindScalar
        (hGrown.admits hg₁ (by omega)) hField hDst
        (by omega)).imp ?_)
      exact fun _ hh => ((hBase.trans hGrown).trans hh).mono (by omega)
    · rintro r n' hLive' ⟨k, hLeads⟩ hF hPlain
      rcases (hc.weaken w.known).inside hF with ⟨m, n'', j, hLeads', hLive'', _, hEnd⟩
      rcases hLeads.unique hLeads' with ⟨rfl, rfl⟩
      rw [hLive'] at hLive''
      cases hLive''
      have hAt := hEnd hPlain
      omega

theorem spends_lowerIndexAddr
    (hg : w.Admits s g)
    (hf : w.Allows f)
    {stride : Nat}
    (hStride : stride < wordBound)
    (hDst : w.root (.scalar dst))
    (hSpare : stride + 2 ≤ s) :
    YieldsUnless w.full (lowerIndexAddr g dst base stride) (Spends w (stride + 2) g) := by
  unfold lowerIndexAddr
  refine (Spends.valueCell hg (hf.values base) (by omega)).bind ?_
  rintro ⟨c, g₁⟩ ⟨hBase, hc⟩
  have hg₁ := hBase.admits hg (by omega)
  refine (Spends.setArray hg₁ hc.occupied hStride (by omega)).bind ?_
  intro g₂ hArray
  have hg₂ := hArray.admits hg₁ (by omega)
  refine (Spends.find hg₂ (hArray.owns hg₁ hc)).bind ?_
  rintro ⟨d, g₃⟩ ⟨hFound, hd⟩
  refine (spends_bindScalar (hFound.admits hg₂ (Nat.zero_le _)) hd hDst (by omega)).imp ?_
  exact fun _ hh => (((hBase.trans hArray).trans hFound).trans hh).mono (by omega)

theorem spends_lowerLoad
    (hg : w.Admits s g)
    (hf : w.Allows f)
    (hDst : w.root (.scalar dst))
    (hSpare : g.config.pointerSize + 3 ≤ s) :
    YieldsUnless w.full (lowerLoad g dst addr type?) (Spends w (g.config.pointerSize + 3) g) := by
  unfold lowerLoad
  refine (Spends.valueCell hg (hf.values addr) (by omega)).bind ?_
  rintro ⟨c, g₁⟩ ⟨hAddr, hc⟩
  have hg₁ := hAddr.admits hg (by omega)
  refine (spends_noteAccess hg₁ hc .read).bind ?_
  intro g₂ hNoted
  have hg₂ := hNoted.admits hg₁ (Nat.zero_le _)
  have hSoFar := hAddr.trans hNoted
  have hConfig := congrArg GraphConfig.pointerSize hSoFar.merged.config
  refine (Spends.makeLink hg₂ (hNoted.owns hg₁ hc) type? (by omega)).bind ?_
  rintro ⟨t, g₃⟩ ⟨hMade, ht⟩
  refine (spends_bindScalar (hMade.admits hg₂ (by omega)) ht hDst (by omega)).imp ?_
  exact fun _ hh => ((hSoFar.trans hMade).trans hh).mono (by omega)

theorem spends_lowerStore
    (hg : w.Admits s g)
    (hf : w.Allows f)
    {value? : Option ValueId}
    (hSpare : g.config.pointerSize + 2 ≤ s) :
    YieldsUnless w.full (lowerStore g addr value? type?)
      (Spends w (g.config.pointerSize + 2) g) := by
  unfold lowerStore
  refine (Spends.valueCell hg (hf.values addr) (by omega)).bind ?_
  rintro ⟨c, g₁⟩ ⟨hAddr, hc⟩
  have hg₁ := hAddr.admits hg (by omega)
  refine (spends_noteAccess hg₁ hc .modified).bind ?_
  intro g₂ hNoted
  have hg₂ := hNoted.admits hg₁ (Nat.zero_le _)
  have hSoFar := hAddr.trans hNoted
  cases value? with
  | none => exact .ok (hSoFar.mono (by omega))
  | some value =>
    refine (Spends.valueCell hg₂ (hf.values value) (by omega)).bind ?_
    rintro ⟨v, g₃⟩ ⟨hValue, hv⟩
    have hg₃ := hValue.admits hg₂ (by omega)
    refine (Spends.find hg₃ (hValue.owns hg₂ (hNoted.owns hg₁ hc))).bind ?_
    rintro ⟨d, g₄⟩ ⟨hFound, hd⟩
    have hAll := (hSoFar.trans hValue).trans hFound
    have hConfig := congrArg GraphConfig.pointerSize hAll.merged.config
    refine (Spends.addLink (hFound.admits hg₃ (Nat.zero_le _)) hd (hFound.owns hg₃ hv)
      (by omega)).imp ?_
    exact fun _ hh => (hAll.trans hh).mono (by omega)

theorem spends_lowerGlobalAddr
    (hg : w.Admits s g)
    (hSizes : ∀ decl ∈ p.globals, decl.size < wordBound)
    {global : GlobalId}
    (hDst : w.root (.scalar dst))
    (hGlobal : w.root (.global global))
    (hSpare : (Operation.globalAddr dst global).bytes p + 2 ≤ s) :
    YieldsUnless w.full (lowerGlobalAddr p g dst global)
      (Spends w ((Operation.globalAddr dst global).bytes p + 2) g) := by
  unfold lowerGlobalAddr
  refine (Spends.bindRoot hg (fun _ => hGlobal) (fun _ hNone => by cases hNone) (by omega)).bind ?_
  rintro ⟨c, g₁⟩ ⟨hBound, hc⟩
  have hg₁ := hBound.admits hg (by omega)
  refine (Spends.addFlags hg₁ hc.occupied (Flags.only .global)).bind ?_
  intro g₂ hFlagged
  have hg₂ := hFlagged.admits hg₁ (Nat.zero_le _)
  have hc₂ := hFlagged.owns hg₁ hc
  have hEnd : ∀ {g₃ s k}, Spends w k g g₃ → w.Admits s g₃ → g₃.Owns w.loose c → 1 ≤ s →
      YieldsUnless w.full (g₃.find c >>= fun found =>
        bindScalar found.2 dst found.1) (Spends w (k + 1) g) := by
    intro g₃ s k hSoFar hg₃ hc₃ hOne
    refine (Spends.find hg₃ hc₃).bind ?_
    rintro ⟨d, g₄⟩ ⟨hFound, hd⟩
    exact (spends_bindScalar (hFound.admits hg₃ (Nat.zero_le _))
      hd hDst hOne).imp fun _ hh => (hSoFar.trans hFound).trans hh
  have hSoFar := hBound.trans hFlagged
  cases hDecl : p.global? global with
  | none =>
    exact (hEnd hSoFar hg₂ hc₂ (by omega)).imp fun _ hh =>
      hh.mono (by omega)
  | some decl =>
    have hBytes : (Operation.globalAddr dst global).bytes p =
        decl.size := by
      simp only [Operation.bytes, hDecl, Option.map_some, Option.getD_some]
    rw [hBytes] at hSpare ⊢
    have hSize := hSizes decl (List.mem_of_find?_eq_some hDecl)
    refine (Spends.growSize hg₂ hc₂.occupied hSize fun _ _ _ _ _ _ => Nat.le_add_left _ _).bind ?_
    intro g₃ hGrown
    exact (hEnd (hSoFar.trans hGrown) (hGrown.admits hg₂
      (by omega)) (hGrown.owns hg₂ hc₂) (by omega)).imp fun _ hh => hh.mono (by omega)

theorem spends_lowerRet
    (hg : w.Admits s g)
    (hf : w.Allows f)
    (hSpare : 2 ≤ s) :
    YieldsUnless w.full (lowerRet f g v) (Spends w 2 g) := by
  unfold lowerRet
  split
  · refine (Spends.bindRoot hg (fun _ => hf.result)
      (fun _ hNone => by cases hNone) (by omega)).bind ?_
    rintro ⟨r, g₁⟩ ⟨hBound, hr⟩
    have hg₁ := hBound.admits hg (by omega)
    refine (Spends.valueCell hg₁ (hf.values v) (by omega)).bind ?_
    rintro ⟨c, g₂⟩ ⟨hValue, hc⟩
    refine (Spends.unify (hValue.admits hg₁ (by omega)) (hValue.owns hg₁ hr) hc).imp ?_
    exact fun _ => (hBound.trans hValue).trans
  · exact .ok ((Spends.refl hg).mono (Nat.zero_le 2))

theorem spends_lowerIntToPtr
    (hg : w.Admits s g)
    (hDst : w.root (.scalar dst))
    (hSpare : 2 ≤ s) :
    YieldsUnless w.full (lowerIntToPtr g dst) (Spends w 2 g) := by
  have hMade := Spends.createNode hg (Flags.ofList [.intToPtr, .unknown]) 0
    (Carries.createNode (E := False) hg.wellFormed _ _
      (wellFormed_freshNode g.config (by decide) rfl rfl)).later
  unfold lowerIntToPtr
  dsimp only
  generalize g.createNode (Flags.ofList [.intToPtr, .unknown]) 0 = fresh at hMade ⊢
  rcases hMade with ⟨hFresh, hStart⟩
  exact (spends_bindScalar (hFresh.admits hg (by omega)) hStart
    hDst (by omega)).imp fun _ => hFresh.trans

/- An operation notes no site but its own. -/
theorem givesUnless_lowerOperation
    (hg : w.Admits s g)
    (hSizes : ∀ decl ∈ p.globals, decl.size < wordBound)
    (hf : w.Allows f)
    {op : Operation}
    (hMem : op ∈ f.body)
    (hOp : op.inWords = true)
    (hSpare : op.cost p g.config ≤ s) :
    (lowerOperation p f g op).GivesUnless w.full (op.Overruns f)
      (Spends w (op.cost p g.config) g) := by
  have hDst := hf.dsts op hMem
  unfold Operation.cost at hSpare ⊢
  cases op with
  | alloc dst site kind size type? =>
    dsimp only [Operation.bytes] at hSpare ⊢
    exact .of_yields ((spends_lowerAlloc hg (of_decide_eq_true hOp) (hf.sites _ hMem _ rfl)
      (hDst _ rfl) (by omega)).imp fun _ hh => hh.mono (by omega))
  | copy dst src =>
    refine (Spends.valueCell hg (hf.values src) (by omega)).bind ?_
    rintro ⟨c, g₁⟩ ⟨hSrc, hc⟩
    exact Lowered.GivesUnless.of_yields ((spends_bindScalar
      (hSrc.admits hg (by omega)) hc (hDst _ rfl)
      (by omega)).imp fun _ hh => (hSrc.trans hh).mono (by omega))
  | fieldAddr dst base offset =>
    dsimp only [Operation.bytes] at hSpare ⊢
    refine (givesUnless_lowerFieldAddr hg hf (hDst _ rfl)
      (by omega)).imp fun _ hr => ⟨fun h hEq => ?_, hr.2⟩
    exact (hr.1 h hEq).mono (by omega)
  | indexAddr dst base stride =>
    dsimp only [Operation.bytes] at hSpare ⊢
    exact .of_yields ((spends_lowerIndexAddr hg hf
      (of_decide_eq_true hOp) (hDst _ rfl) (by omega)).imp fun _ hh => hh.mono (by omega))
  | load dst addr type? =>
    exact .of_yields ((spends_lowerLoad hg hf (hDst _ rfl)
      (by omega)).imp fun _ hh => hh.mono (by omega))
  | store addr value? type? =>
    exact .of_yields ((spends_lowerStore hg hf (by omega)).imp fun _ hh => hh.mono (by omega))
  | globalAddr dst global =>
    exact .of_yields ((spends_lowerGlobalAddr hg hSizes
      (hDst _ rfl) (hf.globals global) (by omega)).imp fun _ hh => hh.mono (by omega))
  | ret value =>
    exact .of_yields ((spends_lowerRet hg hf (by omega)).imp fun _ hh => hh.mono (by omega))
  | intToPtr dst =>
    exact .of_yields ((spends_lowerIntToPtr hg (hDst _ rfl)
      (by omega)).imp fun _ hh => hh.mono (by omega))
  | ptrToInt src =>
    refine (Spends.valueCell hg (hf.values src) (by omega)).bind ?_
    rintro ⟨c, g₁⟩ ⟨hSrc, hc⟩
    exact Lowered.GivesUnless.of_yields ((Spends.addFlags
      (hSrc.admits hg (by omega)) hc.occupied _).imp fun _ hh => (hSrc.trans hh).mono (by omega))

-- Functions

open Graph

variable {k : Nat} {ops : List Operation}

/- The bytes of some operations. -/
def Operation.costs
    (p : Program)
    (config : GraphConfig)
    (ops : List Operation) : Nat :=
  ops.foldr (fun op n => op.cost p config + n) 0

/- The values of the calls that a function makes. -/
def FunctionDef.callValues
    (p : Program)
    (f : FunctionDef) : List ValueId :=
  ((p.callSites.filter fun cs => cs.caller == f.id).map
    CallSite.values).flatten

/-
  A bound on the bytes that the nodes of a function come to have: those of
  its signature, its body and its calls.
-/
def FunctionDef.room
    (p : Program)
    (config : GraphConfig)
    (f : FunctionDef) : Nat :=
  f.formals.length + 1 + Operation.costs p config f.body +
    (f.callValues p).length

/- The error of a field of the body. -/
def FunctionDef.Overruns
    (f : FunctionDef)
    (e : AnalysisError) : Prop :=
  ∃ op ∈ f.body, op.Overruns f e

/- Roots are bound one after the other. -/
theorem spends_bindAll
    {bind : Graph → α → Checked (Cell × Graph)}
    {xs : List α}
    (hBind : ∀ h s, ∀ a ∈ xs, w.Admits s h → 1 ≤ s →
      YieldsUnless w.full (bind h a) fun found =>
        Spends w 1 h found.2 ∧ found.2.Owns w.loose found.1)
    (hg : w.Admits s g)
    (hSpare : xs.length ≤ s) :
    YieldsUnless w.full (xs.foldlM (fun g a =>
      bind g a >>= fun found => pure found.2) g) (Spends w xs.length g) := by
  induction xs generalizing g s with
  | nil => exact .ok (.refl hg)
  | cons x xs ih =>
    rw [List.length_cons] at hSpare ⊢
    rw [List.foldlM_cons]
    refine YieldsUnless.bind (P := Spends w 1 g) ?_ ?_
    · refine (hBind g s x (List.mem_cons_self ..) hg (by omega)).bind ?_
      rintro ⟨c, h⟩ ⟨hStep, _⟩
      exact .ok hStep
    · intro h hStep
      refine (ih (fun h s a ha => hBind h s a (List.mem_cons_of_mem _ ha)) (hStep.admits hg
          (by omega)) (by omega)).imp ?_
      exact fun _ hh => (hStep.trans hh).mono (by omega)

theorem spends_lowerSignature
    (hg : w.Admits s g)
    (hFormals : ∀ formal ∈ f.formals, formal.isPointer = true →
        w.root (.formal formal.value))
    (hResult : w.root (.result f.id))
    (hSpare : f.formals.length + 1 ≤ s) :
    YieldsUnless w.full (lowerSignature f g) (Spends w (f.formals.length + 1) g) := by
  have hLess : (f.formals.filter Formal.isPointer).length ≤
      f.formals.length := List.length_filter_le _ _
  unfold lowerSignature
  refine (spends_bindAll (fun h s formal hMem hh hOne => ?_) hg
    (Nat.le_trans hLess (by omega))).bind ?_
  · rw [List.mem_filter] at hMem
    exact Spends.bindRoot hh (fun _ => hFormals formal hMem.1
      hMem.2) (fun _ hNone => by cases hNone) hOne
  intro g₁ hBound
  split
  · refine (Spends.bindRoot (hBound.admits hg (by omega))
      (fun _ => hResult) (fun _ hNone => by cases hNone)
      (by omega)).bind ?_
    rintro ⟨c, h⟩ ⟨hStep, _⟩
    exact .ok ((hBound.trans hStep).mono (by omega))
  · exact .ok (hBound.mono (by omega))

theorem spends_lowerCalls
    (hg : w.Admits s g)
    (hf : w.Allows f)
    (hSpare : (f.callValues p).length ≤ s) :
    YieldsUnless w.full (lowerCalls p f g) (Spends w (f.callValues p).length g) :=
  spends_bindAll (fun _ _ v _ hh hOne =>
    Spends.valueCell hh (hf.values v) hOne) hg hSpare

/- The costs of operations add up. -/
theorem givesUnless_foldl
    (hg : w.Admits s g)
    (hSizes : ∀ decl ∈ p.globals, decl.size < wordBound)
    (hWords : ∀ op ∈ f.body, op.inWords = true)
    (hf : w.Allows f)
    (hOps : ∀ op ∈ ops, op ∈ f.body)
    (hm : m.GivesUnless w.full f.Overruns (Spends w k g))
    (hSpare : k + Operation.costs p g.config ops ≤ s) :
    (ops.foldl (fun m op => m.andThen fun g =>
      lowerOperation p f g op) m).GivesUnless w.full f.Overruns
        (Spends w (k + Operation.costs p g.config ops) g) := by
  induction ops generalizing m k with
  | nil => exact hm
  | cons op ops ih =>
    rw [List.forall_mem_cons] at hOps
    change k + (op.cost p g.config + Operation.costs p g.config ops) ≤ s at hSpare
    rw [← Nat.add_assoc] at hSpare
    have hFirst : (m.andThen fun g =>
        lowerOperation p f g op).GivesUnless w.full f.Overruns
          (Spends w (k + op.cost p g.config) g) := by
      refine hm.andThen fun h hh => ?_
      have hConfig := hh.merged.config
      have hStep := givesUnless_lowerOperation (hh.admits hg (by omega)) hSizes hf hOps.1
        (hWords op hOps.1) (by rw [hConfig]; omega)
      rw [hConfig] at hStep
      refine hStep.imp fun r hr => ⟨fun i hEq =>
        hh.trans (hr.1 i hEq), fun e hEq => ?_⟩
      exact ⟨op, hOps.1, hr.2 e hEq⟩
    have hLast := ih hOps.2 hFirst hSpare
    rw [Nat.add_assoc] at hLast
    exact hLast

/- A body and the calls that stand in it. -/
theorem givesUnless_lowerBody
    (hg : w.Admits s g)
    (hSizes : ∀ decl ∈ p.globals, decl.size < wordBound)
    (hWords : ∀ op ∈ f.body, op.inWords = true)
    (hf : w.Allows f)
    (hSpare : Operation.costs p g.config f.body + (f.callValues p).length ≤ s) :
    (Lowered.andThen (lowerBody p f g f.body) fun g => do
      return .ok (← lowerCalls p f g)).GivesUnless w.full
        f.Overruns (Spends w (Operation.costs p g.config f.body + (f.callValues p).length) g) := by
  have hBody := givesUnless_foldl hg hSizes hWords hf
    (fun _ => id) (m := .ok (.ok g)) (k := 0) ?_ (by omega)
  · rw [Nat.zero_add] at hBody
    refine hBody.andThen fun h hh => ?_
    exact .of_yields ((spends_lowerCalls
      (hh.admits hg (by omega)) hf (by omega)).imp fun _ => hh.trans)
  · refine .ok ⟨?_, fun _ hNone => by cases hNone⟩
    rintro _ ⟨⟩
    exact .refl hg

/- A function spends no more than its room. -/
theorem givesUnless_lowerFunction
    (hg : w.Admits s (g.addFunction f.id))
    (hSizes : ∀ decl ∈ p.globals, decl.size < wordBound)
    (hWords : ∀ op ∈ f.body, op.inWords = true)
    (hf : w.Allows f)
    (hFormals : ∀ formal ∈ f.formals, formal.isPointer = true →
        w.root (.formal formal.value))
    (hSpare : f.room p g.config ≤ s) :
    (lowerFunction p f g).GivesUnless w.full f.Overruns
      (Spends w (f.room p g.config) (g.addFunction f.id)) := by
  unfold FunctionDef.room at hSpare ⊢
  unfold lowerFunction
  refine (spends_lowerSignature hg hFormals hf.result (by omega)).bind ?_
  intro g₁ hSigned
  have hConfig : g₁.config = g.config := hSigned.merged.config
  have hBody := givesUnless_lowerBody (p := p) (hSigned.admits hg (by omega)) hSizes hWords hf
    (by rw [hConfig]; omega)
  rw [hConfig] at hBody
  refine hBody.imp fun r hr => ⟨fun h hEq => ?_, hr.2⟩
  exact (hSigned.trans (hr.1 h hEq)).mono (by omega)

theorem Graph.WellFormed.addFunction
    (hg : g.WellFormed)
    (f : FunctionId) :
    (g.addFunction f).WellFormed :=
  hg.congr rfl rfl rfl rfl

theorem Graph.Tight.addFunction
    (hg : g.Tight)
    (f : FunctionId) :
    (g.addFunction f).Tight := by
  have hInside : ∀ c, g.Inside c → (g.addFunction f).Inside c := by
    rintro c ⟨m, n, k, hLeads, hAll⟩
    exact ⟨m, n, k, Leads.congr (g := g) (fun _ _ hSlot => hSlot)
      (fun _ n hLive => ⟨n, hLive⟩) hLeads, hAll⟩
  exact ⟨fun r c hRoot => hInside c (hg.roots r c hRoot),
    fun t hTarget => hInside t (hg.targets t hTarget)⟩

-- Sites Of Functions

open Graph

variable (P : AllocSite → Prop) (X : NodeId → Prop)

theorem allows_sites
    (hSites : ∀ op ∈ f.body, ∀ s ∈ op.site?, ¬ P s) :
    (Watch.sites P X).Allows f where
  sites := hSites
  dsts := fun _ _ _ _ => trivial
  values := fun _ => .inr trivial
  globals := fun _ => trivial
  result := trivial

theorem evolves_lowerSignature
    (hg : g.WellFormed) :
    Yields (lowerSignature f g) (Evolves P X g) :=
  Evolves.of_spends (spends_lowerSignature (hg.admits (s := _))
    (fun _ _ _ => trivial) trivial (Nat.le_refl _))

/- A body notes no sites but its own. -/
theorem gives_lowerBody
    (hg : g.WellFormed)
    (hSizes : ∀ decl ∈ p.globals, decl.size < wordBound)
    (hWords : ∀ op ∈ f.body, op.inWords = true)
    (hSites : ∀ op ∈ f.body, ∀ s ∈ op.site?, ¬ P s) :
    (Lowered.andThen (lowerBody p f g f.body) fun g => do
      return .ok (← lowerCalls p f g)).Gives (Evolves P X g) :=
  Yields.imp (givesUnless_lowerBody (hg.admits (s := _)) hSizes hWords (allows_sites P X hSites)
    (Nat.le_refl _)).gives fun _ hr h hEq =>
      (hr h hEq).toEvolves

/-
  The functions of a program note no sites but those of their bodies, and
  they record no calls.
-/
theorem gives_lowerFunctions
    (hg : g.WellFormed)
    (hSizes : ∀ decl ∈ p.globals, decl.size < wordBound)
    {fs : List FunctionDef}
    (hWords : ∀ f ∈ fs, ∀ op ∈ f.body, op.inWords = true)
    (hSites : ∀ f ∈ fs, ∀ op ∈ f.body, ∀ s ∈ op.site?, ¬ P s) :
    (lowerFunctions p fs g).Gives fun h =>
      h.WellFormed ∧ h.callSites = g.callSites ∧ ∀ Y, g.Confined P Y →
        h.Confined P Y := by
  refine Lowered.Gives.foldl (Yields.ok ?_) ?_
  · rintro _ ⟨⟩
    exact ⟨hg, rfl, fun _ hAll => hAll⟩
  · rintro h f hMem ⟨hh, hCalls, hConfined⟩
    refine Yields.imp (givesUnless_lowerFunction ((hh.addFunction f.id).admits (s := _)) hSizes
      (hWords f hMem) (allows_sites P (fun _ => False) (hSites f hMem)) (fun _ _ _ => trivial)
      (Nat.le_refl _)).gives ?_
    intro r hr h' hEq
    have hStep := hr h' hEq
    refine ⟨hStep.wellFormed, hStep.callSites.trans hCalls, fun Y hAll => ?_⟩
    refine hStep.confined Y (fun _ hNone => hNone.elim) ?_
    exact (hConfined Y hAll).congr fun _ => rfl

end HeapShape
