import HeapShape.Proofs.Lowering.Constraint

/-
  What one operation of a function carries to the end.

  Each operation is a step on drafts: whatever comes after it, its
  constraint holds of the last graph. In the exact form this asks that the
  array it may make keeps the stride it was made with.

  Main declarations:
    * `carries_bindScalar`
    * `carries_lowerFieldAddr`
    * `carries_lowerIndexAddr`
    * `carries_lowerOperation`
-/

-- Steps Of Lowering

namespace HeapShape

open Checked Graph

variable {E : Prop} {f : FunctionDef} {g h : Graph} {c d : Cell} {v dst : ValueId}
variable {type? : Option TypeTag}

/- A root is bound to a cell of an address. -/
def Graph.Meets
    (E : Prop)
    (g : Graph)
    (r : Root)
    (c : Cell) : Prop :=
  ∃ d, g.roots.get? r = some d ∧ g.SameNode d c ∧
    (E → g.SameAddress d c)

/- A value is bound; it has the address of a live cell. -/
theorem Draft.agree_of_meets
    (hg : Draft f g)
    (hMeets : g.Meets E (.scalar v) c)
    (hd : g.LiveCell d c) :
    ∃ b, g.cell? v = .ok (some b) ∧ g.Agree E b d := by
  rcases hMeets with ⟨e, hRoot, hNode, hAddress⟩
  rcases hg.cell? (Or.inr rfl) hRoot with ⟨b, hCell, hb⟩
  exact ⟨b, hCell, hb.agree hd hNode hAddress⟩

/- A value that is no formal comes to denote a cell. -/
theorem carries_bindScalar
    (hg : Draft f g)
    (hv : ¬ f.HasPointer v)
    (hc : g.Inside c)
    (hRun : bindScalar g v c = .ok h) :
    Draft f h ∧ Carries E g h (fun _ => True) fun last =>
        LinksHold E g last ∧ last.Meets E (.scalar v) c := by
  unfold bindScalar Graph.scalarCell at hRun
  rcases of_bind hRun with ⟨⟨d, g₁⟩, hBind, hRun⟩
  cases hRun
  have hr : Draft.Admits f g (.scalar v) := by
    intro e hRoot
    exact hv (hg.formals v e hRoot).1
  have hInit : ∀ i, some c = some i → g.Inside i := by
    rintro i ⟨⟩
    exact hc
  refine ⟨(hg.bindRoot hr hInit hBind).1, ?_⟩
  apply (Carries.bindRoot hg.wellFormed hBind).imp fun _ _ hS => hS
  rintro last _ _ ⟨hLinks, ⟨e, hRoot, hPlace⟩, hMeets⟩
  rcases hMeets c rfl with ⟨hNode, hAddress⟩
  exact ⟨hLinks, e, hRoot, hPlace.sameNode.trans hNode,
    fun hEx => hPlace.sameAddress.trans (hAddress hEx)⟩

/- An access through a cell is noted at its node. -/
theorem carries_noteAccess
    (hg : Draft f g)
    {flag : Flag}
    (hFlag : flag ≠ .foreign ∧ flag ≠ .array ∧ flag ≠ .offsetCollapsed)
    (hRun : noteAccess g c flag type? = .ok h) :
    Draft f h ∧ Carries E g h (fun _ => True) fun last =>
        LinksHold E g last ∧
        last.NodeHas (fun n => n.flags.has flag = true)
          c.node := by
  unfold noteAccess at hRun
  rcases of_bind hRun with ⟨g₁, hAdd, hRun⟩
  have hFlags := Carries.addFlags (E := E) hg.wellFormed hAdd
  have hFlagged : Carries E g g₁ (fun _ => True) fun last =>
      LinksHold E g last ∧
      last.NodeHas (fun n => n.flags.has flag = true)
        c.node := by
    apply hFlags.imp fun _ _ hS => hS
    rintro last _ _ ⟨hLinks, m, k, n, hLeads, hLive, hHas⟩
    refine ⟨hLinks, m, k, n, hLeads, hLive, ?_⟩
    apply hHas flag _ hFlag.1 hFlag.2.1 hFlag.2.2
    rw [Flags.has_only]
    simp
  have hg₁ := hg.addFlags hAdd
  cases type? with
  | none =>
    cases hRun
    exact ⟨hg₁, hFlagged⟩
  | some tag => exact ⟨hg₁.addTypes hRun, hFlagged.keep (.addTypes hg₁.wellFormed hRun)⟩

variable {size : Nat}

/- A plain node of a size can be made. -/
theorem wellFormed_freshNode
    (config : GraphConfig)
    {flags : Flags}
    (hSize : size < wordBound)
    (hArray : flags.has .array = false)
    (hCollapsed : flags.has .offsetCollapsed = false) :
    (freshNode flags size).WellFormed config := by
  have hNotCollapsed :
      (freshNode flags size).isCollapsed = false := hCollapsed
  have hNotArray :
      (freshNode flags size).isArray = false := hArray
  apply Node.wellFormed_of_bare
  · exact hSize
  · simp [hNotArray]
  · simp [hNotCollapsed]
  · simp [hNotArray]
  · rfl
  · rfl

/- Fresh memory keeps the flags it is made with. -/
theorem carries_freshMemory
    (hg : Draft f g)
    (flags : Flags)
    (size : Nat)
    (hSize : size < wordBound)
    (hArray : flags.has .array = false)
    (hCollapsed : flags.has .offsetCollapsed = false) :
    let fresh := g.createNode flags size
    Draft f fresh.2 ∧ fresh.2.Inside (Cell.start fresh.1) ∧
      Carries E g fresh.2 (fun _ => True) fun last =>
        LinksHold E g last ∧
        last.NodeHas (fun n => ∀ flag, flags.has flag = true → flag ≠ .foreign → flag ≠ .array →
            n.flags.has flag = true) fresh.1 := by
  intro fresh
  have hn := wellFormed_freshNode g.config hSize hArray hCollapsed
  rcases hg.createNode flags size hn with ⟨hFresh, hSlot⟩
  refine ⟨hFresh, .start hSlot, ?_⟩
  apply (Carries.createNode hg.wellFormed flags size hn).imp
  · intro last _ _ hIsArray
    rw [hArray] at hIsArray
    cases hIsArray
  · intro last hLast _ hLinks
    have hHere : fresh.2.NodeHas (fun n => ∀ flag, flags.has flag = true → flag ≠ .foreign →
          flag ≠ .array → n.flags.has flag = true) fresh.1 :=
      ⟨fresh.1, 0, _, .live hSlot, hSlot, fun _ hFlag _ _ => hFlag⟩
    refine ⟨hLinks, hHere.merged hLast.merged ?_⟩
    intro n n' k hStands hn flag hFlag hForeign hNotArray
    exact hStands.flags flag hForeign hNotArray (hn flag hFlag hForeign hNotArray)

-- Operations

open Graph

variable {p : Program} {base addr src : ValueId}

theorem shifted?_eq_some
    {delta : Nat}
    (hShift : c.shifted? delta = some d) :
    d = { c with offset := c.offset + delta } ∧ c.offset + delta < wordBound := by
  unfold Cell.shifted? addWord? at hShift
  split at hShift
  · next hWord =>
    cases hShift
    exact ⟨rfl, hWord⟩
  · cases hShift

/- A computation that cannot end in an error. -/
theorem Lowered.eq_ok_of_lift
    {x : Checked Graph}
    (hRun : (do return .ok (← x) : Lowered) = .ok (.ok h)) :
    x = .ok h := by
  rcases of_bind hRun with ⟨g, hx, hEq⟩
  cases hEq
  exact hx

theorem AllocKind.flag_ne
    (kind : AllocKind) :
    kind.flag ≠ .foreign ∧ kind.flag ≠ .array ∧ kind.flag ≠ .offsetCollapsed := by
  cases kind <;> decide

theorem carries_lowerAlloc
    (hg : Draft f g)
    (hDst : ¬ f.HasPointer dst)
    {site : AllocSite}
    (hSize : size < wordBound)
    (hRun : lowerAlloc g dst site size type? = .ok h) :
    Draft f h ∧ Carries E g h (fun _ => True) fun last =>
        LinksHold E g last ∧ (Draft f last → ∃ d n, last.cell? dst = .ok (some d) ∧
            last.nodeOf d = .ok n ∧ site ∈ n.allocSites ∧
            n.flags.has site.kind.flag = true) := by
  rcases site.kind.flag_ne with ⟨hForeign, hArray, hCollapsed⟩
  rcases carries_freshMemory (E := E) hg (Flags.only site.kind.flag) size hSize
      (by rw [Flags.has_only]; simp [hArray])
      (by rw [Flags.has_only]; simp [hCollapsed]) with
    ⟨hFresh, hStart, hMade⟩
  unfold lowerAlloc at hRun
  dsimp only at hRun
  generalize g.createNode (Flags.only site.kind.flag) size = fresh at hFresh hStart hMade hRun
  rcases of_bind hRun with ⟨g₁, hSite, hRun⟩
  have hNoted := Carries.addAllocSite (E := E) hFresh.wellFormed hSite
  have hg₁ := hFresh.addAllocSite hSite
  have hTyped : ∃ g₂, Draft f g₂ ∧ Carries E g₁ g₂ (fun _ => True)
        (fun last => LinksHold E g₁ last) ∧
      bindScalar g₂ dst (Cell.start fresh.1) = .ok h := by
    cases type? with
    | none => exact ⟨g₁, hg₁, .refl hg₁.wellFormed, hRun⟩
    | some tag =>
      dsimp only at hRun
      rcases of_bind hRun with ⟨g₂, hType, hBind⟩
      exact ⟨g₂, hg₁.addTypes hType, .addTypes hg₁.wellFormed hType, hBind⟩
  rcases hTyped with ⟨g₂, hg₂, hTyped, hBind⟩
  have hInside := (hStart.merged hNoted.later.merged).merged hTyped.later.merged
  rcases carries_bindScalar (E := E) hg₂ hDst hInside hBind with ⟨hh, hBound⟩
  refine ⟨hh, ?_⟩
  apply (((hMade.before hNoted).keep hTyped).before hBound).imp fun _ _ hS => hS
  rintro last hLast _ ⟨⟨⟨hLinks, hFlags⟩, hSites⟩, e, hRoot, hNode, _⟩
  refine ⟨hLinks, fun hDraft => ?_⟩
  rcases hDraft.cell? (Or.inr rfl) hRoot with ⟨d, hCell, hd⟩
  rcases hd.nodeOf (hd.place.sameNode.trans hNode) (hSites.and hFlags) with ⟨n, hOf, hSite, hFlag⟩
  refine ⟨d, n, hCell, hOf, hSite, ?_⟩
  apply hFlag _ _ hForeign hArray
  simp [Flags.has_only]

theorem carries_lowerCopy
    (hg : Draft f g)
    (hDst : ¬ f.HasPointer dst)
    (hRun : lowerOperation p f g (.copy dst src) = .ok (.ok h)) :
    Draft f h ∧ Carries E g h (fun _ => True) fun last =>
        LinksHold E g last ∧ (Draft f last →
            (Operation.copy dst src).Holds E f last) := by
  unfold lowerOperation at hRun
  rcases of_bind hRun with ⟨⟨c, g₁⟩, hValue, hRun⟩
  dsimp only at hRun
  rcases of_bind hRun with ⟨g₂, hBind, hRun⟩
  cases hRun
  have hFound := Carries.valueCell (E := E) hg.wellFormed hValue
  rcases hg.valueCell hValue with ⟨hg₁, hInside, _⟩
  rcases carries_bindScalar (E := E) hg₁ hDst hInside hBind with ⟨hh, hBound⟩
  refine ⟨hh, (hFound.before hBound).imp (fun _ _ hS => hS) ?_⟩
  rintro last _ _ ⟨⟨hLinks, hAt⟩, hMeets⟩
  refine ⟨hLinks, fun hDraft => ?_⟩
  rcases hDraft.cell?_of_valueAt hAt with ⟨d, hSrc, hd⟩
  rcases hDraft.agree_of_meets hMeets hd with ⟨b, hCell, hAgree⟩
  exact ⟨b, d, hCell, hSrc, hAgree⟩

variable {offset stride : Nat}

/- The field at an offset is inside a node that was grown. -/
theorem inside_of_growSize
    {n : Node}
    (hLive : g.slot c.node = .live n)
    (hWord : offset < wordBound)
    (hRun : g.growSize c.node offset = .ok h) :
    h.Inside { c with offset := offset } := by
  rcases modifyNode_eq_ok hRun with ⟨hSame, r, k, n', hLeads, hLive', hSlot⟩
  rcases hLeads.eq_of_live hLive with ⟨rfl, rfl⟩
  refine ⟨c.node, _, 0, hSame _ _ _ hLeads, hSlot, hWord, ?_⟩
  intro hPlain
  split at hPlain
  · next hOld =>
    rw [if_pos hOld]
    exact Nat.le_max_right _ _
  · next hOld => exact absurd hPlain hOld

theorem carries_lowerFieldAddr
    (hg : Draft f g)
    (hDst : ¬ f.HasPointer dst)
    (hRun : lowerFieldAddr f.name g dst base offset = .ok (.ok h)) :
    Draft f h ∧ Carries E g h (fun _ => True) fun last =>
        LinksHold E g last ∧ (Draft f last →
          (Operation.fieldAddr dst base offset).Holds E f last) := by
  unfold lowerFieldAddr at hRun
  rcases of_bind hRun with ⟨⟨c, g₁⟩, hValue, hRun⟩
  have hFound := Carries.valueCell (E := E) hg.wellFormed hValue
  rcases hg.valueCell hValue with ⟨hg₁, _, n, hLive⟩
  dsimp only at hRun
  generalize hShift : c.shifted? offset = field? at hRun
  cases field? with
  | none => cases hRun
  | some field =>
    rcases shifted?_eq_some hShift with ⟨rfl, hWord⟩
    dsimp only at hRun
    rcases of_bind hRun with ⟨g₂, hGrow, hRun⟩
    rcases of_bind hRun with ⟨g₃, hBind, hRun⟩
    cases hRun
    have hGrown := Carries.growSize (E := E) hg₁.wellFormed hWord hGrow
    have hg₂ := hg₁.growSize hWord hGrow
    have hInside := inside_of_growSize hLive hWord hGrow
    rcases carries_bindScalar (E := E) hg₂ hDst hInside hBind with ⟨hh, hBound⟩
    refine ⟨hh, ((hFound.before hGrown).before hBound).imp (fun _ _ hS => hS) ?_⟩
    rintro last hLast _ ⟨⟨⟨hLinks, hAt⟩, _⟩, hMeets⟩
    refine ⟨hLinks, fun hDraft => ?_⟩
    rcases hDraft.cell?_of_valueAt hAt with ⟨b, hBase, hb⟩
    have hField := hInside.merged (hBound.later.trans hLast).merged
    rcases hb.shifted hField with ⟨e, hShifted, he⟩
    rcases hDraft.agree_of_meets hMeets he with ⟨d, hCell, hAgree⟩
    exact ⟨d, b, e, hCell, hBase, hShifted, hAgree⟩

theorem carries_lowerLoad
    (hg : Draft f g)
    (hDst : ¬ f.HasPointer dst)
    (hRun : lowerLoad g dst addr type? = .ok h) :
    Draft f h ∧ Carries E g h (fun _ => True) fun last =>
        LinksHold E g last ∧ (Draft f last →
            (Operation.load dst addr type?).Holds E f last) := by
  unfold lowerLoad at hRun
  rcases of_bind hRun with ⟨⟨a, g₁⟩, hValue, hRun⟩
  dsimp only at hRun
  rcases of_bind hRun with ⟨g₂, hNote, hRun⟩
  rcases of_bind hRun with ⟨⟨t, g₃⟩, hLink, hBind⟩
  have hFound := Carries.valueCell (E := E) hg.wellFormed hValue
  rcases hg.valueCell hValue with ⟨hg₁, ha, _⟩
  rcases carries_noteAccess (E := E) hg₁ (by decide) hNote with ⟨hg₂, hNoted⟩
  have hLinked := Carries.makeLink (E := E) hg₂.wellFormed ha.word hLink
  rcases hg₂.makeLink ha.word hLink with ⟨hg₃, ht⟩
  rcases carries_bindScalar (E := E) hg₃ hDst ht hBind with ⟨hh, hBound⟩
  refine ⟨hh, (((hFound.before hNoted).before hLinked).before hBound).imp (fun _ _ hS => hS) ?_⟩
  rintro last _ _ ⟨⟨⟨⟨hLinks, hAt⟩, hRead⟩, hLeads⟩, e, hRoot, hNode, hAddress⟩
  refine ⟨hLinks, fun hDraft => ?_⟩
  rcases hDraft.cell?_of_valueAt hAt with ⟨b, hAddr, hb⟩
  rcases hDraft.cell? (Or.inr rfl) hRoot with ⟨d, hCell, hd⟩
  refine ⟨d, b, hCell, hAddr, hb.nodeOf hb.place.sameNode hRead, ?_⟩
  exact hDraft.linksTo hb hd (hLeads.of_sameTarget hNode.symm fun hEx => (hAddress hEx).symm)

theorem carries_lowerStore
    (hg : Draft f g)
    {value? : Option ValueId}
    (hRun : lowerStore g addr value? type? = .ok h) :
    Draft f h ∧ Carries E g h (fun _ => True) fun last =>
        LinksHold E g last ∧ (Draft f last →
          (Operation.store addr value? type?).Holds E f last) := by
  unfold lowerStore at hRun
  rcases of_bind hRun with ⟨⟨a, g₁⟩, hValue, hRun⟩
  dsimp only at hRun
  rcases of_bind hRun with ⟨g₂, hNote, hRun⟩
  have hFound := Carries.valueCell (E := E) hg.wellFormed hValue
  rcases hg.valueCell hValue with ⟨hg₁, ha, _⟩
  rcases carries_noteAccess (E := E) hg₁ (by decide) hNote with ⟨hg₂, hNoted⟩
  have hFirst := hFound.before hNoted
  cases value? with
  | none =>
    cases hRun
    refine ⟨hg₂, hFirst.imp (fun _ _ hS => hS) ?_⟩
    rintro last _ _ ⟨⟨hLinks, hAt⟩, hModified⟩
    refine ⟨hLinks, fun hDraft => ?_⟩
    rcases hDraft.cell?_of_valueAt hAt with ⟨b, hAddr, hb⟩
    refine ⟨b, hAddr, hb.nodeOf hb.place.sameNode hModified, ?_⟩
    intro value hNone
    cases hNone
  | some value =>
    dsimp only at hRun
    rcases of_bind hRun with ⟨⟨t, g₃⟩, hTarget, hRun⟩
    dsimp only at hRun
    rcases of_bind hRun with ⟨⟨a', g₄⟩, hFind, hAdd⟩
    have hSecond := Carries.valueCell (E := E) hg₂.wellFormed hTarget
    rcases hg₂.valueCell hTarget with ⟨hg₃, ht, _⟩
    have hThird := Carries.find (E := E) hg₃.wellFormed hFind
    have hg₄ := (hg₃.find hFind).1
    have hLinked := Carries.addLink (E := E) hg₄.wellFormed hAdd
    refine ⟨hg₄.addLink (ht.merged hThird.later.merged) hAdd,
      (((hFirst.before hSecond).before hThird).before hLinked).imp (fun _ _ hS => hS) ?_⟩
    rintro last _ _ ⟨⟨⟨⟨⟨hLinks, hAt⟩, hModified⟩, hAtT⟩, hPlace⟩, hLeads⟩
    refine ⟨hLinks, fun hDraft => ?_⟩
    rcases hDraft.cell?_of_valueAt hAt with ⟨b, hAddr, hb⟩
    refine ⟨b, hAddr, hb.nodeOf hb.place.sameNode hModified, ?_⟩
    rintro _ ⟨⟩
    rcases hDraft.cell?_of_valueAt hAtT with ⟨w, hCell, hw⟩
    exact ⟨w, hCell, hDraft.linksTo hb hw (hLeads.of_samePlace hPlace)⟩

theorem carries_lowerGlobalAddr
    (hg : Draft f g)
    (hDst : ¬ f.HasPointer dst)
    (hSizes : ∀ decl ∈ p.globals, decl.size < wordBound)
    {global : GlobalId}
    (hRun : lowerGlobalAddr p g dst global = .ok h) :
    Draft f h ∧ Carries E g h (fun _ => True) fun last =>
        LinksHold E g last ∧ (Draft f last →
            (Operation.globalAddr dst global).Holds E f last) := by
  unfold lowerGlobalAddr at hRun
  rcases of_bind hRun with ⟨⟨c, g₁⟩, hGlobal, hRun⟩
  dsimp only at hRun
  rcases of_bind hRun with ⟨g₂, hFlag, hRun⟩
  have hFound := Carries.bindRoot (E := E) hg.wellFormed hGlobal
  rcases hg.bindRoot (r := .global global) trivial
      (fun i hi => by cases hi) hGlobal with ⟨hg₁, hInside, _⟩
  have hFlagged := Carries.addFlags (E := E) hg₁.wellFormed hFlag
  have hg₂ := hg₁.addFlags hFlag
  have hSized : ∃ g₃, Draft f g₃ ∧ Carries E g₂ g₃ (fun _ => True)
        (fun last => LinksHold E g₂ last) ∧
      ∃ c' g₄, g₃.find c = .ok (c', g₄) ∧ bindScalar g₄ dst c' = .ok h := by
    split at hRun
    · next decl hDecl =>
      rcases of_bind hRun with ⟨g₃, hGrow, hRun⟩
      rcases of_bind hRun with ⟨⟨c', g₄⟩, hFind, hBind⟩
      have hWord := hSizes decl (List.mem_of_find?_eq_some hDecl)
      refine ⟨g₃, hg₂.growSize hWord hGrow, ?_, c', g₄, hFind, hBind⟩
      exact (Carries.growSize hg₂.wellFormed hWord hGrow).imp
        (fun _ _ hS => hS) fun _ _ _ hAll => hAll.1
    · rw [pure_bind] at hRun
      rcases of_bind hRun with ⟨⟨c', g₄⟩, hFind, hBind⟩
      exact ⟨g₂, hg₂, .refl hg₂.wellFormed, c', g₄, hFind, hBind⟩
  rcases hSized with ⟨g₃, hg₃, hSized, c', g₄, hFind, hBind⟩
  have hLooked := Carries.find (E := E) hg₃.wellFormed hFind
  rcases hg₃.find hFind with ⟨hg₄, hInside'⟩
  have hc := hInside' ((hInside.merged hFlagged.later.merged).merged hSized.later.merged)
  rcases carries_bindScalar (E := E) hg₄ hDst hc hBind with ⟨hh, hBound⟩
  refine ⟨hh, ((((hFound.before hFlagged).keep hSized).before
    hLooked).before hBound).imp (fun _ _ hS => hS) ?_⟩
  rintro last _ _ ⟨⟨⟨⟨hLinks, ⟨e, hRoot, hPlace⟩, _⟩, hFlags⟩, hMoved⟩, hMeets⟩
  refine ⟨hLinks, fun hDraft => ?_⟩
  rcases hDraft.rootCell? hRoot with ⟨b, hCell, hb⟩
  have hb' : last.LiveCell b c' := ⟨hb.live, hb.word, (hb.place.trans hPlace).trans hMoved⟩
  rcases hDraft.agree_of_meets hMeets hb' with ⟨d, hDef, hAgree⟩
  refine ⟨d, b, hDef, hCell, ?_, hAgree⟩
  rcases hb.nodeOf (hb.place.trans hPlace).sameNode hFlags with ⟨n, hOf, hHas⟩
  exact ⟨n, hOf, hHas .global (by decide) (by decide) (by decide) (by decide)⟩

theorem carries_lowerRet
    (hg : Draft f g)
    (hRun : lowerRet f g v = .ok h) :
    Draft f h ∧ Carries E g h (fun _ => True) fun last =>
        LinksHold E g last ∧ (Draft f last → (Operation.ret v).Holds E f last) := by
  unfold lowerRet at hRun
  split at hRun
  · rcases of_bind hRun with ⟨⟨r, g₁⟩, hResult, hRun⟩
    dsimp only at hRun
    rcases of_bind hRun with ⟨⟨c, g₂⟩, hValue, hUnify⟩
    have hFound := Carries.bindRoot (E := E) hg.wellFormed hResult
    have hg₁ := (hg.bindRoot (r := .result f.id) trivial (fun i hi => by cases hi) hResult).1
    have hLooked := Carries.valueCell (E := E) hg₁.wellFormed hValue
    have hg₂ := (hg₁.valueCell hValue).1
    have hUnited := Carries.unify (E := E) hg₂.wellFormed hUnify
    refine ⟨hg₂.unify hUnify, ((hFound.before hLooked).before hUnited).imp (fun _ _ hS => hS) ?_⟩
    rintro last _ _ ⟨⟨⟨hLinks, ⟨e, hRoot, hPlace⟩, _⟩, hAt⟩, hNode, hAddress⟩
    refine ⟨hLinks, fun hDraft _ => ?_⟩
    rcases hDraft.rootCell? hRoot with ⟨b, hCell, hb⟩
    have hb' : last.LiveCell b r := ⟨hb.live, hb.word, hb.place.trans hPlace⟩
    rcases hDraft.cell?_of_valueAt hAt with ⟨d, hVal, hd⟩
    exact ⟨b, d, hCell, hVal, hb'.agree hd hNode hAddress⟩
  · next hNo =>
    cases hRun
    refine ⟨hg, (Carries.refl hg.wellFormed).imp (fun _ _ hS => hS) ?_⟩
    intro last _ _ hLinks
    exact ⟨hLinks, fun _ hYes => absurd hYes hNo⟩

theorem carries_lowerIntToPtr
    (hg : Draft f g)
    (hDst : ¬ f.HasPointer dst)
    (hRun : lowerIntToPtr g dst = .ok h) :
    Draft f h ∧ Carries E g h (fun _ => True) fun last =>
        LinksHold E g last ∧ (Draft f last →
            (Operation.intToPtr dst).Holds E f last) := by
  rcases carries_freshMemory (E := E) hg (Flags.ofList [.intToPtr, .unknown]) 0 (by decide)
      (by decide) (by decide) with
    ⟨hFresh, hStart, hMade⟩
  unfold lowerIntToPtr at hRun
  dsimp only at hRun
  rcases carries_bindScalar (E := E) hFresh hDst hStart hRun with ⟨hh, hBound⟩
  refine ⟨hh, (hMade.before hBound).imp (fun _ _ hS => hS) ?_⟩
  rintro last _ _ ⟨⟨hLinks, hFlags⟩, e, hRoot, hNode, _⟩
  refine ⟨hLinks, fun hDraft => ?_⟩
  rcases hDraft.cell? (Or.inr rfl) hRoot with ⟨d, hCell, hd⟩
  rcases hd.nodeOf (hd.place.sameNode.trans hNode) hFlags with ⟨n, hOf, hHas⟩
  exact ⟨d, hCell, ⟨n, hOf, hHas _ (by decide) (by decide) (by decide)⟩,
    ⟨n, hOf, hHas _ (by decide) (by decide) (by decide)⟩⟩

theorem carries_lowerPtrToInt
    (hg : Draft f g)
    (hRun : lowerOperation p f g (.ptrToInt src) = .ok (.ok h)) :
    Draft f h ∧ Carries E g h (fun _ => True) fun last =>
        LinksHold E g last ∧ (Draft f last →
            (Operation.ptrToInt src).Holds E f last) := by
  unfold lowerOperation at hRun
  rcases of_bind hRun with ⟨⟨c, g₁⟩, hValue, hRun⟩
  dsimp only at hRun
  rcases of_bind hRun with ⟨g₂, hFlag, hRun⟩
  cases hRun
  have hFound := Carries.valueCell (E := E) hg.wellFormed hValue
  have hg₁ := (hg.valueCell hValue).1
  have hFlagged := Carries.addFlags (E := E) hg₁.wellFormed hFlag
  refine ⟨hg₁.addFlags hFlag, (hFound.before hFlagged).imp (fun _ _ hS => hS) ?_⟩
  rintro last _ _ ⟨⟨hLinks, hAt⟩, hFlags⟩
  refine ⟨hLinks, fun hDraft => ?_⟩
  rcases hDraft.cell?_of_valueAt hAt with ⟨d, hCell, hd⟩
  rcases hd.nodeOf hd.place.sameNode hFlags with ⟨n, hOf, hHas⟩
  exact ⟨d, hCell, n, hOf, hHas _ (by decide) (by decide) (by decide) (by decide)⟩

/- A collapsed node has no stride. -/
theorem Graph.NodeHas.strideAt
    {id : NodeId}
    (hHas : g.NodeHas (fun n => n.isCollapsed = true) id)
    (hg : g.WellFormed) :
    g.StrideAt id stride := by
  rcases hHas with ⟨m, k, n, hLeads, hLive, hCollapsed⟩
  intro m' k' n' hLeads' hLive' hArray
  rcases hLeads'.unique hLeads with ⟨rfl, _⟩
  rw [hLive] at hLive'
  cases hLive'
  rw [(hg.nodes _ _ hLive).collapsed_not_array hCollapsed] at hArray
  cases hArray

/-
  The node of an element address was an array before, or it is one of this
  stride in the end.
-/
theorem strideAt_of_keepsStride
    {last : Graph}
    (hg : Draft f g)
    (hValue : g.valueCell base = .ok (c, h))
    (hLast : Later h last)
    (hDraft : Draft f last)
    (hKeeps : (Operation.indexAddr dst base stride).keepsStride g last = true)
    (hPos : stride ≠ 0)
    (hNot : ¬ h.NodeHas (fun n => n.isArray = true) c.node) :
    last.StrideAt c.node stride := by
  have hStep := Carries.valueCell (E := False) hg.wellFormed hValue
  have hAt : h.ValueAt base c := (hStep.here False.elim).2
  simp only [Operation.keepsStride, Bool.or_eq_true,
    beq_iff_eq, Option.any_eq_true, Bool.and_eq_true] at hKeeps
  rcases hKeeps with (hZero | ⟨n, hNode, hArray⟩) | ⟨n, hNode, hKind⟩
  · exact absurd hZero hPos
  · rcases root_of_valueNode? hNode with ⟨r, e, hr, hRoot, hHas⟩
    rcases hAt with ⟨q, hq, e', hRoot', hPlace⟩
    have hRootH := hStep.later.roots r e hRoot
    rcases (hg.valueCell hValue).1.root_unique hr hq hRootH hRoot' with rfl
    have hFolded : g.NodeHas (fun n' => n'.isArray = true ∨ n'.isCollapsed = true) e.node :=
      hHas.imp fun n' hEq => Or.inl (hEq ▸ hArray)
    have hKept := (hFolded.merged hStep.later.merged fun n₁ n₂ k hStands hKind => by
        rcases hKind with hKind | hKind
        · exact hStands.array hKind
        · exact Or.inr (hStands.collapsed hKind)).of_sameNode hPlace.sameNode
    rcases hKept with ⟨m, k, n', hLeads, hLive, hKind | hCollapsed⟩
    · exact absurd ⟨m, k, n', hLeads, hLive, hKind⟩ hNot
    · have hHere : h.NodeHas (fun n => n.isCollapsed = true)
          c.node :=
        ⟨m, k, n', hLeads, hLive, hCollapsed⟩
      exact (hHere.merged hLast.merged
        fun _ _ _ hStands => hStands.collapsed).strideAt hDraft.wellFormed
  · rcases root_of_valueNode? hNode with ⟨r, e, hr, hRoot, hHas⟩
    rcases hAt.later hLast with ⟨q, hq, e', hRoot', hPlace⟩
    rcases hDraft.root_unique hr hq hRoot hRoot' with rfl
    have hHere := hHas.of_sameNode hPlace.sameNode
    rcases hKind with hCollapsed | ⟨_, hSize⟩
    · exact (hHere.imp fun n' hEq =>
        hEq ▸ hCollapsed).strideAt hDraft.wellFormed
    · rcases hHere with ⟨m, k, _, hLeads, hLive, rfl⟩
      intro m' k' n' hLeads' hLive' _
      rcases hLeads'.unique hLeads with ⟨rfl, _⟩
      rw [hLive] at hLive'
      cases hLive'
      exact hSize

theorem carries_lowerIndexAddr
    (hg : Draft f g)
    (hDst : ¬ f.HasPointer dst)
    (hStride : stride < wordBound)
    (hRun : lowerIndexAddr g dst base stride = .ok h) :
    Draft f h ∧ Carries E g h (fun last => Draft f last ∧
          (Operation.indexAddr dst base stride).keepsStride g last = true)
        fun last =>
        LinksHold E g last ∧ (Draft f last →
          (Operation.indexAddr dst base stride).Holds E f last) := by
  unfold lowerIndexAddr at hRun
  rcases of_bind hRun with ⟨⟨c, g₁⟩, hValue, hRun⟩
  dsimp only at hRun
  rcases of_bind hRun with ⟨g₂, hArray, hRun⟩
  rcases of_bind hRun with ⟨⟨c', g₃⟩, hFind, hBind⟩
  have hFound := Carries.valueCell (E := E) hg.wellFormed hValue
  rcases hg.valueCell hValue with ⟨hg₁, hInside, _⟩
  have hMade := (Carries.setArray (E := E) hg₁.wellFormed hStride hArray).imp (fun _ _ hS => hS)
      (Q := fun last => LinksHold E g₁ last ∧ True)
      fun _ _ _ hLinks => ⟨hLinks, trivial⟩
  have hg₂ := hg₁.setArray hStride hArray
  have hLooked := Carries.find (E := E) hg₂.wellFormed hFind
  rcases hg₂.find hFind with ⟨hg₃, hInside'⟩
  rcases carries_bindScalar (E := E) hg₃ hDst
      (hInside' (hInside.merged hMade.later.merged)) hBind with
    ⟨hh, hBound⟩
  refine ⟨hh, (((hFound.trans hMade).before hLooked).before hBound).imp ?_ ?_⟩
  · rintro last hLast ⟨hDraft, hKeeps⟩
    have hLater := ((hMade.later.trans hLooked.later).trans hBound.later).trans hLast
    exact ⟨trivial, strideAt_of_keepsStride hg hValue hLater hDraft hKeeps⟩
  · rintro last _ _ ⟨⟨⟨⟨hLinks, hAt⟩, _⟩, hPlace⟩, hMeets⟩
    refine ⟨hLinks, fun hDraft => ?_⟩
    rcases hDraft.cell?_of_valueAt hAt with ⟨b, hBase, hb⟩
    have hb' : last.LiveCell b c' := ⟨hb.live, hb.word, hb.place.trans hPlace⟩
    rcases hDraft.agree_of_meets hMeets hb' with ⟨d, hCell, hAgree⟩
    exact ⟨d, b, hCell, hBase, hAgree⟩

/-
  Every operation carries its constraint to the end, if the array it may
  make keeps its stride.
-/
theorem carries_lowerOperation
    (hg : Draft f g)
    (hSizes : ∀ decl ∈ p.globals, decl.size < wordBound)
    {op : Operation}
    (hOp : op.inWords = true)
    (hDst : ∀ v ∈ op.dst?, ¬ f.HasPointer v)
    (hRun : lowerOperation p f g op = .ok (.ok h)) :
    Draft f h ∧ Carries E g h (fun last => Draft f last ∧ op.keepsStride g last = true)
        fun last => LinksHold E g last ∧ (Draft f last → op.Holds E f last) := by
  -- Only element addresses make arrays.
  have hPlain : ∀ {Q : Graph → Prop}, (Draft f h ∧ Carries E g h (fun _ => True) Q) →
      Draft f h ∧ Carries E g h (fun last => Draft f last ∧ op.keepsStride g last = true) Q := by
    rintro Q ⟨hh, hStep⟩
    exact ⟨hh, hStep.imp (fun _ _ _ => trivial) fun _ _ _ hQ => hQ⟩
  cases op with
  | alloc dst site kind size type? =>
    exact hPlain (carries_lowerAlloc hg (hDst dst rfl)
      (of_decide_eq_true hOp) (Lowered.eq_ok_of_lift hRun))
  | copy dst src => exact hPlain (carries_lowerCopy hg (hDst dst rfl) hRun)
  | fieldAddr dst base offset => exact hPlain (carries_lowerFieldAddr hg (hDst dst rfl) hRun)
  | indexAddr dst base stride =>
    exact carries_lowerIndexAddr hg (hDst dst rfl)
      (of_decide_eq_true hOp) (Lowered.eq_ok_of_lift hRun)
  | load dst addr type? =>
    exact hPlain (carries_lowerLoad hg (hDst dst rfl) (Lowered.eq_ok_of_lift hRun))
  | store addr value? type? => exact hPlain (carries_lowerStore hg (Lowered.eq_ok_of_lift hRun))
  | globalAddr dst global =>
    exact hPlain (carries_lowerGlobalAddr hg (hDst dst rfl) hSizes (Lowered.eq_ok_of_lift hRun))
  | ret value => exact hPlain (carries_lowerRet hg (Lowered.eq_ok_of_lift hRun))
  | intToPtr dst =>
    exact hPlain (carries_lowerIntToPtr hg (hDst dst rfl) (Lowered.eq_ok_of_lift hRun))
  | ptrToInt src => exact hPlain (carries_lowerPtrToInt hg hRun)

end HeapShape
