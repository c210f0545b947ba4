import HeapShape.Proofs.Graph.Copied
import HeapShape.Proofs.Graph.Kept
import HeapShape.Proofs.Graph.Reachable
import Mathlib.Logic.Relation

/-
  The values that denote a node.

  A node that remembers the value that denotes it is denoted by no other,
  but for values that it overlooked: a value bound off the start of a node
  that never had one of its own leaves no trace. A value that was noticed
  stays so through every later operation, so the history of a graph tells
  for each other value when it was overlooked.

  Main declarations:
    * `Graph.Noted`
    * `History`
    * `History.noted_or_overlooked`
    * `unique_scalar_is_unique_where_noticed`
-/

-- Noticed Values

namespace HeapShape

open Checked

/- The value that a scalar or a formal belongs to. -/
def Root.value? : Root → Option ValueId
| .scalar v | .formal v => some v
| .result _ | .global _ => none

/- Only `v` can be the value that the node remembers. -/
def UniqueScalar.Admits
    (v : ValueId)
    (u : UniqueScalar) : Prop :=
  u.everHad = true ∧
    ∀ w, u.value? = some w → w = v

variable {v : ValueId}

theorem UniqueScalar.Follows.admits
    {u w : UniqueScalar}
    (h : u.Follows w)
    (hu : u.Admits v) :
    w.Admits v := by
  refine ⟨h.had hu.1, ?_⟩
  intro x hx
  rcases h.kept hu.1 with hSame | hNone
  · exact hu.2 x (hSame.symm.trans hx)
  · rw [hNone] at hx
    cases hx

theorem UniqueScalar.admits_record
    (u : UniqueScalar)
    (v : ValueId) :
    (u.record v).Admits v := by
  unfold UniqueScalar.record UniqueScalar.Admits
  cases hHad : u.everHad with
  | false => simp
  | true =>
    by_cases hSame : u.value? = some v
    · simp [hSame, hHad]
    · simp [hSame]

namespace Graph

/- The node of a root has taken notice of its value. -/
def Noted
    (g : Graph)
    (r : Root) : Prop :=
  ∃ v c, r.value? = some v ∧ g.roots.get? r = some c ∧
    g.NodeHas (fun n => n.uniqueScalar.Admits v) c.node

/-
  A root lies off the start of a node that never had a value of its own.
-/
def Overlooks
    (g : Graph)
    (r : Root) : Prop :=
  ∃ c n, g.RootAt r c ∧ g.slot c.node = .live n ∧
    n.effectiveOffset c.offset ≠ 0 ∧
    n.uniqueScalar.everHad = false

/-
  A step by which no value is forgotten that was noticed, and roots of
  values that are new are noticed or overlooked.
-/
structure Advances
    (g h : Graph) : Prop where
  wellFormed : h.WellFormed
  noted : ∀ r, g.Noted r → h.Noted r
  fresh : ∀ r v c, r.value? = some v →
    h.roots.get? r = some c →
    (∃ d, g.roots.get? r = some d) ∨ h.Noted r ∨
      h.Overlooks r

variable {g h : Graph} {r : Root}

theorem Noted.later
    (hNoted : g.Noted r)
    (hgh : Later g h) :
    h.Noted r := by
  rcases hNoted with ⟨v, c, hValue, hRoot, hHas⟩
  refine ⟨v, c, hValue, hgh.roots r c hRoot, hHas.merged hgh.merged ?_⟩
  exact fun n n' k hStands hn => hStands.scalar.admits hn

variable {n : Node} {v : ValueId}

theorem RootAt.noted
    {c : Cell}
    (hAt : g.RootAt r c)
    (hValue : r.value? = some v)
    (hLive : g.slot c.node = .live n)
    (hn : n.uniqueScalar.Admits v) :
    g.Noted r := by
  rcases hAt with ⟨d, hRoot, m, j, k, hd, hc, _⟩
  rcases hc.eq_of_live hLive with ⟨rfl, _⟩
  exact ⟨v, d, hValue, hRoot, _, j, n, hd, hLive, hn⟩

/- A step that binds no root. -/
theorem Advances.of_later
    (hgh : Later g h)
    (hRoots : h.roots = g.roots) :
    Advances g h where
  wellFormed := hgh.wellFormed
  noted := fun _ hNoted => hNoted.later hgh
  fresh := fun _ _ c _ hRoot => Or.inl ⟨c, hRoots ▸ hRoot⟩

/- Merging and the noting of facts bind none. -/
theorem Advances.of_rewired
    {E : Prop}
    {Q : Graph → Prop}
    {T : Cell → Prop}
    (hSound : Sound E g h Q)
    (hRewired : Rewired g h T) :
    Advances g h := by
  refine .of_later ⟨hSound.wellFormed, hSound.merged, ?_, hRewired.callSites⟩ hRewired.roots
  intro r c hRoot
  rw [hRewired.roots, hRoot]

theorem Advances.modifyNode
    {id : NodeId}
    {f : Node → Node}
    (hg : g.WellFormed)
    (hRun : g.modifyNode id f = .ok h)
    (hLinks : ∀ n, (f n).links = n.links)
    (hSound : Sound False g h fun last => LinksHold False g last) :
    Advances g h :=
  .of_rewired hSound (Rewired.modifyNode (T := fun _ => False) hg.freeListed hLinks hRun)

/- A step that changes neither nodes nor roots. -/
theorem Advances.of_same
    (hh : h.WellFormed)
    (hSlots : h.slots = g.slots)
    (hRoots : h.roots = g.roots) :
    Advances g h where
  wellFormed := hh
  fresh := fun _ _ c _ hRoot => Or.inl ⟨c, hRoots ▸ hRoot⟩
  noted := by
    rintro r ⟨v, c, hValue, hRoot, m, k, n, hLeads, hLive, hn⟩
    have hSlot : ∀ x, h.slot x = g.slot x := by
      intro x
      unfold slot
      rw [hSlots]
    refine ⟨v, c, hValue, hRoots ▸ hRoot, m, k, n, ?_, (hSlot m).trans hLive, hn⟩
    exact hLeads.congr (fun x t hx => (hSlot x).trans hx) fun x n hx => ⟨n, (hSlot x).trans hx⟩

/- Collection keeps the nodes of roots. -/
theorem Advances.of_collected
    (hgh : Collected g h) :
    Advances g h where
  wellFormed := hgh.wellFormed
  noted := by
    rintro r ⟨v, c, hValue, hRoot, m, k, n, hLeads, hLive, hn⟩
    rcases hgh.exists_root hRoot with ⟨d, hResolve, hNew, _⟩
    rcases hgh.live_root hNew with ⟨n', hLive'⟩
    rcases hgh.nodes _ n' hLive' with ⟨l, hl, hFacts, _⟩
    rcases leads_of_resolve hResolve with ⟨j, hEnd, _⟩
    rcases hEnd.unique hLeads with ⟨rfl, rfl⟩
    rw [hl] at hLive
    cases hLive
    have hn' : n'.uniqueScalar.Admits v := by
      rw [hFacts.scalar]
      exact hn
    exact ⟨v, d, hValue, hNew, d.node, 0, n', .live hLive', hLive', hn'⟩
  fresh := by
    intro r v c _ hRoot
    have hFound := hgh.roots r
    unfold rootCell? at hFound
    cases hOld : g.roots.get? r with
    | some d => exact Or.inl ⟨d, rfl⟩
    | none =>
      rw [hOld, hRoot] at hFound
      cases hFound

-- Operations

variable {c : Cell} {init? : Option Cell}

/- The making of a link binds no root. -/
theorem roots_makeLink
    (hg : g.WellFormed)
    {type? : Option TypeTag}
    {t : Cell}
    (hRun : g.makeLink c type? = .ok (t, h)) :
    h.roots = g.roots ∧ h.callSites = g.callSites := by
  unfold Graph.makeLink at hRun
  rcases of_bind hRun with ⟨_ | target, _, hRun⟩
  · rcases of_bind hRun with ⟨g₁, hAdd, hFind⟩
    have hMade := Derived.createNode (T := fun _ => True) hg.freeListed Flags.empty 0
    have hAdded := Fused.addLink (T := fun _ => True) hMade.freeListed trivial hAdd
    have hFound := (Fused.find (T := fun _ => True) hAdded.freeListed hFind).1
    exact ⟨hFound.roots.trans (hAdded.roots.trans hMade.roots),
      hFound.callSites.trans (hAdded.callSites.trans hMade.callSites)⟩
  · cases hRun
    exact ⟨rfl, rfl⟩

/-
  A value is noticed at the start of a node, and elsewhere if the node had a
  value.
-/
theorem noted_or_overlooked_of_note
    {g₁ : Graph}
    (hValue : r.value? = some v)
    (hSlot : g₁.slot c.node = .live n)
    (hRun : g₁.noteUniqueScalar v c = .ok h)
    (hAt : h.RootAt r c) :
    h.Noted r ∨ h.Overlooks r := by
  unfold Graph.noteUniqueScalar at hRun
  rw [modifyContents_of_live hSlot] at hRun
  cases hRun
  have hLive := slot_setSlot (lt_size_of_live hSlot) (.live { n with
      uniqueScalar :=
        if n.effectiveOffset c.offset = 0 then
          n.uniqueScalar.record v
        else n.uniqueScalar.clear }) c.node
  rw [if_pos rfl] at hLive
  by_cases hStart : n.effectiveOffset c.offset = 0
  · refine Or.inl (hAt.noted hValue hLive ?_)
    rw [if_pos hStart]
    exact n.uniqueScalar.admits_record v
  · cases hHad : n.uniqueScalar.clear.everHad with
    | true =>
      refine Or.inl (hAt.noted hValue hLive ?_)
      rw [if_neg hStart]
      exact ⟨hHad, fun w hw => by cases hw⟩
    | false =>
      refine Or.inr ⟨c, _, hAt, hLive, hStart, ?_⟩
      rw [if_neg hStart]
      exact hHad

/- The value of a root is noticed where it is bound. -/
theorem noted_or_overlooked_of_bindRoot
    (hg : g.WellFormed)
    (hValue : r.value? = some v)
    (hRun : g.bindRoot r init? = .ok (c, h)) :
    h.Noted r ∨ h.Overlooks r := by
  have hAt := ((Carries.bindRoot (E := False) hg hRun).here False.elim).2.1
  unfold Graph.bindRoot at hRun
  rcases of_bind hRun with ⟨⟨d, g₁⟩, hTarget, hRun⟩
  rcases (Sound.rootTarget (E := False) hg hTarget).2 with ⟨n, hSlot⟩
  cases r with
  | scalar w | formal w =>
    rcases of_bind hRun with ⟨g₂, hNote, hDone⟩
    cases hDone
    cases hValue
    exact noted_or_overlooked_of_note rfl hSlot hNote hAt
  | result f | global w => cases hValue

theorem Advances.bindRoot
    (hg : g.WellFormed)
    (hRun : g.bindRoot r init? = .ok (c, h)) :
    Advances g h := by
  have hLater := (Carries.bindRoot (E := False) hg hRun).later
  refine ⟨hLater.wellFormed, fun x hNoted => hNoted.later hLater, ?_⟩
  intro x v d hValue hRoot
  by_cases hSame : x = r
  · subst hSame
    exact Or.inr (noted_or_overlooked_of_bindRoot hg hValue hRun)
  · rw [get?_bindRoot_of_ne hg hRun hSame] at hRoot
    exact Or.inl ⟨d, hRoot⟩

end Graph

open Graph

variable {g h : Graph}

theorem Merging.advances
    {op : Merging}
    (hOp : op.Admissible)
    (hg : g.WellFormed)
    (hRun : op.run g = .ok h) :
    Advances g h := by
  have hSound := op.sound (E := False) hOp False.elim hg hRun
  cases op with
  | unify a b =>
    exact .of_rewired hSound (Fused.unify (T := fun _ => False) hg.freeListed hRun).toRewired
  | collapse node =>
    rcases exists_of_discard hRun with ⟨rep, hRun⟩
    exact .of_rewired hSound (Fused.collapseBy (T := fun _ => False) (derives_unifyWithin _)
      hg.freeListed hRun).1.toRewired
  | setArray node stride =>
    exact .of_rewired hSound (Fused.setArray (T := fun _ => False) hg.freeListed hRun).toRewired
  | addLink c type? t =>
    exact .of_rewired hSound (Fused.addLink (T := fun _ => True) hg.freeListed trivial
      hRun).toRewired
  | makeLink c type? =>
    rcases exists_of_discard hRun with ⟨t, hRun⟩
    rcases roots_makeLink hg hRun with ⟨hRoots, hCalls⟩
    refine .of_later ⟨hSound.wellFormed, hSound.merged, ?_, hCalls⟩ hRoots
    exact fun r c hRoot => hRoots ▸ hRoot
  | bindRoot r init? =>
    rcases exists_of_discard hRun with ⟨c, hRun⟩
    exact .bindRoot hg hRun

/- Every operation is such a step. -/
theorem Update.advances
    {op : Update}
    (hOp : op.Admissible)
    (hg : g.WellFormed)
    (hRun : op.run g = .ok h) :
    Advances g h := by
  have hh := op.wellFormed hOp hg hRun
  cases op with
  | merge op => exact op.advances hOp hg hRun
  | createNode flags size =>
    cases hRun
    exact .of_rewired (Sound.createNode (E := False) hg _ _
      (Update.Admissible.freshNode hOp g.config) False.elim)
      (Derived.createNode (T := fun _ => False) hg.freeListed flags size).toRewired
  | find c =>
    rcases exists_of_discard hRun with ⟨d, hRun⟩
    exact .of_rewired (Sound.find (E := False) hg hRun).1
      (Fused.find (T := fun _ => False) hg.freeListed hRun).1.toRewired
  | valueCell v =>
    rcases exists_of_discard hRun with ⟨c, hRun⟩
    unfold Graph.valueCell at hRun
    split at hRun
    · exact .of_rewired (Sound.find (E := False) hg hRun).1
        (Fused.find (T := fun _ => False) hg.freeListed hRun).1.toRewired
    · exact .bindRoot hg hRun
  | addType c tag =>
    change g.addTypes c (OrdSet.singleton tag) = .ok h at hRun
    exact .of_rewired (Sound.addTypes (E := False) hg hRun)
      (Fused.addTypes (T := fun _ => False) hg.freeListed hRun).toRewired
  | addFlags node flags => exact .modifyNode hg hRun (fun _ => rfl) (Sound.addFlags hg hRun)
  | growSize node size =>
    refine .modifyNode hg hRun (fun n => ?_) (Sound.growSize hg hOp hRun)
    split <;> rfl
  | addAllocSite node site => exact .modifyNode hg hRun (fun _ => rfl) (Sound.addAllocSite hg hRun)
  | clearUniqueScalar node =>
    exact .modifyNode hg hRun (fun _ => rfl) (Sound.clearUniqueScalar hg hRun)
  | addFunction f =>
    cases hRun
    exact .of_same hh rfl rfl
  | recordCallSite cs cells =>
    cases hRun
    exact .of_same hh rfl rfl
  | clearCallSites =>
    cases hRun
    exact .of_same hh rfl rfl
  | compress => exact .of_collected (Compressed.of_compress hg hRun).toCollected
  | removeDead =>
    rcases exists_of_discard hRun with ⟨count, hRun⟩
    exact .of_collected (.of_removeDead hg hRun)
  | pruneForeign =>
    rcases exists_of_discard hRun with ⟨count, hRun⟩
    exact .of_collected (.of_pruneForeign hg hRun)

-- Histories

open Graph

/- One step in the making of a graph. -/
inductive Revision : Graph → Graph → Prop
| operation
    {g h : Graph} (op : Update) (hOp : op.Admissible)
    (hRun : op.run g = .ok h) :
    Revision g h
| copyCell
    {k k' : Copier} (hk : k.Pictured) (hForced : k.ForcedCopied) {c d : Cell} {force : Bool}
    (hRun : k.copyCell c force = .ok (d, k')) :
    Revision k.dest k'.dest

/-
  The graphs through which a graph has come to be, the last one first.
  An import goes through many.
-/
inductive History : List Graph → Prop
| start
    (config : GraphConfig) :
    History [{ config := config }]
| step
    {g h : Graph} {past : List Graph} (hPast : History (g :: past))
    (hStep : Revision g h) :
    History (h :: g :: past)

variable {other : Graph} {past : List Graph}

theorem Revision.advances
    (hg : g.WellFormed)
    (hStep : Revision g h) :
    Advances g h := by
  cases hStep with
  | operation op hOp hRun => exact op.advances hOp hg hRun
  | copyCell hk hForced hRun =>
    rcases Copier.Grows.copyCell (E := False) (R := fun _ => False) hk hForced hRun with
      ⟨_, _, _, _, _, hGrows⟩
    refine .of_later hGrows.carries.later ?_
    exact OrdMap.ext_get? fun r => hGrows.roots r id

theorem History.wellFormed
    (hPast : History (g :: past)) :
    g.WellFormed := by
  generalize hList : g :: past = all at hPast
  induction hPast generalizing g past with
  | start config =>
    cases hList
    exact wellFormed_empty config
  | step _ hStep ih =>
    cases hList
    exact (hStep.advances (ih rfl)).wellFormed

/- Each root of a value was noticed, or once overlooked. -/
theorem History.noted_or_overlooked
    (hPast : History (g :: past))
    {r : Root}
    {c : Cell}
    (hValue : r.value? = some v)
    (hRoot : g.roots.get? r = some c) :
    g.Noted r ∨ ∃ i ∈ g :: past, i.Overlooks r := by
  generalize hList : g :: past = all at hPast
  induction hPast generalizing g past c with
  | start config =>
    cases hList
    cases hRoot
  | step hPast hStep ih =>
    cases hList
    have hNext := hStep.advances hPast.wellFormed
    rcases hNext.fresh r v c hValue hRoot with ⟨d, hOld⟩ | hNoted | hOverlooks
    · rcases ih hOld rfl with hNoted | ⟨i, hMem, hi⟩
      · exact Or.inl (hNext.noted r hNoted)
      · exact Or.inr ⟨i, List.mem_cons_of_mem _ hMem, hi⟩
    · exact Or.inl hNoted
    · exact Or.inr ⟨_, List.mem_cons_self, hOverlooks⟩

/- An import is made of copies and bindings. -/
theorem History.importFrom
    (hPast : History (g :: past))
    (hOther : other.WellFormed)
    {withFormals : Bool}
    (hRun : g.importFrom other withFormals = .ok h) :
    ∃ past, History (h :: past) := by
  unfold Graph.importFrom at hRun
  rcases of_bind hRun with ⟨roots, _, hRun⟩
  rcases of_bind hRun with ⟨k, hFold, hRun⟩
  cases hRun
  have hCopied : k.Pictured ∧ k.ForcedCopied ∧ ∃ past, History (k.dest :: past) := by
    refine foldlM_induction (P := fun k : Copier => k.Pictured ∧ k.ForcedCopied ∧
        ∃ past, History (k.dest :: past)) ?_ ?_ hFold
    · rintro k₁ ⟨r, c⟩ _ k₂ ⟨hk₁, hForced, past, hPast⟩ hStep
      dsimp only at hStep
      rcases of_bind hStep with ⟨⟨copy, k₃⟩, hCopy, hStep⟩
      unfold Copier.mapDest at hStep
      rcases of_bind hStep with ⟨dest, hBind, hStep⟩
      cases hStep
      rcases Copier.Grows.copyCell (E := False) (R := fun _ => False) hk₁ hForced hCopy with
        ⟨_, _, _, _, _, hGrows⟩
      have hBound : Update.run k₃.dest (.merge (.bindRoot r (some copy))) = .ok dest := hBind
      rcases exists_of_discard hBind with ⟨_, hBind⟩
      refine ⟨hGrows.pictured.setDest (Carries.bindRoot
        (E := False) hGrows.pictured.dest hBind).later,
        hGrows.forced hForced,
        k₃.dest :: k₁.dest :: past, ?_⟩
      exact .step (.step hPast (.copyCell hk₁ hForced hCopy))
        (.operation (.merge (.bindRoot r (some copy))) trivial hBound)
    · refine ⟨⟨hOther, hPast.wellFormed, ?_⟩, ?_, past, hPast⟩
      · intro src c hCopy
        cases hCopy
      · intro src hForced
        cases hForced
  rcases hCopied with ⟨_, _, past', hPast'⟩
  -- The owners are noted one by one.
  generalize k.dest = dest at hPast'
  induction other.functions.toList generalizing dest past' with
  | nil => exact ⟨past', hPast'⟩
  | cons f rest ih => exact ih _ _ (.step hPast' (.operation (.addFunction f) trivial rfl))

/- Whatever operations make a graph, it has a history. -/
theorem exists_history
    {config : GraphConfig}
    (hg : Relation.ReflTransGen Changes { config := config }
      g) :
    ∃ past, History (g :: past) := by
  induction hg with
  | refl => exact ⟨[], .start config⟩
  | tail _ hChange ih =>
    rcases ih with ⟨past, hPast⟩
    cases hChange with
    | operation op hOp hRun => exact ⟨_, .step hPast (.operation op hOp hRun)⟩
    | importFrom hOther withFormals hRun =>
      exact hPast.importFrom (wellFormed_of_reachable hOther) hRun

/-
  If a node remembers a value that denotes it, then a scalar or formal bound
  to the node is one of this value, or else it was overlooked: at some time
  it lay off the start of a node that had never had a value of its own.
-/
theorem unique_scalar_is_unique_where_noticed
    {config : GraphConfig}
    {g : Graph}
    (hg : Relation.ReflTransGen Changes { config := config }
      g) :
    (∃ past, History (g :: past)) ∧
    ∀ past, History (g :: past) →
      ∀ r w d n v, r.value? = some w →
        g.rootCell? r = .ok (some d) →
        g.slot d.node = .live n →
        n.uniqueScalar.value? = some v →
          w = v ∨ ∃ i ∈ g :: past, i.Overlooks r := by
  refine ⟨exists_history hg, ?_⟩
  intro past hPast r w d n v hValue hCell hLive hUnique
  unfold rootCell? at hCell
  rw [Checked.option_mapM_eq_some_iff] at hCell
  rcases hCell with ⟨c, hRoot, hResolve⟩
  rcases hPast.noted_or_overlooked hValue hRoot with
    ⟨w', c', hValue', hRoot', m, k, n', hLeads, hLive', hn'⟩ |
    hOverlooked
  · rw [hValue] at hValue'
    cases hValue'
    rw [hRoot] at hRoot'
    cases hRoot'
    rcases leads_of_resolve hResolve with ⟨_, hEnd, _⟩
    rcases hEnd.unique hLeads with ⟨rfl, _⟩
    rw [hLive] at hLive'
    cases hLive'
    exact Or.inl (hn'.2 v hUnique).symm
  · exact Or.inr hOverlooked

/-
  The first value is bound off the start of a bare node, the second at its
  start.
-/
def fieldFirst : List Update :=
  [.createNode Flags.empty 16,
    .merge (.bindRoot (.scalar 1) (some ⟨0, 8⟩)),
    .merge (.bindRoot (.scalar 2) (some ⟨0, 0⟩)),
    .compress]

/- The second is remembered as the only one. -/
theorem unique_scalar_is_shared_by_fieldFirst :
    ∃ g d n past, Update.runAll {} fieldFirst = .ok g ∧
      History (g :: past) ∧
      g.rootCell? (.scalar 1) = .ok (some d) ∧
      g.slot d.node = .live n ∧
      n.uniqueScalar.value? = some 2 ∧
      ∃ i ∈ g :: past, i.Overlooks (.scalar 1) := by
  rcases Update.exists_runs {} fieldFirst []
      (P := fun g _ =>
        g.rootCell? (.scalar 1) = .ok (some ⟨0, 8⟩) ∧
        g.slot 0 = .live
          { flags := Flags.empty, size := 16
            uniqueScalar := ⟨some 2, true⟩ })
      (by decide) (by decide +kernel) with
    ⟨g, _, hBuild, _, _, _, hCell, hLive⟩
  have hMade : Relation.ReflTransGen Changes {} g := by
    refine Checked.foldlM_induction
      (P := Relation.ReflTransGen Changes {}) ?_ .refl hBuild
    intro a op hMem b ha hStep
    have hOps : ∀ op ∈ fieldFirst, op.Admissible := by decide
    exact ha.tail (.operation op (hOps op hMem) hStep)
  rcases unique_scalar_is_unique_where_noticed hMade with
    ⟨⟨past, hPast⟩, hAll⟩
  refine ⟨g, ⟨0, 8⟩, _, past, hBuild, hPast, hCell, hLive,
    rfl, ?_⟩
  rcases hAll past hPast _ 1 _ _ 2 rfl hCell hLive rfl with
    hSame | hOverlooked
  · exact absurd hSame (by decide)
  · exact hOverlooked

end HeapShape
