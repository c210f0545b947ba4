import HeapShape.Graph.Merge
import HeapShape.Proofs.Checked

/-
  Well-formed nodes, and nodes inside nodes.

  A node reads the offsets of its links and types in one of three ways, and
  keeps them where that way of reading finds them. `Node.LiesIn` says that a
  node can be laid over another from some offset on without a loss of
  offsets; `Node.StandsFor` adds that nothing known of it is lost.

  Main declarations:
    * `Node.WellFormed`
    * `Node.StandsFor`
    * `Node.LiesIn.effectiveField_shift`
    * `Graph.standsFor_takeOver_moved`
-/

-- Ways Of Reading Offsets

namespace HeapShape

namespace Node

variable {n m : Node}

/- A node is plain unless it is collapsed or an array. -/
theorem isPlain_iff :
    n.isPlain = true ↔ n.isCollapsed = false ∧ n.isArray = false := by
  unfold isPlain
  simp

theorem isPlain_eq_false_iff :
    n.isPlain = false ↔ n.isCollapsed = true ∨ n.isArray = true := by
  unfold isPlain
  cases n.isCollapsed <;> simp

/- The three ways in which a node reads offsets. -/
theorem kind_cases
    (n : Node) :
    n.isCollapsed = true ∨ (n.isCollapsed = false ∧
        n.isArray = true) ∨ n.isPlain = true := by
  rw [isPlain_iff]
  cases n.isCollapsed <;> cases n.isArray <;> simp

theorem effectiveOffset_of_collapsed
    (h : n.isCollapsed = true)
    (raw : Nat) :
    n.effectiveOffset raw = 0 := by
  unfold effectiveOffset
  rw [if_pos h]

theorem effectiveOffset_of_array
    (hCollapsed : n.isCollapsed = false)
    (hArray : n.isArray = true)
    (raw : Nat) :
    n.effectiveOffset raw = raw % n.size := by
  unfold effectiveOffset
  rw [if_neg (by simp [hCollapsed]), hArray]
  by_cases hSize : n.size > 0
  · simp [hSize]
  · have hZero : n.size = 0 := by omega
    simp [hZero]

theorem effectiveOffset_of_plain
    (h : n.isPlain = true)
    (raw : Nat) :
    n.effectiveOffset raw = raw := by
  rcases isPlain_iff.mp h with ⟨hCollapsed, hArray⟩
  unfold effectiveOffset
  simp [hCollapsed, hArray]

theorem effectiveField_of_collapsed
    (h : n.isCollapsed = true)
    (f : Field) :
    n.effectiveField f = Field.untyped 0 := by
  unfold effectiveField
  rw [if_pos h]

theorem effectiveField_of_not_collapsed
    (h : n.isCollapsed = false)
    (f : Field) :
    n.effectiveField f = { f with offset := n.effectiveOffset f.offset } := by
  unfold effectiveField
  rw [if_neg (by simp [h])]

theorem effectiveField_of_plain
    (h : n.isPlain = true)
    (f : Field) :
    n.effectiveField f = f := by
  rw [effectiveField_of_not_collapsed (isPlain_iff.mp h).1, effectiveOffset_of_plain h]

-- Well-Formed Nodes

/- The fields under which a node can have links. -/
structure LinkKey
    (n : Node)
    (config : GraphConfig)
    (f : Field) : Prop where
  collapsed : n.isCollapsed = true → f = Field.untyped 0
  array : n.isArray = true → f.offset < n.size
  plain : n.isPlain = true →
    f.offset + config.pointerSize ≤ n.size
  untyped : config.typeAwareFields = false → f.type? = none

/- The offsets at which a node can have types. -/
structure TypeKey
    (n : Node)
    (o : Nat) : Prop where
  collapsed : n.isCollapsed = true → o = 0
  array : n.isArray = true → o < n.size

/-
  A collapsed node is no array and one byte large, an array has elements,
  and links and types are where they belong.
-/
structure WellFormed
    (n : Node)
    (config : GraphConfig) : Prop where
  size_lt : n.size < wordBound
  collapsed_not_array :
    n.isCollapsed = true → n.isArray = false
  collapsed_size : n.isCollapsed = true → n.size = 1
  array_size : n.isArray = true → 0 < n.size
  links : ∀ f t,
    n.links.get? f = some t → n.LinkKey config f
  types : ∀ o ts, n.types.get? o = some ts → n.TypeKey o

variable {config : GraphConfig} {f : Field}

/- Link keys depend on how a node reads its offsets. -/
theorem LinkKey.congr
    (hf : n.LinkKey config f)
    (hCollapsed : m.isCollapsed = n.isCollapsed)
    (hArray : m.isArray = n.isArray)
    (hSize : n.size ≤ m.size) :
    m.LinkKey config f where
  collapsed := fun h => hf.collapsed (hCollapsed ▸ h)
  array := fun h =>
    Nat.lt_of_lt_of_le (hf.array (hArray ▸ h)) hSize
  plain := by
    intro h
    apply Nat.le_trans (hf.plain _) hSize
    rw [isPlain_iff] at h ⊢
    rwa [hCollapsed, hArray] at h
  untyped := hf.untyped

theorem TypeKey.congr
    {o : Nat}
    (ho : n.TypeKey o)
    (hCollapsed : m.isCollapsed = n.isCollapsed)
    (hArray : m.isArray = n.isArray)
    (hSize : n.size ≤ m.size) :
    m.TypeKey o where
  collapsed := fun h => ho.collapsed (hCollapsed ▸ h)
  array := fun h =>
    Nat.lt_of_lt_of_le (ho.array (hArray ▸ h)) hSize

/- A node without links and types has no key to misplace. -/
theorem wellFormed_of_bare
    (hSize : n.size < wordBound)
    (hExclusive : n.isCollapsed = true → n.isArray = false)
    (hCollapsed : n.isCollapsed = true → n.size = 1)
    (hArray : n.isArray = true → 0 < n.size)
    (hLinks : n.links = OrdMap.empty)
    (hTypes : n.types = OrdMap.empty) :
    n.WellFormed config where
  size_lt := hSize
  collapsed_not_array := hExclusive
  collapsed_size := hCollapsed
  array_size := hArray
  links := by
    intro f t hLink
    rw [hLinks] at hLink
    cases hLink
  types := by
    intro o ts hType
    rw [hTypes] at hType
    cases hType

/-
  A node stays well-formed as long as it reads offsets the same way, does
  not shrink, and gains only keys that are in place. A collapsed node does
  not grow.
-/
theorem WellFormed.update
    (hn : n.WellFormed config)
    (hCollapsed : m.isCollapsed = n.isCollapsed)
    (hArray : m.isArray = n.isArray)
    (hSize : n.size ≤ m.size)
    (hLt : m.size < wordBound)
    (hOne : n.isCollapsed = true → m.size = n.size)
    (hLinks : ∀ f t, m.links.get? f = some t →
        n.links.get? f = some t ∨ m.LinkKey config f)
    (hTypes : ∀ o ts, m.types.get? o = some ts →
        (∃ ts', n.types.get? o = some ts') ∨ m.TypeKey o) :
    m.WellFormed config where
  size_lt := hLt
  collapsed_not_array := by
    rw [hCollapsed, hArray]
    exact hn.collapsed_not_array
  collapsed_size := by
    intro h
    rw [hCollapsed] at h
    rw [hOne h, hn.collapsed_size h]
  array_size := by
    intro h
    rw [hArray] at h
    exact Nat.lt_of_lt_of_le (hn.array_size h) hSize
  links := by
    intro f t hLink
    rcases hLinks f t hLink with hOld | hNew
    · exact (hn.links f t hOld).congr hCollapsed hArray hSize
    · exact hNew
  types := by
    intro o ts hType
    rcases hTypes o ts hType with ⟨ts', hOld⟩ | hNew
    · exact (hn.types o ts' hOld).congr hCollapsed hArray hSize
    · exact hNew

/-
  The key that a field means in a node is in place, once a plain node has
  grown to hold it.
-/
theorem WellFormed.linkKey_effectiveField
    (hn : n.WellFormed config)
    (hCollapsed : m.isCollapsed = n.isCollapsed)
    (hArray : m.isArray = n.isArray)
    (hSize : n.size ≤ m.size)
    (raw : Nat)
    (type? : Option TypeTag)
    (hPlain : n.isPlain = true → raw + config.pointerSize ≤ m.size) :
    m.LinkKey config (n.effectiveField (Field.make config raw type?)) where
  collapsed := fun h =>
    effectiveField_of_collapsed (hCollapsed ▸ h) _
  array := by
    intro h
    rw [hArray] at h
    have hNot : n.isCollapsed = false := by
      cases hc : n.isCollapsed with
      | false => rfl
      | true =>
        rw [hn.collapsed_not_array hc] at h
        cases h
    rw [effectiveField_of_not_collapsed hNot, effectiveOffset_of_array hNot h]
    exact Nat.lt_of_lt_of_le (Nat.mod_lt _ (hn.array_size h)) hSize
  plain := by
    intro h
    rw [isPlain_iff, hCollapsed, hArray, ← isPlain_iff] at h
    rw [effectiveField_of_plain h]
    exact hPlain h
  untyped := by
    intro h
    unfold effectiveField
    split
    · rfl
    · simp [Field.make, h]

/- The offset that a raw offset means is in place. -/
theorem WellFormed.typeKey_effectiveOffset
    (hn : n.WellFormed config)
    (raw : Nat) :
    n.TypeKey (n.effectiveOffset raw) where
  collapsed := fun h => effectiveOffset_of_collapsed h raw
  array := by
    intro h
    unfold effectiveOffset
    split
    · exact hn.array_size h
    · rw [if_pos (by simp [h, hn.array_size h])]
      exact Nat.mod_lt _ (hn.array_size h)

/- A key in place is the key that it means. -/
theorem LinkKey.effectiveField_eq
    (hf : n.LinkKey config f) :
    n.effectiveField (Field.make config f.offset f.type?) = f := by
  have hMake : Field.make config f.offset f.type? = f := by
    unfold Field.make
    split
    · rfl
    · next hAware =>
      have hType := hf.untyped (by simpa using hAware)
      cases f
      simp only at hType ⊢
      rw [hType]
  rw [hMake]
  rcases n.kind_cases with h | ⟨hNot, h⟩ | h
  · rw [effectiveField_of_collapsed h, hf.collapsed h]
  · rw [effectiveField_of_not_collapsed hNot, effectiveOffset_of_array hNot h,
      Nat.mod_eq_of_lt (hf.array h)]
  · rw [effectiveField_of_plain h]

/- Links are at offsets that are words. -/
theorem WellFormed.link_offset_lt
    (hn : n.WellFormed config)
    {t : Cell}
    (hGet : n.links.get? f = some t) :
    f.offset < wordBound := by
  have hKey := hn.links f t hGet
  have hSize := hn.size_lt
  rcases n.kind_cases with h | ⟨_, h⟩ | h
  · rw [hKey.collapsed h]
    decide
  · exact Nat.lt_trans (hKey.array h) hSize
  · have hRoom := hKey.plain h
    omega

-- Nodes Inside Nodes

/-
  Node `n` can be laid over `m` from offset `k` on. Only a plain node can
  start inside another, and then it has room there if the other is plain
  too.
-/
structure LiesIn
    (n m : Node)
    (k : Nat) : Prop where
  collapsed : n.isCollapsed = true → m.isCollapsed = true
  array : n.isArray = true →
    m.isArray = true ∨ m.isCollapsed = true
  stride : n.isArray = true → m.isArray = true →
    n.size ≤ m.size
  folded : n.isPlain = false → k = 0
  word : n.size + k < wordBound
  inside : n.isPlain = true → m.isPlain = true →
    n.size + k ≤ m.size

variable {l : Node} {j k : Nat}

theorem LiesIn.refl
    (h : n.size < wordBound) :
    n.LiesIn n 0 where
  collapsed := id
  array := Or.inl
  stride := fun _ _ => Nat.le_refl _
  folded := fun _ => rfl
  word := h
  inside := fun _ _ => Nat.le_refl _

/- Only a plain node lies in a plain node. -/
theorem LiesIn.plain_of_plain
    (h : n.LiesIn m k)
    (hm : m.isPlain = true) :
    n.isPlain = true := by
  rw [isPlain_iff] at hm ⊢
  constructor
  · cases hc : n.isCollapsed with
    | false => rfl
    | true => exact absurd (h.collapsed hc) (by simp [hm.1])
  · cases ha : n.isArray with
    | false => rfl
    | true =>
      rcases h.array ha with hArr | hCol
      · exact absurd hArr (by simp [hm.2])
      · exact absurd hCol (by simp [hm.1])

theorem LiesIn.not_plain
    (h : n.LiesIn m k)
    (hn : n.isPlain = false) :
    m.isPlain = false := by
  cases hm : m.isPlain with
  | false => rfl
  | true => rw [h.plain_of_plain hm] at hn; cases hn

theorem LiesIn.trans
    (h : n.LiesIn m j)
    (h' : m.LiesIn l k)
    (hl : l.isCollapsed = true → l.isArray = false) :
    n.LiesIn l (j + k) where
  collapsed := fun hc => h'.collapsed (h.collapsed hc)
  array := by
    intro ha
    rcases h.array ha with ha | hc
    · exact h'.array ha
    · exact Or.inr (h'.collapsed hc)
  stride := by
    intro ha hl'
    rcases h.array ha with hm' | hc
    · exact Nat.le_trans (h.stride ha hm') (h'.stride hm' hl')
    · have hNot := hl (h'.collapsed hc)
      rw [hl'] at hNot
      cases hNot
  folded := by
    intro hp
    rw [h.folded hp, h'.folded (h.not_plain hp)]
  word := by
    cases hmp : m.isPlain with
    | false =>
      rw [h'.folded hmp]
      exact h.word
    | true =>
      have hIn := h.inside (h.plain_of_plain hmp) hmp
      have hWord := h'.word
      omega
  inside := by
    intro hp hlp
    have hmp := h'.plain_of_plain hlp
    have hIn := h.inside hp hmp
    have hIn' := h'.inside hmp hlp
    omega

end Node

-- Lost Unique Scalars

namespace UniqueScalar

/- The node once had a value of its own and has it no more. -/
def IsLost
    (u : UniqueScalar) : Prop :=
  u.everHad = true ∧ u.value? = none

/-
  What a scalar had is still known, and no other value has come in its
  place.
-/
structure Follows
    (u w : UniqueScalar) : Prop where
  had : u.everHad = true → w.everHad = true
  kept : u.everHad = true →
    w.value? = u.value? ∨ w.value? = none

variable {u w x : UniqueScalar}

theorem Follows.refl
    (u : UniqueScalar) :
    u.Follows u :=
  ⟨id, fun _ => Or.inl rfl⟩

theorem Follows.trans
    (h : u.Follows w)
    (h' : w.Follows x) :
    u.Follows x where
  had := fun hHad => h'.had (h.had hHad)
  kept := by
    intro hHad
    rcases h'.kept (h.had hHad) with hSame | hNone
    · rw [hSame]
      exact h.kept hHad
    · exact Or.inr hNone

/- What is lost stays lost. -/
theorem Follows.lost
    (h : u.Follows w)
    (hLost : u.IsLost) :
    w.IsLost := by
  refine ⟨h.had hLost.1, ?_⟩
  rcases h.kept hLost.1 with hSame | hNone
  · exact hSame.trans hLost.2
  · exact hNone

theorem follows_record
    (u : UniqueScalar)
    (v : ValueId) :
    u.Follows (u.record v) := by
  unfold UniqueScalar.record
  constructor
  · intro hHad
    split
    · rfl
    · split <;> exact hHad
  · intro hHad
    rw [hHad, if_neg Bool.noConfusion]
    split
    · exact Or.inr rfl
    · exact Or.inl rfl

theorem follows_clear
    (u : UniqueScalar) :
    u.Follows u.clear := by
  unfold UniqueScalar.clear
  constructor
  · intro hHad
    simp [hHad]
  · exact fun _ => Or.inr rfl

/- Where there never was a value, nothing has to be known. -/
theorem Follows.of_new
    (hNew : u.everHad = false) :
    u.Follows w := by
  constructor
  · intro hHad
    rw [hNew] at hHad
    cases hHad
  · intro hHad
    rw [hNew] at hHad
    cases hHad

/- What either side had or lost the merged node knows. -/
theorem follows_merge
    (u w : UniqueScalar) :
    u.Follows (u.merge w) ∧ w.Follows (u.merge w) := by
  unfold UniqueScalar.merge
  cases hw : w.everHad with
  | false => exact ⟨.refl u, .of_new hw⟩
  | true =>
    cases hu : u.everHad with
    | false => exact ⟨.of_new hu, .refl w⟩
    | true =>
      refine ⟨⟨fun _ => rfl, fun _ => ?_⟩, fun _ => rfl, fun _ => ?_⟩
      · by_cases hSame : u.value? = w.value?
        · exact Or.inl (if_pos hSame)
        · exact Or.inr (if_neg hSame)
      · by_cases hSame : u.value? = w.value?
        · exact Or.inl ((if_pos hSame).trans hSame)
        · exact Or.inr (if_neg hSame)

end UniqueScalar

-- Nodes That Stand For Nodes

namespace Node

/-
  Node `n` lies in `m` from offset `k` on, and what is known of `n` is known
  of `m`. Only the flags `foreign` and `array` can be gone.
-/
structure StandsFor
    (n m : Node)
    (k : Nat) : Prop extends n.LiesIn m k where
  flags : ∀ f, f ≠ .foreign → f ≠ .array →
    n.flags.has f = true → m.flags.has f = true
  sites : ∀ s, s ∈ n.allocSites → s ∈ m.allocSites
  scalar : n.uniqueScalar.Follows m.uniqueScalar

variable {n m l : Node} {config : GraphConfig} {j k : Nat}

theorem StandsFor.lost
    (h : n.StandsFor m k) :
    n.uniqueScalar.IsLost → m.uniqueScalar.IsLost :=
  h.scalar.lost

theorem StandsFor.refl
    (h : n.size < wordBound) :
    n.StandsFor n 0 where
  toLiesIn := .refl h
  flags := fun _ _ _ => id
  sites := fun _ => id
  scalar := .refl _

theorem StandsFor.trans
    (h : n.StandsFor m j)
    (h' : m.StandsFor l k)
    (hl : l.isCollapsed = true → l.isArray = false) :
    n.StandsFor l (j + k) where
  toLiesIn := h.toLiesIn.trans h'.toLiesIn hl
  flags := fun f hf hf' hHas =>
    h'.flags f hf hf' (h.flags f hf hf' hHas)
  sites := fun s hs => h'.sites s (h.sites s hs)
  scalar := h.scalar.trans h'.scalar

/- A node that reads offsets as before and does not shrink. -/
theorem LiesIn.of_same_kind
    (hCollapsed : m.isCollapsed = n.isCollapsed)
    (hArray : m.isArray = n.isArray)
    (hSize : n.size ≤ m.size)
    (hLt : n.size < wordBound) :
    n.LiesIn m 0 where
  collapsed := fun h => hCollapsed ▸ h
  array := fun h => Or.inl (hArray ▸ h)
  stride := fun _ _ => hSize
  folded := fun _ => rfl
  word := hLt
  inside := fun _ _ => hSize

/- Only size, types and links have changed. -/
theorem StandsFor.of_same_facts
    (hLt : n.size < wordBound)
    (hFlags : m.flags = n.flags)
    (hSize : n.size ≤ m.size)
    (hSites : m.allocSites = n.allocSites)
    (hScalar : m.uniqueScalar = n.uniqueScalar) :
    n.StandsFor m 0 where
  toLiesIn := .of_same_kind (by unfold isCollapsed; rw [hFlags])
    (by unfold isArray; rw [hFlags]) hSize hLt
  flags := fun _ _ _ h => hFlags ▸ h
  sites := fun _ h => hSites ▸ h
  scalar := hScalar ▸ .refl _

/- A plain node that has room in another. -/
theorem LiesIn.of_plain
    (hn : n.isPlain = true)
    (hWord : n.size + k < wordBound)
    (hInside : m.isPlain = true → n.size + k ≤ m.size) :
    n.LiesIn m k where
  collapsed := by
    intro h
    rw [(isPlain_iff.mp hn).1] at h
    cases h
  array := by
    intro h
    rw [(isPlain_iff.mp hn).2] at h
    cases h
  stride := by
    intro h
    rw [(isPlain_iff.mp hn).2] at h
    cases h
  folded := by
    intro h
    rw [hn] at h
    cases h
  word := hWord
  inside := fun _ => hInside

/- A node that was collapsed in place. -/
theorem LiesIn.of_collapsed
    (hCollapsed : m.isCollapsed = true)
    (hNot : m.isArray = false)
    (hLt : n.size < wordBound) :
    n.LiesIn m 0 where
  collapsed := fun _ => hCollapsed
  array := fun _ => Or.inr hCollapsed
  stride := by
    intro _ h
    rw [hNot] at h
    cases h
  folded := fun _ => rfl
  word := hLt
  inside := by
    intro _ h
    rw [isPlain_iff, hCollapsed] at h
    cases h.1

/-
  A field of a node means the same key in the node that stands for it, be it
  read there at once or first in the node itself. An array must have kept
  its stride.
-/
theorem LiesIn.effectiveField_shift
    (h : n.LiesIn m k)
    (hStride : n.isArray = true → m.isArray = true → m.size = n.size)
    (raw : Nat)
    (type? : Option TypeTag) :
    let f := n.effectiveField (Field.make config raw type?)
    m.effectiveField (Field.make config (f.offset + k) f.type?) =
      m.effectiveField (Field.make config (raw + k) type?) := by
  intro f
  cases hm : m.isCollapsed with
  | true => rw [effectiveField_of_collapsed hm, effectiveField_of_collapsed hm]
  | false =>
    have hn : n.isCollapsed = false := by
      cases hn : n.isCollapsed with
      | false => rfl
      | true => rw [h.collapsed hn] at hm; cases hm
    have hf : f = { Field.make config raw type? with
        offset := n.effectiveOffset raw } :=
      effectiveField_of_not_collapsed hn _
    have hType : (Field.make config (f.offset + k) f.type?).type? =
          (Field.make config (raw + k) type?).type? := by
      rw [hf]
      unfold Field.make
      cases config.typeAwareFields <;> rfl
    have hOffset : m.effectiveOffset (f.offset + k) = m.effectiveOffset (raw + k) := by
      rw [hf]
      cases ha : n.isArray with
      | false => rw [effectiveOffset_of_plain (isPlain_iff.mpr ⟨hn, ha⟩)]
      | true =>
        have hArray : m.isArray = true := by
          rcases h.array ha with h' | h'
          · exact h'
          · rw [hm] at h'
            cases h'
        have hk : k = 0 := h.folded (isPlain_eq_false_iff.mpr (.inr ha))
        rw [hk, effectiveOffset_of_array hn ha, effectiveOffset_of_array hm hArray,
          effectiveOffset_of_array hm hArray,
          hStride ha hArray]
        exact Nat.mod_mod _ _
    rw [effectiveField_of_not_collapsed hm, effectiveField_of_not_collapsed hm]
    change Field.mk (m.effectiveOffset (f.offset + k)) _ = Field.mk (m.effectiveOffset (raw + k)) _
    rw [hOffset, hType]

/-
  Offsets that mean the same in a node mean the same in the node that stands
  for it.
-/
theorem LiesIn.effectiveOffset_eq
    (h : n.LiesIn m k)
    (hStride : n.isArray = true → m.isArray = true → m.size = n.size)
    {a b : Nat}
    (hEq : n.effectiveOffset a = n.effectiveOffset b) :
    a = b ∨ k = 0 ∧ m.effectiveOffset a = m.effectiveOffset b := by
  cases hm : m.isCollapsed with
  | true =>
    cases hPlain : n.isPlain with
    | true =>
      rw [effectiveOffset_of_plain hPlain, effectiveOffset_of_plain hPlain] at hEq
      exact Or.inl hEq
    | false =>
      refine Or.inr ⟨h.folded hPlain, ?_⟩
      rw [effectiveOffset_of_collapsed hm, effectiveOffset_of_collapsed hm]
  | false =>
    rcases n.kind_cases with hn | ⟨hn, ha⟩ | hPlain
    · rw [h.collapsed hn] at hm
      cases hm
    · have hArray : m.isArray = true := by
        rcases h.array ha with h' | h'
        · exact h'
        · rw [hm] at h'
          cases h'
      have hk : k = 0 := h.folded (isPlain_eq_false_iff.mpr (.inr ha))
      rw [effectiveOffset_of_array hn ha, effectiveOffset_of_array hn ha] at hEq
      rw [effectiveOffset_of_array hm hArray, effectiveOffset_of_array hm hArray, hStride ha hArray]
      exact Or.inr ⟨hk, hEq⟩
    · rw [effectiveOffset_of_plain hPlain, effectiveOffset_of_plain hPlain] at hEq
      exact Or.inl hEq

-- Changes Of One Node

variable {moved : Node}

/- A link under the key that a field means in the node. -/
theorem WellFormed.insertLink
    (hn : n.WellFormed config)
    (raw : Nat)
    (type? : Option TypeTag)
    (t : Cell)
    {size : Nat}
    (hSize : n.size ≤ size)
    (hLt : size < wordBound)
    (hPlain : n.isPlain = true → raw + config.pointerSize ≤ size)
    (hFolded : n.isPlain = false → size = n.size) :
    ({ n with
      size := size
      links := n.links.insert (n.effectiveField (Field.make config raw type?))
        t } : Node).WellFormed config := by
  apply hn.update
  · rfl
  · rfl
  · exact hSize
  · exact hLt
  · intro hCollapsed
    exact hFolded (isPlain_eq_false_iff.mpr (.inl hCollapsed))
  · intro f u hGet
    dsimp only at hGet
    rw [OrdMap.get?_insert] at hGet
    split at hGet
    · next hEq =>
      subst hEq
      right
      apply hn.linkKey_effectiveField
      · rfl
      · rfl
      · exact hSize
      · exact hPlain
    · exact Or.inl hGet
  · exact fun o ts hType => Or.inl ⟨ts, hType⟩

/- Adding types changes neither links nor ways of reading. -/
theorem withTypes_frame
    (n : Node)
    (raw : Nat)
    (types : TypeSet) :
    (n.withTypes raw types).size = n.size ∧ (n.withTypes raw types).links = n.links ∧
      (n.withTypes raw types).allocSites = n.allocSites ∧
      (n.withTypes raw types).uniqueScalar = n.uniqueScalar ∧
      ∀ f, (n.withTypes raw types).flags.has f = n.flags.has f ∨
          f = .typeCollapsed ∧ (n.withTypes raw types).flags.has f = true := by
  have hMark : ∀ (b : Bool) (f : Flag), (if b then n.flags.insert .typeCollapsed
          else n.flags).has f = n.flags.has f ∨
        f = .typeCollapsed ∧ (if b then n.flags.insert .typeCollapsed
            else n.flags).has f = true := by
    intro b f
    by_cases hf : Flag.typeCollapsed = f
    · cases b <;> simp [Flags.has_insert, hf]
    · cases b <;> simp [Flags.has_insert, hf]
  unfold withTypes
  split
  · exact ⟨rfl, rfl, rfl, rfl, hMark true⟩
  · exact ⟨rfl, rfl, rfl, rfl, fun f => hMark _ f⟩

/- A flag other than `typeCollapsed` is as before. -/
theorem has_withTypes
    (n : Node)
    (raw : Nat)
    (types : TypeSet)
    {f : Flag}
    (hf : f ≠ .typeCollapsed) :
    (n.withTypes raw types).flags.has f = n.flags.has f := by
  rcases (n.withTypes_frame raw types).2.2.2.2 f with h | ⟨h, _⟩
  · exact h
  · exact absurd h hf

theorem WellFormed.withTypes
    (hn : n.WellFormed config)
    (raw : Nat)
    (types : TypeSet) :
    (n.withTypes raw types).WellFormed config := by
  rcases n.withTypes_frame raw types with ⟨hSize, hLinks, _⟩
  have hCollapsed := n.has_withTypes raw types (f := .offsetCollapsed) (by decide)
  have hArray := n.has_withTypes raw types (f := .array) (by decide)
  apply hn.update hCollapsed hArray (Nat.le_of_eq hSize.symm)
  · rw [hSize]
    exact hn.size_lt
  · exact fun _ => hSize
  · intro f t hLink
    rw [hLinks] at hLink
    exact Or.inl hLink
  · intro o ts hType
    by_cases hLost : (n.isCollapsed && raw != 0) = true
    · rw [Node.withTypes, if_pos hLost] at hType
      exact Or.inl ⟨ts, hType⟩
    · rw [Node.withTypes, if_neg hLost] at hType
      dsimp only at hType
      rw [OrdMap.get?_insert] at hType
      split at hType
      · next hEq =>
        subst hEq
        exact Or.inr ((hn.typeKey_effectiveOffset raw).congr
          hCollapsed hArray (Nat.le_of_eq hSize.symm))
      · exact Or.inl ⟨ts, hType⟩

theorem standsFor_withTypes
    (hLt : n.size < wordBound)
    (raw : Nat)
    (types : TypeSet) :
    n.StandsFor (n.withTypes raw types) 0 := by
  rcases n.withTypes_frame raw types with ⟨hSize, _, hSites, hScalar, hFlags⟩
  have hCollapsed := n.has_withTypes raw types (f := .offsetCollapsed) (by decide)
  have hArray := n.has_withTypes raw types (f := .array) (by decide)
  refine ⟨.of_same_kind hCollapsed hArray (Nat.le_of_eq hSize.symm) hLt, ?_, ?_, ?_⟩
  · intro f _ _ hf
    rcases hFlags f with h | ⟨_, h⟩
    · exact h.trans hf
    · exact h
  · rw [hSites]
    exact fun _ => id
  · rw [hScalar]
    exact (.refl _)

end Node

-- Taking Over A Node

namespace Graph

variable {n moved : Node} {config : GraphConfig} {k : Nat}

/- The absorbing node has the flags of both, if it may. -/
theorem has_takeOver
    (n moved : Node)
    (k : Nat)
    (f : Flag) :
    (takeOver n moved k).flags.has f = ((n.flags.join moved.flags).has f &&
        !(decide (f = .array) && (n.isCollapsed || moved.isCollapsed))) := by
  have hBoth : (n.flags.join moved.flags).has .offsetCollapsed =
        (n.isCollapsed || moved.isCollapsed) := by
    rw [Flags.has_join, if_neg (by decide)]
    rfl
  unfold takeOver
  dsimp only
  rw [hBoth]
  cases hc : n.isCollapsed || moved.isCollapsed with
  | false => simp
  | true =>
    have hEq : decide (Flag.array = f) =
        decide (f = Flag.array) := by
      rw [Bool.eq_iff_iff, decide_eq_true_iff, decide_eq_true_iff, eq_comm]
    simp [Flags.has_erase, hEq]

/-
  The absorbing node reads offsets as before, if the other lies in it.
-/
theorem takeOver_kind
    (hIn : moved.LiesIn n k)
    (hNot : n.isCollapsed = true → n.isArray = false) :
    (takeOver n moved k).isCollapsed = n.isCollapsed ∧
      (takeOver n moved k).isArray = n.isArray := by
  have hCollapsed : (n.isCollapsed || moved.isCollapsed) =
      n.isCollapsed := by
    cases hm : moved.isCollapsed with
    | false => simp
    | true => simp [hIn.collapsed hm]
  constructor
  · change (takeOver n moved k).flags.has _ = _
    rw [has_takeOver, Flags.has_join, if_neg (by decide)]
    change ((n.isCollapsed || moved.isCollapsed) && _) = _
    rw [hCollapsed]
    simp
  · change (takeOver n moved k).flags.has _ = _
    rw [has_takeOver, Flags.has_join, if_neg (by decide), hCollapsed]
    change ((n.isArray || moved.isArray) && _) = _
    cases hc : n.isCollapsed with
    | true => simp [hNot hc]
    | false =>
      cases hm : moved.isArray with
      | false => simp
      | true =>
        rcases hIn.array hm with ha | hc'
        · simp [ha]
        · rw [hc] at hc'
          cases hc'

theorem wellFormed_takeOver
    (hn : n.WellFormed config)
    (hIn : moved.LiesIn n k) :
    (takeOver n moved k).WellFormed config := by
  rcases takeOver_kind hIn hn.collapsed_not_array with ⟨hCollapsed, hArray⟩
  apply hn.update hCollapsed hArray (Nat.le_refl _) hn.size_lt
  · exact fun _ => rfl
  · exact fun f t hLink => Or.inl hLink
  · exact fun o ts hType => Or.inl ⟨ts, hType⟩

/- Nothing known of either node is lost. -/
theorem takeOver_keeps
    (n moved : Node)
    (k : Nat) :
    (∀ f, f ≠ .foreign → f ≠ .array → n.flags.has f = true ∨ moved.flags.has f = true →
        (takeOver n moved k).flags.has f = true) ∧
    (∀ s, s ∈ n.allocSites ∨ s ∈ moved.allocSites → s ∈ (takeOver n moved k).allocSites) ∧
    n.uniqueScalar.Follows (takeOver n moved k).uniqueScalar ∧
    moved.uniqueScalar.Follows (takeOver n moved k).uniqueScalar := by
  refine ⟨?_, ?_, ?_⟩
  · intro f hForeign hArray hf
    rw [has_takeOver, Flags.has_join, if_neg hForeign]
    rcases hf with hf | hf <;> simp [hf, hArray]
  · intro s hs
    exact (OrdSet.mem_union_iff _ _ s).mpr hs
  · rcases UniqueScalar.follows_merge n.uniqueScalar moved.uniqueScalar with ⟨hThis, hMoved⟩
    unfold takeOver
    dsimp only
    split
    · exact ⟨hThis.trans (UniqueScalar.follows_clear _),
        hMoved.trans (UniqueScalar.follows_clear _)⟩
    · exact ⟨hThis, hMoved⟩

/- The absorbing node stands for itself as it was. -/
theorem standsFor_takeOver_this
    (hn : n.WellFormed config)
    (hIn : moved.LiesIn n k) :
    n.StandsFor (takeOver n moved k) 0 := by
  rcases takeOver_kind hIn hn.collapsed_not_array with ⟨hCollapsed, hArray⟩
  rcases takeOver_keeps n moved k with ⟨hFlags, hSites, hScalar, _⟩
  refine ⟨.of_same_kind hCollapsed hArray (Nat.le_refl _) hn.size_lt, ?_, ?_, hScalar⟩
  · exact fun f hf hf' h => hFlags f hf hf' (Or.inl h)
  · exact fun s hs => hSites s (Or.inl hs)

/- It stands for the absorbed node as well. -/
theorem standsFor_takeOver_moved
    (hn : n.WellFormed config)
    (hIn : moved.LiesIn n k) :
    moved.StandsFor (takeOver n moved k) k := by
  have hSame := (standsFor_takeOver_this hn hIn).toLiesIn
  have hKind := takeOver_kind hIn hn.collapsed_not_array
  have hNot : (takeOver n moved k).isCollapsed = true → (takeOver n moved k).isArray = false := by
    rw [hKind.1, hKind.2]
    exact hn.collapsed_not_array
  rcases takeOver_keeps n moved k with ⟨hFlags, hSites, _, hScalar⟩
  refine ⟨hIn.trans hSame hNot, ?_, ?_, hScalar⟩
  · exact fun f hf hf' h => hFlags f hf hf' (Or.inr h)
  · exact fun s hs => hSites s (Or.inr hs)

end Graph

end HeapShape
