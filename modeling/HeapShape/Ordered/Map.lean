/-
  Finite maps kept in the order of their keys.

  An `OrdMap` is a list of entries whose keys increase strictly, so that
  equal maps are equal lists and reading a map from first to last visits the
  keys in order.

  Key definitions include:
    * `OrdMap`
    * `OrdMap.get?`
    * `OrdMap.insert`
    * `OrdMap.insertIfNew`
    * `OrdMap.filter`
    * `OrdMap.mapValues`
    * `OrdMap.mapChecked`

  The look-up laws are `OrdMap.get?_insert` and `OrdMap.get?_mapValues`;
  `OrdMap.ext_get?` says that a map is determined by its look-ups.
-/

-- Sorted Entry Lists

namespace HeapShape

/- Keys that increase strictly from left to right. -/
def Increasing
    {α : Type}
    [Ord α]
    (keys : List α) : Prop :=
  keys.Pairwise fun a b => compare a b = .lt

/- The keys of an entry list. -/
abbrev entryKeys
    {α β : Type}
    (entries : List (α × β)) : List α :=
  entries.map Prod.fst

/- The value stored under a key, if there is one. -/
def lookupEntry
    {α β : Type}
    [Ord α]
    (key : α) :
    List (α × β) → Option β
| [] => none
| (k, v) :: rest =>
    match compare key k with
    | .eq => some v
    | _ => lookupEntry key rest

/-
  Put a value under a key, replacing the value that is already there.
-/
def insertEntry
    {α β : Type}
    [Ord α]
    (key : α)
    (value : β) :
    List (α × β) → List (α × β)
| [] => [(key, value)]
| (k, v) :: rest =>
    match compare key k with
    | .lt => (key, value) :: (k, v) :: rest
    | .eq => (key, value) :: rest
    | .gt => (k, v) :: insertEntry key value rest

section EntryLaws

variable {α β : Type} [Ord α] [Std.TransOrd α] [Std.LawfulEqOrd α]

omit [Std.TransOrd α] in
/- Insertion brings in no key but its own. -/
theorem mem_keys_insertEntry
    {key a : α}
    {value : β}
    {entries : List (α × β)}
    (h : a ∈ entryKeys (insertEntry key value entries)) :
    a = key ∨ a ∈ entryKeys entries := by
  induction entries with
  | nil =>
    simp [insertEntry, entryKeys] at h
    exact Or.inl h
  | cons e rest ih =>
    obtain ⟨k, v⟩ := e
    rw [insertEntry] at h
    split at h
    · simpa [entryKeys] using h
    · next hEq =>
      have hKey : key = k :=
        Std.LawfulEqCmp.eq_of_compare hEq
      subst hKey
      simp only [entryKeys, List.map_cons,
        List.mem_cons] at h ⊢
      rcases h with h | h
      · exact Or.inl h
      · exact Or.inr (Or.inr h)
    · simp only [entryKeys, List.map_cons,
        List.mem_cons] at h ⊢
      rcases h with h | h
      · exact Or.inr (Or.inl h)
      · rcases ih h with h | h
        · exact Or.inl h
        · exact Or.inr (Or.inr h)

/- Insertion keeps the keys in order. -/
theorem increasing_insertEntry
    (key : α)
    (value : β)
    {entries : List (α × β)}
    (h : Increasing (entryKeys entries)) :
    Increasing (entryKeys (insertEntry key value entries)) := by
  induction entries with
  | nil => simp [insertEntry, entryKeys, Increasing]
  | cons e rest ih =>
    obtain ⟨k, v⟩ := e
    have hHead :
        ∀ a ∈ entryKeys rest, compare k a = .lt :=
      (List.pairwise_cons.mp h).1
    have hRest : Increasing (entryKeys rest) :=
      (List.pairwise_cons.mp h).2
    rw [insertEntry]
    split
    · next hLt =>
      refine List.pairwise_cons.mpr ⟨?_, h⟩
      intro a ha
      rcases List.mem_cons.mp ha with ha | ha
      · exact ha ▸ hLt
      · exact Std.TransCmp.lt_trans hLt (hHead a ha)
    · next hEq =>
      have hKey : key = k :=
        Std.LawfulEqCmp.eq_of_compare hEq
      subst hKey
      exact List.pairwise_cons.mpr ⟨hHead, hRest⟩
    · next hGt =>
      refine List.pairwise_cons.mpr ⟨?_, ih hRest⟩
      intro a ha
      rcases mem_keys_insertEntry ha with ha | ha
      · exact ha ▸ Std.OrientedCmp.lt_of_gt hGt
      · exact hHead a ha

omit [Std.TransOrd α] in
/- Looking up the inserted key gives the new value. -/
theorem lookupEntry_insertEntry_self
    (key : α)
    (value : β)
    (entries : List (α × β)) :
    lookupEntry key (insertEntry key value entries) = some value := by
  induction entries with
  | nil =>
    simp [insertEntry, lookupEntry,
      Std.ReflCmp.compare_self]
  | cons e rest ih =>
    obtain ⟨k, v⟩ := e
    rw [insertEntry]
    split
    · simp [lookupEntry, Std.ReflCmp.compare_self]
    · simp [lookupEntry, Std.ReflCmp.compare_self]
    · next hGt => simp [lookupEntry, hGt, ih]

omit [Std.TransOrd α] in
/- Insertion leaves every other key alone. -/
theorem lookupEntry_insertEntry_ne
    {key other : α}
    (value : β)
    (entries : List (α × β))
    (h : other ≠ key) :
    lookupEntry other (insertEntry key value entries) = lookupEntry other entries := by
  have hNe : compare other key ≠ .eq := fun hEq =>
    h (Std.LawfulEqCmp.eq_of_compare hEq)
  induction entries with
  | nil =>
    simp only [insertEntry, lookupEntry]
  | cons e rest ih =>
    obtain ⟨k, v⟩ := e
    rw [insertEntry]
    split
    · rw [lookupEntry]
      split
      · next hEq => exact absurd hEq hNe
      · rfl
    · next hEq =>
      have hKey : key = k :=
        Std.LawfulEqCmp.eq_of_compare hEq
      subst hKey
      rw [lookupEntry, lookupEntry]
      split
      · next hSelf => exact absurd hSelf hNe
      · rfl
    · rw [lookupEntry, lookupEntry, ih]

omit [Std.TransOrd α] [Std.LawfulEqOrd α] in
/- A key below every key of a list is not found in it. -/
theorem lookupEntry_eq_none
    {key : α}
    {entries : List (α × β)}
    (h : ∀ a ∈ entryKeys entries, compare key a = .lt) :
    lookupEntry key entries = none := by
  induction entries with
  | nil => rfl
  | cons e rest ih =>
    obtain ⟨k, v⟩ := e
    have hLt : compare key k = .lt :=
      h k (by simp [entryKeys])
    rw [lookupEntry]
    simp only [hLt]
    exact ih fun a ha => h a (List.mem_cons_of_mem _ ha)

omit [Std.TransOrd α] in
/- Sorted entries are found under their own keys. -/
theorem lookupEntry_eq_some_iff
    {key : α}
    {value : β}
    {entries : List (α × β)}
    (h : Increasing (entryKeys entries)) :
    lookupEntry key entries = some value ↔ (key, value) ∈ entries := by
  induction entries with
  | nil => simp [lookupEntry]
  | cons e rest ih =>
    obtain ⟨k, v⟩ := e
    have hHead :
        ∀ a ∈ entryKeys rest, compare k a = .lt :=
      (List.pairwise_cons.mp h).1
    have hRest : Increasing (entryKeys rest) :=
      (List.pairwise_cons.mp h).2
    rw [lookupEntry]
    split
    · next hEq =>
      have hKey : key = k :=
        Std.LawfulEqCmp.eq_of_compare hEq
      subst hKey
      constructor
      · intro hv
        cases hv
        exact List.mem_cons_self
      · intro hm
        rcases List.mem_cons.mp hm with hm | hm
        · cases hm
          rfl
        · have hLt := hHead key
            (List.mem_map_of_mem hm)
          have hEqSelf : compare key key = .eq :=
            Std.ReflCmp.compare_self
          rw [hEqSelf] at hLt
          cases hLt
    · next hNe =>
      rw [ih hRest]
      constructor
      · exact List.mem_cons_of_mem _
      · intro hm
        rcases List.mem_cons.mp hm with hm | hm
        · cases hm
          exact absurd Std.ReflCmp.compare_self hNe
        · exact hm

/- Sorted entry lists with the same look-ups are equal. -/
theorem eq_of_lookupEntry_eq
    {xs ys : List (α × β)}
    (hx : Increasing (entryKeys xs))
    (hy : Increasing (entryKeys ys))
    (h : ∀ k, lookupEntry k xs = lookupEntry k ys) :
    xs = ys := by
  induction xs generalizing ys with
  | nil =>
    cases ys with
    | nil => rfl
    | cons e rest =>
      obtain ⟨k, v⟩ := e
      have hk := h k
      simp [lookupEntry,
        Std.ReflCmp.compare_self] at hk
  | cons e xs ih =>
    obtain ⟨k, v⟩ := e
    cases ys with
    | nil =>
      have hk := h k
      simp [lookupEntry,
        Std.ReflCmp.compare_self] at hk
    | cons e' ys =>
      obtain ⟨k', v'⟩ := e'
      have hxHead := (List.pairwise_cons.mp hx).1
      have hyHead := (List.pairwise_cons.mp hy).1
      have hKey : k = k' := by
        cases hCmp : compare k k' with
        | eq => exact Std.LawfulEqCmp.eq_of_compare hCmp
        | lt =>
          have hNone :
              lookupEntry k ((k', v') :: ys) =
                none := by
            apply lookupEntry_eq_none
            intro a ha
            rcases List.mem_cons.mp ha with ha | ha
            · exact ha ▸ hCmp
            · exact Std.TransCmp.lt_trans hCmp
                (hyHead a ha)
          have hk := h k
          rw [hNone] at hk
          simp [lookupEntry,
            Std.ReflCmp.compare_self] at hk
        | gt =>
          have hLt : compare k' k = .lt :=
            Std.OrientedCmp.lt_of_gt hCmp
          have hNone :
              lookupEntry k' ((k, v) :: xs) =
                none := by
            apply lookupEntry_eq_none
            intro a ha
            rcases List.mem_cons.mp ha with ha | ha
            · exact ha ▸ hLt
            · exact Std.TransCmp.lt_trans hLt
                (hxHead a ha)
          have hk := h k'
          rw [hNone] at hk
          simp [lookupEntry,
            Std.ReflCmp.compare_self] at hk
      subst hKey
      have hv : v = v' := by
        have hk := h k
        simpa [lookupEntry,
          Std.ReflCmp.compare_self] using hk
      subst hv
      congr 1
      refine ih (List.pairwise_cons.mp hx).2
        (List.pairwise_cons.mp hy).2 ?_
      intro a
      cases hCmp : compare a k with
      | eq =>
        have hEq : a = k :=
          Std.LawfulEqCmp.eq_of_compare hCmp
        subst hEq
        rw [lookupEntry_eq_none hxHead,
          lookupEntry_eq_none hyHead]
      | lt =>
        have ha := h a
        simpa [lookupEntry, hCmp] using ha
      | gt =>
        have ha := h a
        simpa [lookupEntry, hCmp] using ha

end EntryLaws

end HeapShape

-- Ordered Maps

namespace HeapShape

/- A finite map whose entries stand in key order. -/
structure OrdMap
    (α β : Type)
    [Ord α] where
  entries : List (α × β)
  increasing : Increasing (entryKeys entries)

namespace OrdMap

variable {α β γ ε : Type} [Ord α]

/- The map without entries. -/
def empty : OrdMap α β where
  entries := []
  increasing := List.Pairwise.nil

instance : Inhabited (OrdMap α β) :=
  ⟨empty⟩

instance : EmptyCollection (OrdMap α β) :=
  ⟨empty⟩

/- Maps are equal when their entry lists are. -/
theorem ext_entries
    {m n : OrdMap α β}
    (h : m.entries = n.entries) : m = n := by
  cases m
  cases n
  cases h
  rfl

instance
    [DecidableEq α]
    [DecidableEq β] :
    DecidableEq (OrdMap α β) :=
  fun m n =>
    decidable_of_iff (m.entries = n.entries)
      ⟨ext_entries, fun h => h ▸ rfl⟩

/- The keys, in order. -/
def keys
    (m : OrdMap α β) : List α :=
  entryKeys m.entries

/- The values, in key order. -/
def values
    (m : OrdMap α β) : List β :=
  m.entries.map Prod.snd

/- The number of entries. -/
def size
    (m : OrdMap α β) : Nat :=
  m.entries.length

/- Whether there is no entry. -/
def isEmpty
    (m : OrdMap α β) : Bool :=
  m.entries.isEmpty

/- The value under a key. -/
def get?
    (m : OrdMap α β)
    (key : α) : Option β :=
  lookupEntry key m.entries

/- Whether a key has an entry. -/
def contains
    (m : OrdMap α β)
    (key : α) : Bool :=
  (m.get? key).isSome

/- Keep the entries that pass a test. -/
def filter
    (keep : α → β → Bool)
    (m : OrdMap α β) : OrdMap α β where
  entries := m.entries.filter fun e => keep e.1 e.2
  increasing :=
    m.increasing.sublist
      (List.Sublist.map _ List.filter_sublist)

/- Change every value, keeping the keys. -/
def mapValues
    (f : β → γ)
    (m : OrdMap α β) : OrdMap α γ where
  entries := m.entries.map fun e => (e.1, f e.2)
  increasing := by
    have h :
        entryKeys (m.entries.map fun e => (e.1, f e.2)) =
          entryKeys m.entries := by
      simp [entryKeys]
    rw [h]
    exact m.increasing

/- Change values one after the other until one fails. -/
def mapEntriesChecked
    (f : β → Except ε γ) :
    (entries : List (α × β)) →
      Except ε
        { out : List (α × γ) //
          entryKeys out = entryKeys entries }
| [] => .ok ⟨[], rfl⟩
| (k, v) :: rest => do
    let w ← f v
    let ⟨out, h⟩ ← mapEntriesChecked f rest
    return ⟨(k, w) :: out, by simp [entryKeys] at h ⊢; exact h⟩

/- Change every value, keeping the keys, unless one fails. -/
def mapChecked
    (f : β → Except ε γ)
    (m : OrdMap α β) : Except ε (OrdMap α γ) := do
  let ⟨out, h⟩ ← mapEntriesChecked f m.entries
  return { entries := out, increasing := h ▸ m.increasing }

variable [Std.TransOrd α] [Std.LawfulEqOrd α]

/- Put a value under a key, replacing an older one. -/
def insert
    (m : OrdMap α β)
    (key : α)
    (value : β) : OrdMap α β where
  entries := insertEntry key value m.entries
  increasing :=
    increasing_insertEntry key value m.increasing

/- Put a value under a key that has none yet. -/
def insertIfNew
    (m : OrdMap α β)
    (key : α)
    (value : β) : OrdMap α β :=
  if m.contains key then m else m.insert key value

/- The map of a list of entries; a later entry wins. -/
def ofList
    (entries : List (α × β)) : OrdMap α β :=
  entries.foldl (fun m e => m.insert e.1 e.2) empty

end OrdMap

end HeapShape

-- Look-Up Laws

namespace HeapShape

namespace OrdMap

variable {α β γ : Type} [Ord α] [Std.TransOrd α] [Std.LawfulEqOrd α]

/- What insertion does to every look-up. -/
theorem get?_insert
    [DecidableEq α]
    (m : OrdMap α β)
    (key other : α)
    (value : β) :
    (m.insert key value).get? other = if other = key then some value else m.get? other := by
  by_cases h : other = key
  · subst h
    simp only [get?, insert, if_true]
    exact lookupEntry_insertEntry_self other value m.entries
  · simp only [get?, insert, if_neg h]
    exact lookupEntry_insertEntry_ne value m.entries h

omit [Std.TransOrd α] in
/- A look-up succeeds exactly on the entries. -/
theorem get?_eq_some_iff
    (m : OrdMap α β)
    (key : α)
    (value : β) :
    m.get? key = some value ↔ (key, value) ∈ m.entries :=
  lookupEntry_eq_some_iff m.increasing

/- A map is determined by its look-ups. -/
theorem ext_get?
    {m n : OrdMap α β}
    (h : ∀ k, m.get? k = n.get? k) : m = n :=
  ext_entries
    (eq_of_lookupEntry_eq m.increasing n.increasing h)

omit [Std.TransOrd α] [Std.LawfulEqOrd α] in
/- Changing the values changes what is found. -/
theorem get?_mapValues
    (f : β → γ)
    (m : OrdMap α β)
    (key : α) :
    (m.mapValues f).get? key = (m.get? key).map f := by
  unfold get? mapValues
  dsimp only
  induction m.entries with
  | nil => rfl
  | cons e rest ih =>
    obtain ⟨k, v⟩ := e
    rw [List.map_cons]
    simp only [lookupEntry]
    cases compare key k with
    | eq => rfl
    | lt => exact ih
    | gt => exact ih

end OrdMap

end HeapShape
