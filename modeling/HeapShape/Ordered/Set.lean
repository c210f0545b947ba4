import HeapShape.Ordered.Map

/-
  Finite sets kept in the order of their members.

  Key definitions include:
    * `OrdSet`
    * `OrdSet.insert`
    * `OrdSet.union`
    * `OrdSet.isSubset`

  Membership after an insertion or a union is given by
  `OrdSet.mem_insert_iff` and `OrdSet.mem_union_iff`.
-/

-- Ordered Sets

namespace HeapShape

/- A finite set whose members stand in order. -/
structure OrdSet
    (α : Type)
    [Ord α] where
  map : OrdMap α Unit

namespace OrdSet

variable {α : Type} [Ord α]

/- The set without members. -/
def empty : OrdSet α where
  map := OrdMap.empty

instance : Inhabited (OrdSet α) :=
  ⟨empty⟩

instance : EmptyCollection (OrdSet α) :=
  ⟨empty⟩

instance
    [DecidableEq α] :
    DecidableEq (OrdSet α) :=
  fun s t =>
    decidable_of_iff (s.map = t.map)
      ⟨fun h => by cases s; cases t; cases h; rfl,
        fun h => h ▸ rfl⟩

/- The members, in order. -/
def toList
    (s : OrdSet α) : List α :=
  s.map.keys

/- Whether a value is a member. -/
def contains
    (s : OrdSet α)
    (a : α) : Bool :=
  s.map.contains a

instance : Membership α (OrdSet α) :=
  ⟨fun s a => s.contains a = true⟩

instance
    (s : OrdSet α)
    (a : α) : Decidable (a ∈ s) :=
  inferInstanceAs (Decidable (s.contains a = true))

/- The number of members. -/
def size
    (s : OrdSet α) : Nat :=
  s.map.size

/- Whether there is no member. -/
def isEmpty
    (s : OrdSet α) : Bool :=
  s.map.isEmpty

/- Keep the members that pass a test. -/
def filter
    (keep : α → Bool)
    (s : OrdSet α) : OrdSet α where
  map := s.map.filter fun a _ => keep a

/- Take one member away. -/
def erase
    (s : OrdSet α)
    (a : α) : OrdSet α :=
  s.filter fun b => compare b a != .eq

/- Whether every member of `s` is a member of `t`. -/
def isSubset
    (s t : OrdSet α) : Bool :=
  s.toList.all t.contains

variable [Std.TransOrd α] [Std.LawfulEqOrd α]

/- Add one member. -/
def insert
    (s : OrdSet α)
    (a : α) : OrdSet α where
  map := s.map.insert a ()

/- Add the values of a list. -/
def insertAll
    (s : OrdSet α)
    (xs : List α) : OrdSet α :=
  xs.foldl insert s

/- The members of either set. -/
def union
    (s t : OrdSet α) : OrdSet α :=
  s.insertAll t.toList

/- The set with one member. -/
def singleton
    (a : α) : OrdSet α :=
  empty.insert a

/- The set of the values of a list. -/
def ofList
    (xs : List α) : OrdSet α :=
  empty.insertAll xs

end OrdSet

end HeapShape

-- Membership Laws

namespace HeapShape

namespace OrdSet

variable {α : Type} [Ord α] [Std.TransOrd α] [Std.LawfulEqOrd α]

/- Membership after one insertion. -/
theorem mem_insert_iff
    [DecidableEq α]
    (s : OrdSet α)
    (a b : α) :
    b ∈ s.insert a ↔ b = a ∨ b ∈ s := by
  change (s.insert a).contains b = true ↔
    b = a ∨ s.contains b = true
  unfold contains insert OrdMap.contains
  rw [OrdMap.get?_insert]
  by_cases h : b = a <;> simp [h]

omit [Std.TransOrd α] in
/- The members are the values of the list. -/
theorem mem_toList_iff
    (s : OrdSet α)
    (a : α) :
    a ∈ s.toList ↔ a ∈ s := by
  change a ∈ s.map.keys ↔ s.contains a = true
  unfold contains OrdMap.contains OrdMap.keys
  constructor
  · intro h
    obtain ⟨e, he, rfl⟩ := List.mem_map.mp h
    have hGet : s.map.get? e.1 = some e.2 :=
      (lookupEntry_eq_some_iff s.map.increasing).mpr he
    rw [hGet]
    rfl
  · intro h
    obtain ⟨u, hu⟩ := Option.isSome_iff_exists.mp h
    have he : (a, u) ∈ s.map.entries :=
      (lookupEntry_eq_some_iff s.map.increasing).mp hu
    exact List.mem_map_of_mem he

omit [Std.TransOrd α] in
/- Membership after one member is taken away. -/
theorem mem_erase_iff
    (s : OrdSet α)
    (a b : α) :
    b ∈ s.erase a ↔ b ∈ s ∧ b ≠ a := by
  have hList : (s.erase a).toList =
      s.toList.filter fun b => compare b a != .eq := by
    unfold toList OrdMap.keys entryKeys
    rw [List.filter_map]
    rfl
  rw [← mem_toList_iff, ← mem_toList_iff, hList,
    List.mem_filter]
  simp

/- Membership after adding a list. -/
theorem mem_insertAll_iff
    [DecidableEq α]
    (s : OrdSet α)
    (xs : List α)
    (b : α) :
    b ∈ s.insertAll xs ↔ b ∈ s ∨ b ∈ xs := by
  unfold insertAll
  induction xs generalizing s with
  | nil => simp
  | cons x xs ih =>
    rw [List.foldl_cons, ih, mem_insert_iff]
    simp only [List.mem_cons]
    constructor
    · rintro ((h | h) | h)
      · exact Or.inr (Or.inl h)
      · exact Or.inl h
      · exact Or.inr (Or.inr h)
    · rintro (h | h | h)
      · exact Or.inl (Or.inr h)
      · exact Or.inl (Or.inl h)
      · exact Or.inr h

/- Membership in a union. -/
theorem mem_union_iff
    [DecidableEq α]
    (s t : OrdSet α)
    (b : α) :
    b ∈ s.union t ↔ b ∈ s ∨ b ∈ t := by
  unfold union
  rw [mem_insertAll_iff, mem_toList_iff]

end OrdSet

end HeapShape
