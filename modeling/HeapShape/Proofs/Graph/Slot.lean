import HeapShape.Graph.Basic
import HeapShape.Proofs.Checked

/-
  Laws of slots.

  Each law says what an update of a graph does to the contents of every
  slot, so that no later proof looks into the array of slots.

  Main declarations:
    * `Graph.slot_setSlot`
    * `Graph.setContents_of_live`
    * `Graph.slot_createNode_of_free`
    * `Graph.slot_createNode_of_full`
-/

-- Occupied Slots

namespace HeapShape

theorem Slot.node?_eq_some_iff
    {s : Slot}
    {n : Node} :
    s.node? = some n ↔ s = .live n := by
  cases s <;> simp [Slot.node?]

namespace Graph

variable {g : Graph} {id other : NodeId} {n : Node} {s : Slot}

/- A slot that is not free has a number in range. -/
theorem lt_size_of_slot_ne_free
    (h : g.slot id ≠ .free) :
    id < g.slots.size := by
  apply Nat.lt_of_not_le
  intro hOut
  apply h
  unfold slot
  simp [Array.getElem?_eq_none hOut]

theorem slot_ne_free_of_live
    (h : g.slot id = .live n) :
    g.slot id ≠ .free := by
  rw [h]
  exact Slot.noConfusion

theorem lt_size_of_live
    (h : g.slot id = .live n) :
    id < g.slots.size :=
  lt_size_of_slot_ne_free (slot_ne_free_of_live h)

variable {t : Cell}

theorem slot_ne_free_of_forward
    (h : g.slot id = .forward t) :
    g.slot id ≠ .free := by
  rw [h]
  exact Slot.noConfusion

/- A slot is occupied unless it is free. -/
theorem hasNode_iff :
    g.hasNode id = true ↔ g.slot id ≠ .free := by
  unfold hasNode
  cases g.slot id <;> simp [Slot.isOccupied]

theorem hasNode_of_live
    (h : g.slot id = .live n) :
    g.hasNode id = true :=
  hasNode_iff.mpr (slot_ne_free_of_live h)

theorem hasNode_of_forward
    (h : g.slot id = .forward t) :
    g.hasNode id = true :=
  hasNode_iff.mpr (slot_ne_free_of_forward h)

/- An occupied slot holds a live node or forwards. -/
theorem slot_cases_of_hasNode
    (h : g.hasNode id = true) :
    (∃ n, g.slot id = .live n) ∨ ∃ t, g.slot id = .forward t := by
  cases hSlot : g.slot id with
  | free => exact absurd hSlot (hasNode_iff.mp h)
  | forward t => exact Or.inr ⟨t, rfl⟩
  | live n => exact Or.inl ⟨n, rfl⟩

/- The contents of a live slot are its node. -/
theorem contents_of_live
    (h : g.slot id = .live n) :
    g.contents id = .ok n := by
  unfold contents
  rw [h]

-- Changing One Slot

@[simp]
theorem free_setSlot :
    (g.setSlot id s).free = g.free :=
  rfl

@[simp]
theorem slots_size_setSlot :
    (g.setSlot id s).slots.size = g.slots.size := by
  simp [setSlot]

/- A change of a slot in range is seen there only. -/
theorem slot_setSlot
    (h : id < g.slots.size)
    (s : Slot)
    (j : NodeId) :
    (g.setSlot id s).slot j = if j = id then s else g.slot j := by
  unfold slot setSlot
  by_cases hj : j = id
  · subst hj
    simp [h]
  · have hne : id ≠ j := fun hEq => hj hEq.symm
    simp [Array.getElem?_setIfInBounds_ne hne, hj]

theorem slot_setSlot_self
    (h : g.slot id = .live n)
    (s : Slot) :
    (g.setSlot id s).slot id = s := by
  rw [slot_setSlot (lt_size_of_live h), if_pos rfl]

theorem slot_setSlot_of_ne
    (h : g.slot id = .live n)
    (s : Slot)
    {j : NodeId}
    (hne : j ≠ id) :
    (g.setSlot id s).slot j = g.slot j := by
  rw [slot_setSlot (lt_size_of_live h), if_neg hne]

/- The new contents of a live slot are seen there only. -/
theorem setContents_of_live
    (h : g.slot id = .live n)
    (n' : Node) :
    g.setContents id n' = .ok (g.setSlot id (.live n')) := by
  unfold setContents
  rw [h]

/- Changing the contents of a live slot succeeds. -/
theorem modifyContents_of_live
    (h : g.slot id = .live n)
    (f : Node → Node) :
    g.modifyContents id f = .ok (g.setSlot id (.live (f n))) := by
  unfold modifyContents
  rw [contents_of_live h, Checked.ok_bind, setContents_of_live h]

/- Only a live slot can be changed. -/
theorem modifyContents_eq_ok
    {h : Graph}
    {f : Node → Node}
    (hRun : g.modifyContents id f = .ok h) :
    ∃ n, g.slot id = .live n ∧ h = g.setSlot id (.live (f n)) := by
  cases hSlot : g.slot id with
  | live n =>
    rw [modifyContents_of_live hSlot] at hRun
    cases hRun
    exact ⟨n, rfl, rfl⟩
  | _ => simp [modifyContents, contents, setContents, hSlot, bind, Except.bind] at hRun

-- Fresh Nodes

/- The node made by `createNode`. -/
abbrev freshNode
    (flags : Flags)
    (size : Nat) : Node :=
  { flags := flags, size := size }

/-
  What `createNode` does where the latest freed slot is in range: the slot
  is used again.
-/
theorem slot_createNode_of_free
    {rest : List NodeId}
    (hFree : g.free = id :: rest)
    (hLt : id < g.slots.size)
    (flags : Flags)
    (size : Nat)
    (j : NodeId) :
    (g.createNode flags size).1 = id ∧ (g.createNode flags size).2.free = rest ∧
      (g.createNode flags size).2.slots.size = g.slots.size ∧
      (g.createNode flags size).2.slot j =
        if j = id then .live (freshNode flags size)
        else g.slot j := by
  have hMade : g.createNode flags size = (id,
      { g.setSlot id (.live (freshNode flags size)) with free := rest }) := by
    unfold createNode
    rw [hFree]
  rw [hMade]
  exact ⟨rfl, rfl, slots_size_setSlot, slot_setSlot hLt _ j⟩

/- Without a freed slot the array grows by one. -/
theorem slot_createNode_of_full
    (hFree : g.free = [])
    (flags : Flags)
    (size : Nat)
    (j : NodeId) :
    (g.createNode flags size).1 = g.slots.size ∧ (g.createNode flags size).2.free = [] ∧
      (g.createNode flags size).2.slots.size = g.slots.size + 1 ∧
      (g.createNode flags size).2.slot j =
        if j = g.slots.size then
          .live (freshNode flags size)
        else g.slot j := by
  have hMade : g.createNode flags size = (g.slots.size, { g with
        slots := g.slots.push (.live (freshNode flags size)) }) := by
    unfold createNode
    rw [hFree]
  rw [hMade]
  refine ⟨rfl, hFree, Array.size_push _, ?_⟩
  unfold slot
  by_cases hj : j = g.slots.size
  · subst hj
    simp
  · simp [Array.getElem?_push, hj]

@[simp]
theorem config_createNode
    (flags : Flags)
    (size : Nat) :
    (g.createNode flags size).2.config = g.config := by
  unfold createNode
  split <;> rfl

@[simp]
theorem roots_createNode
    (flags : Flags)
    (size : Nat) :
    (g.createNode flags size).2.roots = g.roots := by
  unfold createNode
  split <;> rfl

end Graph

end HeapShape
