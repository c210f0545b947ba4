import HeapShape.Ordered.Set
import HeapShape.Proofs.Checked

/-
  Further look-up laws of ordered maps and sets.

  Main declarations:
    * `OrdMap.get?_filter`
    * `OrdMap.mapM_get?_of_mapChecked`
    * `OrdSet.mem_ofList_iff`
-/

namespace HeapShape

open Checked

namespace OrdMap

variable {α β γ : Type} [Ord α] [Std.LawfulEqOrd α]

/- A filtered map has the entries that pass. -/
theorem get?_filter
    (keep : α → β → Bool)
    (m : OrdMap α β)
    (key : α)
    (value : β) :
    (m.filter keep).get? key = some value ↔
      m.get? key = some value ∧ keep key value = true := by
  rw [get?_eq_some_iff, get?_eq_some_iff]
  exact List.mem_filter

omit [Std.LawfulEqOrd α] in
/- What is found in entries whose values were changed. -/
theorem mapM_lookupEntry
    {f : β → Checked γ}
    {entries : List (α × β)}
    {out : { out : List (α × γ) // entryKeys out = entryKeys entries }}
    (h : mapEntriesChecked f entries = .ok out)
    (key : α) :
    (lookupEntry key entries).mapM f = .ok (lookupEntry key out.1) := by
  induction entries with
  | nil =>
    cases h
    rfl
  | cons e rest ih =>
    rcases e with ⟨k, v⟩
    rw [mapEntriesChecked] at h
    rcases of_bind h with ⟨w, hw, h⟩
    rcases of_bind h with ⟨⟨tail, hKeys⟩, hTail, h⟩
    cases h
    simp only [lookupEntry]
    cases compare key k with
    | eq =>
      rw [Option.mapM_some, hw]
      rfl
    | lt => exact ih hTail
    | gt => exact ih hTail

omit [Std.LawfulEqOrd α] in
/- What is found after all values were changed. -/
theorem mapM_get?_of_mapChecked
    {f : β → Checked γ}
    {m : OrdMap α β}
    {m' : OrdMap α γ}
    (h : m.mapChecked f = .ok m')
    (key : α) :
    (m.get? key).mapM f = .ok (m'.get? key) := by
  unfold mapChecked at h
  rcases of_bind h with ⟨⟨out, hKeys⟩, hOut, h⟩
  cases h
  exact mapM_lookupEntry hOut key

end OrdMap

namespace OrdSet

variable {α : Type} [Ord α] [Std.TransOrd α] [Std.LawfulEqOrd α]

theorem contains_insert
    [DecidableEq α]
    (s : OrdSet α)
    (a b : α) :
    (s.insert a).contains b = if b = a then true else s.contains b := by
  unfold contains insert OrdMap.contains
  rw [OrdMap.get?_insert]
  split <;> rfl

/- The set of the values of a list. -/
theorem mem_ofList_iff
    [DecidableEq α]
    (xs : List α)
    (a : α) :
    a ∈ ofList xs ↔ a ∈ xs := by
  unfold ofList
  rw [mem_insertAll_iff]
  constructor
  · rintro (h | h)
    · cases h
    · exact h
  · exact Or.inr

omit [Std.TransOrd α] [Std.LawfulEqOrd α] in
theorem size_eq_length
    (s : OrdSet α) :
    s.size = s.toList.length := by
  unfold size OrdMap.size toList OrdMap.keys
  rw [entryKeys, List.length_map]

/- Only the empty list makes a set of no members. -/
theorem size_ofList_eq_zero_iff
    [DecidableEq α]
    (xs : List α) :
    (ofList xs).size = 0 ↔ xs = [] := by
  rw [size_eq_length, List.length_eq_zero_iff, List.eq_nil_iff_forall_not_mem,
    List.eq_nil_iff_forall_not_mem]
  simp only [mem_toList_iff, mem_ofList_iff]

end OrdSet

end HeapShape
