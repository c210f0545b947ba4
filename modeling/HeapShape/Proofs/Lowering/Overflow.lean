import HeapShape.Proofs.Lowering.Progress

/-
  Overflow while a function is lowered.

  A field address that leaves the word range is reported as an error of the
  program. Other sums are not checked: the end of a link, the end of a node
  that is laid into another one. They stay in the word range as long as the
  bytes that the numbers of a function add up to do.

  Main declarations:
    * `GraphConfig.admits_empty`
    * `lowering_overflows_only_without_room`
-/

-- Overflow

namespace HeapShape

open Graph

/- Overflow is followed. -/
def Watch.bytes
    (full : Prop) : Watch where
  site := fun _ => False
  node := fun _ => False
  formal := fun _ => False
  root := fun _ => True
  loose := full
  full := full
  known := id

theorem tight_empty
    (config : GraphConfig) :
    Tight { config := config } := by
  refine ⟨fun _ _ hRoot => ?_, fun _ hTarget => ?_⟩
  · cases hRoot
  · rcases hTarget with ⟨_, _, _, hLive, _⟩
    cases hLive

/- A graph without nodes has all bytes to spare. -/
theorem GraphConfig.admits_empty
    (config : GraphConfig)
    (f : FunctionId)
    (spare : Nat) :
    (Watch.bytes (wordBound ≤ spare)).Admits spare (addFunction { config := config } f) where
  wellFormed := (wellFormed_empty config).addFunction f
  snug := fun _ => ⟨(tight_empty config).addFunction f, fun _ _ _ _ hLive => by cases hLive⟩
  tight := fun _ => (tight_empty config).addFunction f
  extent := fun hFull => (Nat.zero_add spare).symm ▸
    Nat.lt_of_not_le hFull
  formals := fun _ hNone => hNone.elim

/-
  Lowering a function gives a graph, or reports a field of its body that
  leaves the word range, or a sum overflows. The last happens only where the
  bytes of the function, its numbers and those of its links, are beyond the
  word range.
-/
theorem lowering_overflows_only_without_room
    (p : Program)
    (f : FunctionDef)
    (config : GraphConfig)
    (hSizes : ∀ decl ∈ p.globals, decl.size < wordBound)
    (hWords : ∀ op ∈ f.body, op.inWords = true) :
    (∃ g, lowerFunction p f { config := config } = .ok (.ok g) ∧ g.WellFormed) ∨
    (∃ e, lowerFunction p f { config := config } =
      .ok (.error e) ∧ f.Overruns e) ∨
    (lowerFunction p f { config := config } =
      .error .addOverflow ∧ wordBound ≤ f.room p config) := by
  have hAllows : (Watch.bytes (wordBound ≤ f.room p config)).Allows f :=
    ⟨fun _ _ _ _ => not_false, fun _ _ _ _ => trivial,
      fun _ => .inr trivial, fun _ => trivial, trivial⟩
  rcases givesUnless_lowerFunction
      (config.admits_empty f.id (f.room p config)) hSizes hWords
      hAllows (fun _ _ _ => trivial) (Nat.le_refl _) with
    ⟨hFull, hOver⟩ | ⟨r, hRun, hGraph, hError⟩
  · exact .inr (.inr ⟨hOver, hFull⟩)
  · cases r with
    | ok g => exact .inl ⟨g, hRun, (hGraph g rfl).wellFormed⟩
    | error e => exact .inr (.inl ⟨e, hRun, hError e rfl⟩)

/- A function that stores through the last field there is. -/
def farStore : FunctionDef where
  id := 0
  name := "far"
  body :=
    [.alloc 0 0 .heap 8 none, .fieldAddr 1 0 4294967295,
      .store 1 (some 0) none]

/- The field is accepted, and the end of its link overflows. -/
theorem lowering_overflows_only_without_room_of_farStore :
    lowerFunction {} farStore {} = .error .addOverflow ∧
      wordBound ≤ farStore.room {} {} := by
  have hFails : (lowerFunction {} farStore {}).isOk = false := by
    decide +kernel
  rcases lowering_overflows_only_without_room {} farStore {}
      (by decide) (by decide) with
    ⟨g, hGraph, _⟩ | ⟨e, hError, _⟩ | hOver
  · rw [hGraph] at hFails
    cases hFails
  · rw [hError] at hFails
    cases hFails
  · exact hOver

end HeapShape
