import HeapShape.Proofs.Graph.Derived

/-
  Graphs that nothing leads out of.

  A cell is inside its node if the offset that it comes to have there is a
  word, and not beyond the end of a node that has one. A node is merged into
  another only where it has room, so cells that are inside stay inside.

  Main declarations:
    * `Graph.Inside`
    * `Graph.Spans.merged`
    * `Graph.Tight.of_rewired`
    * `Graph.Snug`
-/

-- Cells Inside Their Nodes

namespace HeapShape

namespace Graph

/-
  A cell has a word as its offset and is not beyond the end of its node, if
  that has one.
-/
def Inside
    (g : Graph)
    (c : Cell) : Prop :=
  ∃ m n k, g.Leads c.node m k ∧ g.slot m = .live n ∧
    c.offset + k < wordBound ∧
    (n.isPlain = true → c.offset + k ≤ n.size)

variable {g h : Graph} {c d : Cell} {id : NodeId} {n : Node}

theorem Inside.start
    (hSlot : g.slot id = .live n) :
    g.Inside (Cell.start id) := by
  have hPos : 0 < wordBound := by decide
  exact ⟨id, n, 0, .live hSlot, hSlot, hPos, fun _ => Nat.zero_le _⟩

theorem Inside.of_samePlace
    (hd : g.Inside d)
    (hcd : g.SamePlace c d) :
    g.Inside c := by
  rcases hd with ⟨m, n, k, hLeads, hLive, hWord, hEnd⟩
  rcases hcd with ⟨m', j, k', hc, hd, hEq⟩
  rcases hLeads.unique hd with ⟨rfl, rfl⟩
  rw [← hEq] at hWord hEnd
  exact ⟨m, n, j, hc, hLive, hWord, hEnd⟩

theorem Inside.word
    (hc : g.Inside c) :
    c.offset < wordBound := by
  rcases hc with ⟨_, _, k, _, _, hWord, _⟩
  omega

/- So many bytes after a cell are inside, too. -/
def Spans
    (g : Graph)
    (c : Cell)
    (len : Nat) : Prop :=
  ∃ m n k, g.Leads c.node m k ∧ g.slot m = .live n ∧
    c.offset + k < wordBound ∧
    (n.isPlain = true → c.offset + k + len ≤ n.size)

variable {len : Nat}

/- A node is merged only where it has room. -/
theorem Spans.merged
    (hc : g.Spans c len)
    (hm : Merged g h) :
    h.Spans c len := by
  rcases hc with ⟨m, n, k, hLeads, hLive, hWord, hEnd⟩
  rcases hm.leads _ _ _ hLeads with ⟨m', k', hLeads', hAll⟩
  rcases hLeads'.live_end with ⟨n', hLive'⟩
  have hIn := (hm.stands m n m' k' n' hLive hLeads' hLive').toLiesIn
  refine ⟨m', n', k + k', hAll, hLive', ?_, ?_⟩
  · cases hPlain : n.isPlain with
    | true =>
      have hRoom := hIn.word
      have hOld := hEnd hPlain
      omega
    | false =>
      have hZero := hIn.folded hPlain
      omega
  · intro hPlain'
    have hPlain := hIn.plain_of_plain hPlain'
    have hRoom := hIn.inside hPlain hPlain'
    have hOld := hEnd hPlain
    omega

theorem Spans.inside
    (hc : g.Spans c len) :
    g.Inside c := by
  rcases hc with ⟨m, n, k, hLeads, hLive, hWord, hEnd⟩
  refine ⟨m, n, k, hLeads, hLive, hWord, fun hPlain => ?_⟩
  exact Nat.le_of_add_right_le (hEnd hPlain)

theorem Inside.merged
    (hc : g.Inside c)
    (hm : Merged g h) :
    h.Inside c :=
  (Spans.merged (show g.Spans c 0 from hc) hm).inside

/- The first byte of a node is inside. -/
theorem WellFormed.inside_start
    (hg : g.WellFormed)
    (hNode : g.hasNode id = true) :
    g.Inside (Cell.start id) := by
  rcases hg.leads hNode with ⟨m, k, hLeads⟩
  rcases hLeads.live_end with ⟨n, hLive⟩
  have hShift := hg.shift id m k n hLeads hLive
  refine ⟨m, n, k, hLeads, hLive, ?_, ?_⟩
  · exact (Nat.zero_add k).symm ▸ hShift.1
  · exact (Nat.zero_add k).symm ▸ hShift.2

/- A cell inside its node can be resolved. -/
theorem Inside.resolve
    (hc : g.Inside c) :
    ∃ d n, g.resolve c = .ok d ∧ g.slot d.node = .live n ∧
      d.offset < wordBound ∧ g.SamePlace d c := by
  rcases hc with ⟨m, n, k, hLeads, hLive, hWord, _⟩
  have hResolve : g.resolve c = ({ node := m, offset := c.offset } : Cell).shifted k :=
    resolve_of_leads hLeads (by omega)
  rw [shifted_eq, if_pos hWord] at hResolve
  refine ⟨_, n, hResolve, hLive, hWord, ?_⟩
  exact ⟨m, 0, k, .live hLive, hLeads, rfl⟩

-- Snug Graphs

/- The types of a node that has an end are before its end. -/
def TypesFit
    (g : Graph) : Prop :=
  ∀ id n o ts, g.slot id = .live n →
    n.types.get? o = some ts → n.isPlain = true → o ≤ n.size

/- All cells that a graph holds are inside their nodes. -/
structure Tight
    (g : Graph) : Prop where
  roots : ∀ r c, g.roots.get? r = some c → g.Inside c
  targets : ∀ t, g.Targets t → g.Inside t

/- So are the types of nodes. -/
structure Snug
    (g : Graph) : Prop extends g.Tight where
  types : g.TypesFit

variable {T : Cell → Prop} {this other : NodeId} {n' m : Node} {k : Nat}

/- Cells stay inside where chains go on. -/
theorem Tight.of_rewired
    (hg : g.Tight)
    (hm : Merged g h)
    (hKept : Rewired g h T)
    (hT : ∀ t, T t → h.Inside t) :
    h.Tight := by
  refine ⟨fun r c hRoot => ?_, fun u hu => ?_⟩
  · rw [hKept.roots] at hRoot
    exact (hg.roots r c hRoot).merged hm
  · rcases hKept.targets u hu with ⟨t, hOrigin, hDrawn⟩
    have ht : h.Inside t := by
      rcases hOrigin with hOld | hNew
      · exact (hg.targets t hOld).merged hm
      · exact hT t hNew
    rcases hDrawn with rfl | hPlace
    · exact ht
    · exact ht.of_samePlace hPlace.symm

theorem Tight.insertRoot
    (hg : g.Tight)
    {r : Root}
    (hm : Merged g { g with roots := g.roots.insert r c })
    (hc : g.Inside c) :
    Tight { g with roots := g.roots.insert r c } := by
  refine ⟨fun x d hd => ?_, fun t ht => ?_⟩
  · rw [OrdMap.get?_insert] at hd
    split at hd
    · cases hd
      exact hc.merged hm
    · exact (hg.roots x d hd).merged hm
  · exact (hg.targets t ht).merged hm

/- No target is new. -/
theorem Snug.of_derived
    (hg : g.Snug)
    (hm : Merged g h)
    (hKept : Derived g h fun _ => False)
    (hTypes : h.TypesFit) :
    h.Snug :=
  ⟨hg.toTight.of_rewired hm hKept.toRewired fun _ hNone => hNone.elim, hTypes⟩

theorem TypesFit.shortened
    (hg : g.TypesFit)
    (hs : Shortened g h) :
    h.TypesFit :=
  fun id n o ts hLive => hg id n o ts (hs.live_iff.mp hLive)

theorem Snug.shortened
    (hg : g.Snug)
    (hWell : g.WellFormed)
    (hs : Shortened g h) :
    h.Snug :=
  hg.of_derived (Sound.shortened (E := False) hWell hs).merged
    (.shortened hWell.freeListed hs) (hg.types.shortened hs)

theorem TypesFit.setLive
    (hg : g.TypesFit)
    (hSlot : g.slot id = .live n)
    (hTypes : ∀ o ts, n'.types.get? o = some ts → n'.isPlain = true → o ≤ n'.size) :
    (g.setSlot id (.live n')).TypesFit := by
  intro j nj o ts hj
  rw [slot_setSlot (lt_size_of_live hSlot)] at hj
  split at hj
  · cases hj
    exact hTypes o ts
  · exact hg j nj o ts hj

/- A node keeps its kind and its types, and does not shrink. -/
theorem TypesFit.setLive_of_same
    (hg : g.TypesFit)
    (hSlot : g.slot id = .live n)
    (hTypes : n'.types = n.types)
    (hPlain : n'.isPlain = n.isPlain)
    (hSize : n.size ≤ n'.size) :
    (g.setSlot id (.live n')).TypesFit := by
  refine hg.setLive hSlot fun o ts hGet hIs => ?_
  rw [hTypes] at hGet
  rw [hPlain] at hIs
  exact Nat.le_trans (hg id n o ts hSlot hGet hIs) hSize

theorem isPlain_takeOver
    (hIn : m.LiesIn n k)
    (hNot : n.isCollapsed = true → n.isArray = false) :
    (takeOver n m k).isPlain = n.isPlain := by
  unfold Node.isPlain
  rw [(takeOver_kind hIn hNot).1, (takeOver_kind hIn hNot).2]

/- A node is absorbed; its own types are not there yet. -/
theorem Snug.takenOver
    (hg : g.Snug)
    (hWell : g.WellFormed)
    (hThis : g.slot this = .live n)
    (hOther : g.slot other = .live m)
    (hne : this ≠ other)
    (hIn : m.LiesIn n k) :
    (g.takenOver this other n m k).Snug := by
  have hTaken := hg.types.setLive_of_same hThis (show (takeOver n m k).types = n.types from rfl)
    (isPlain_takeOver hIn (hWell.nodes _ _ hThis).collapsed_not_array)
    (Nat.le_refl _)
  refine hg.of_derived (Sound.takenOver (E := False) hWell
    hThis hOther hne hIn).merged (.takenOver hWell.freeListed hThis hOther hne k) ?_
  intro j nj o ts hj
  rw [slot_takenOver hThis hOther] at hj
  split at hj
  · cases hj
  · refine hTaken j nj o ts ?_
    rw [slot_setSlot (lt_size_of_live hThis), hj]

theorem Snug.createNode
    (hg : g.Snug)
    (hWell : g.WellFormed)
    (flags : Flags)
    (size : Nat)
    (hm : Merged g (g.createNode flags size).2) :
    (g.createNode flags size).2.Snug := by
  refine hg.of_derived hm (.createNode hWell.freeListed _ _) ?_
  intro j nj o ts hj
  rw [(hWell.slot_createNode flags size).2] at hj
  split at hj
  · cases hj
    exact fun hGet => by cases hGet
  · exact hg.types j nj o ts hj

end Graph

end HeapShape
