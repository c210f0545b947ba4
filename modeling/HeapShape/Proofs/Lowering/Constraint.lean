import HeapShape.Proofs.Graph.Collect
import HeapShape.Proofs.Lookup
import HeapShape.Proofs.Lowering.Draft

/-
  What the operations of a function ask of its graph.

  `Operation.Holds` says of each kind of operation what its graph must show:
  a copy gives one address two names, a load follows a link. It is told with
  the look-ups that users of a graph have.

  Main declarations:
    * `Graph.Agree`
    * `Graph.LinksTo`
    * `Operation.Holds`
    * `Operation.keepsStride`
-/

-- Constraints

namespace HeapShape

namespace Graph

/-
  Two live cells lie in one node. In the exact form they have one effective
  address.
-/
def Agree
    (E : Prop)
    (g : Graph)
    (c d : Cell) : Prop :=
  c.node = d.node ∧
    (E → ∃ e, g.effective c = .ok e ∧ g.effective d = .ok e)

/-
  A link leads from the node of a live cell to that of another. In the exact
  form it is the link at the cell, and it leads to the effective address of
  the other.
-/
def LinksTo
    (E : Prop)
    (g : Graph)
    (c : Cell)
    (type? : Option TypeTag)
    (t : Cell) : Prop :=
  (∃ u, g.LinkTo c.node u t.node) ∧
    (E → ∃ u e, g.link? c type? = .ok (some u) ∧
      g.effective u = .ok e ∧ g.effective t = .ok e)

/- A cell lies in a node with a flag. -/
def HasFlag
    (g : Graph)
    (c : Cell)
    (flag : Flag) : Prop :=
  ∃ n, g.nodeOf c = .ok n ∧ n.flags.has flag = true

end Graph

/- The points-to constraint of an operation. -/
def Operation.Holds
    (E : Prop)
    (f : FunctionDef)
    (g : Graph) :
    Operation → Prop
| .alloc dst site kind _ _ =>
    ∃ d n, g.cell? dst = .ok (some d) ∧ g.nodeOf d = .ok n ∧
      { id := site, kind := kind } ∈ n.allocSites ∧
      n.flags.has kind.flag = true
| .copy dst src =>
    ∃ d c, g.cell? dst = .ok (some d) ∧
      g.cell? src = .ok (some c) ∧ g.Agree E d c
| .fieldAddr dst base offset =>
    ∃ d b c, g.cell? dst = .ok (some d) ∧
      g.cell? base = .ok (some b) ∧
      b.shifted offset = .ok c ∧ g.Agree E d c
| .indexAddr dst base _ =>
    ∃ d b, g.cell? dst = .ok (some d) ∧
      g.cell? base = .ok (some b) ∧ g.Agree E d b
| .load dst addr type? =>
    ∃ d a, g.cell? dst = .ok (some d) ∧
      g.cell? addr = .ok (some a) ∧ g.HasFlag a .read ∧
      g.LinksTo E a type? d
| .store addr value? type? =>
    ∃ a, g.cell? addr = .ok (some a) ∧
      g.HasFlag a .modified ∧
      ∀ value, value? = some value →
        ∃ v, g.cell? value = .ok (some v) ∧
          g.LinksTo E a type? v
| .globalAddr dst global =>
    ∃ d c, g.cell? dst = .ok (some d) ∧
      g.rootCell? (.global global) = .ok (some c) ∧
      g.HasFlag c .global ∧ g.Agree E d c
| .ret value =>
    f.returnsPointer = true →
      ∃ r v, g.rootCell? (.result f.id) = .ok (some r) ∧
        g.cell? value = .ok (some v) ∧ g.Agree E r v
| .intToPtr dst =>
    ∃ d, g.cell? dst = .ok (some d) ∧
      g.HasFlag d .intToPtr ∧ g.HasFlag d .unknown
| .ptrToInt src =>
    ∃ c, g.cell? src = .ok (some c) ∧ g.HasFlag c .ptrToInt

/- The value that an operation defines. -/
def Operation.dst? : Operation → Option ValueId
| .alloc dst _ _ _ _ => some dst
| .copy dst _ => some dst
| .fieldAddr dst _ _ => some dst
| .indexAddr dst _ _ => some dst
| .load dst _ _ => some dst
| .store _ _ _ => none
| .globalAddr dst _ => some dst
| .ret _ => none
| .intToPtr dst => some dst
| .ptrToInt _ => none

/- Whether the numbers of an operation are words. -/
def Operation.inWords : Operation → Bool
| .alloc _ _ _ size _ => size < wordBound
| .fieldAddr _ _ offset => offset < wordBound
| .indexAddr _ _ stride => stride < wordBound
| _ => true

-- Strides

/- The node of a value. -/
def Graph.valueNode?
    (g : Graph)
    (v : ValueId) : Option Node := do
  let c ← (← (g.cell? v).toOption)
  (g.nodeOf c).toOption

/-
  Whether an operation makes no array whose stride is another one at the
  end.
-/
def Operation.keepsStride
    (before last : Graph) :
    Operation → Bool
| .indexAddr _ base stride =>
    stride == 0 ||
      (before.valueNode? base).any Node.isArray ||
      (last.valueNode? base).any fun n =>
        n.isCollapsed || n.isArray && n.size == stride
| _ => true

/- The graph, if there was neither a fault nor an error. -/
def Lowered.graph?
    (m : Lowered) : Option Graph :=
  m.toOption.bind Except.toOption

/- Whether no operation of a list makes such an array. -/
def keepStrides
    (p : Program)
    (f : FunctionDef)
    (last : Graph) :
    Graph → List Operation → Bool
| _, [] => true
| g, op :: ops =>
    op.keepsStride g last &&
      (Lowered.graph? (lowerOperation p f g op)).all fun h =>
        keepStrides p f last h ops

-- Looking Up Live Cells

namespace Graph

/- A cell of a live node in the place of another cell. -/
structure LiveCell
    (g : Graph)
    (d c : Cell) : Prop where
  live : ∃ n, g.slot d.node = .live n
  word : d.offset < wordBound
  place : g.SamePlace d c

variable {E : Prop} {g : Graph} {a b c d t : Cell} {type? : Option TypeTag}

/- The effective address of a cell of a live node. -/
theorem LiveCell.effective
    (hd : g.LiveCell d c) :
    ∃ e, g.effective d = .ok e := by
  rcases hd.live with ⟨n, hLive⟩
  rw [effective_of_leads (.live hLive) hLive hd.word, Nat.add_zero, if_pos hd.word]
  exact ⟨_, rfl⟩

theorem LiveCell.agree
    (hb : g.LiveCell b a)
    (hd : g.LiveCell d c)
    (hNode : g.SameNode a c)
    (hAddress : E → g.SameAddress a c) :
    g.Agree E b d := by
  rcases hb.live with ⟨n, hLive⟩
  rcases hd.live with ⟨n', hLive'⟩
  constructor
  · rcases (hb.place.sameNode.trans hNode).trans hd.place.symm.sameNode with ⟨m, j, k, hm, hm'⟩
    rcases hm.eq_of_live hLive with ⟨hbm, _⟩
    rcases hm'.eq_of_live hLive' with ⟨hdm, _⟩
    rw [← hbm, ← hdm]
  · intro hEx
    have hSame := (hb.place.sameAddress.trans (hAddress hEx)).trans hd.place.symm.sameAddress
    rcases hSame.coincide hb.word hd.word with hOk | ⟨hOver, _⟩
    · exact hOk
    · rcases hb.effective with ⟨e, he⟩
      rw [he] at hOver
      cases hOver

/- Live cells are shifted as the cells they stand for. -/
theorem LiveCell.shifted
    (hd : g.LiveCell d c)
    {delta : Nat}
    (hInside : g.Inside
      { c with offset := c.offset + delta }) :
    ∃ e, d.shifted delta = .ok e ∧ g.LiveCell e { c with offset := c.offset + delta } := by
  rcases hd.live with ⟨n, hLive⟩
  rcases hd.place with ⟨m, j, k, hm, hm', hEq⟩
  rcases hm.eq_of_live hLive with ⟨rfl, rfl⟩
  rcases hInside with ⟨m', _, k', hLeads, _, hWord, _⟩
  rcases hLeads.unique hm' with ⟨rfl, rfl⟩
  dsimp only at hWord
  have hShifted : d.offset + delta < wordBound := by omega
  rw [shifted_eq, if_pos hShifted]
  refine ⟨_, rfl, ⟨n, hLive⟩, hShifted, ?_⟩
  refine ⟨_, 0, _, hm, hm', ?_⟩
  dsimp only
  omega

/- What is known of the node of a cell, seen from a cell. -/
theorem LiveCell.nodeOf
    (hd : g.LiveCell d c)
    (hNode : g.SameNode d a)
    {P : Node → Prop}
    (hHas : g.NodeHas P a.node) :
    ∃ n, g.nodeOf d = .ok n ∧ P n := by
  rcases hd.live with ⟨n, hLive⟩
  rcases hHas with ⟨m, k, n', hLeads, hLive', hP⟩
  rcases hNode with ⟨m', j, k', hm, hm'⟩
  rcases hm.eq_of_live hLive with ⟨rfl, _⟩
  rcases hm'.unique hLeads with ⟨rfl, _⟩
  rw [hLive] at hLive'
  cases hLive'
  refine ⟨n, ?_, hP⟩
  have hResolve : g.resolve d = ({ node := d.node, offset := d.offset } : Cell).shifted
        0 :=
    resolve_of_leads (.live hLive) hd.word
  unfold Graph.nodeOf
  rw [hResolve, shifted_eq, Nat.add_zero, if_pos hd.word]
  exact contents_of_live hLive

end Graph

open Graph

variable {E : Prop} {f : FunctionDef} {g : Graph} {a b c d t : Cell} {r : Root} {v : ValueId}
variable {type? : Option TypeTag}

/- A cell inside its node has a live cell. -/
theorem Graph.Inside.liveCell
    (hc : g.Inside c) :
    ∃ d, g.resolve c = .ok d ∧ g.LiveCell d c := by
  rcases hc.resolve with ⟨d, n, hResolve, hLive, hWord, hPlace⟩
  exact ⟨d, hResolve, ⟨n, hLive⟩, hWord, hPlace⟩

/- The root of a draft has a live cell. -/
theorem Draft.rootCell?
    (hg : Draft f g)
    (hRoot : g.roots.get? r = some c) :
    ∃ d, g.rootCell? r = .ok (some d) ∧ g.LiveCell d c := by
  rcases (hg.roots r c hRoot).liveCell with ⟨d, hResolve, hd⟩
  refine ⟨d, ?_, hd⟩
  unfold Graph.rootCell?
  rw [hRoot, Option.mapM_some, hResolve]
  rfl

/- So has a value, as a formal or as a scalar. -/
theorem Draft.cell?
    (hg : Draft f g)
    (hr : r = .formal v ∨ r = .scalar v)
    (hRoot : g.roots.get? r = some c) :
    ∃ d, g.cell? v = .ok (some d) ∧ g.LiveCell d c := by
  rcases hg.rootCell? hRoot with ⟨d, hCell, hd⟩
  refine ⟨d, ?_, hd⟩
  unfold Graph.cell?
  rcases hr with rfl | rfl
  · have hNone : g.rootCell? (.scalar v) = .ok none := by
      unfold Graph.rootCell?
      rw [(hg.formals v c hRoot).2]
      rfl
    rw [hNone]
    exact hCell
  · rw [hCell]
    rfl

theorem Draft.cell?_of_valueAt
    (hg : Draft f g)
    (hAt : g.ValueAt v c) :
    ∃ d, g.cell? v = .ok (some d) ∧ g.LiveCell d c := by
  rcases hAt with ⟨r, hr, e, hRoot, hPlace⟩
  rcases hg.cell? hr hRoot with ⟨d, hCell, hd⟩
  exact ⟨d, hCell, hd.live, hd.word, hd.place.trans hPlace⟩

/- A value has one root. -/
theorem Draft.root_unique
    (hg : Draft f g)
    {q : Root}
    (hr : r = .formal v ∨ r = .scalar v)
    (hq : q = .formal v ∨ q = .scalar v)
    (hc : g.roots.get? r = some c)
    (hd : g.roots.get? q = some d) :
    c = d := by
  rcases hr with rfl | rfl <;> rcases hq with rfl | rfl
  · rw [hc] at hd
    exact Option.some.inj hd
  · rw [(hg.formals v c hc).2] at hd
    cases hd
  · rw [(hg.formals v d hd).2] at hc
    cases hc
  · rw [hc] at hd
    exact Option.some.inj hd

/- The node of a value is that of its root. -/
theorem Graph.root_of_valueNode?
    {n : Node}
    (hNode : g.valueNode? v = some n) :
    ∃ r c, (r = .formal v ∨ r = .scalar v) ∧ g.roots.get? r = some c ∧
      g.NodeHas (fun n' => n' = n) c.node := by
  unfold Graph.valueNode? at hNode
  simp only [Option.bind_eq_bind, Option.bind_eq_some_iff, Checked.toOption_eq_some_iff] at hNode
  rcases hNode with ⟨b?, hCell, b, rfl, hOf⟩
  rcases root_of_cell? hCell with ⟨r, c, hr, hRoot, hResolve⟩
  refine ⟨r, c, hr, hRoot, ?_⟩
  unfold Graph.nodeOf at hOf
  rcases Checked.of_bind hOf with ⟨e, hEnd, hContents⟩
  rcases leads_of_resolve hResolve with ⟨k, hLeads, _⟩
  rcases leads_of_resolve hEnd with ⟨j, hLeads', _⟩
  rcases hLeads.live_end with ⟨n', hLive⟩
  rcases hLeads'.eq_of_live hLive with ⟨hSame, _⟩
  rw [hSame] at hContents
  rcases eq_of_contents hLive hContents with rfl
  exact ⟨b.node, k, _, hLeads, hLive, rfl⟩

/- A link of a draft is found by following it. -/
theorem Draft.linksTo
    (hg : Draft f g)
    (hb : g.LiveCell b a)
    (hd : g.LiveCell d t)
    (hLinked : g.Linked E a type? t) :
    g.LinksTo E b type? d := by
  rcases hb.live with ⟨n, hLive⟩
  rcases hd.live with ⟨n', hLive'⟩
  rcases hLinked.of_samePlace hb.place with
    ⟨m, nm, k, x, u, hLeads, hLiveM, hWord, hGet, hNode, hExact⟩
  rcases hLeads.eq_of_live hLive with ⟨rfl, rfl⟩
  rw [hLive] at hLiveM
  cases hLiveM
  constructor
  · rcases hNode.trans hd.place.symm.sameNode with ⟨m, j, k, hu, hm⟩
    rcases hm.eq_of_live hLive' with ⟨rfl, _⟩
    exact ⟨u, n, x, j, hLive, hGet, hu⟩
  · intro hEx
    rcases hExact hEx with ⟨hField, hAddress⟩
    rcases (hg.targets u ⟨_, n, x, hLive, hGet⟩).liveCell with ⟨w, hResolve, hw⟩
    have hAgree : g.Agree True w d := hw.agree hd hNode fun _ => hAddress
    rcases hAgree.2 trivial with ⟨e, he, he'⟩
    refine ⟨w, e, ?_, he, he'⟩
    rw [link?_of_leads hLeads hLive hWord, ← hField, hGet, Option.mapM_some, hResolve]
    rfl

end HeapShape
