import HeapShape.Simulation
import HeapShape.Proofs.Graph.Shape

/-
  Simulations depend on shapes.

  Whether a caller simulates a callee, and how, is read from the shapes of
  their graphs.

  Main declarations:
    * `Simulation.insertWithin_eq`
    * `Simulation.ofCall_eq`
-/

namespace HeapShape

namespace Simulation

variable {callee callee' caller caller' : Graph}

theorem linkPairs_eq
    (hCaller : caller.SameShape caller')
    (node : NodeId)
    (base : Nat)
    (links : List (Field × Cell))
    (work : List (Cell × Cell)) :
    linkPairs caller' node base links work = linkPairs caller node base links work := by
  induction links generalizing work with
  | nil => rfl
  | cons link rest ih =>
    unfold linkPairs
    simp only [hCaller.link?_eq, ih]

theorem align_eq
    (hCallee : callee.SameShape callee')
    (hCaller : caller.SameShape caller')
    (c1 c2 : Cell) :
    align callee' caller' c1 c2 = align callee caller c1 c2 := by
  unfold align
  rw [hCallee.resolve, hCaller.resolve]
  congr 1
  funext c1
  congr 1
  funext c2
  rw [hCallee.bind_contents (fun _ => rfl)]
  congr 1
  funext n1
  exact hCaller.bind_contents (fun _ => rfl) c2.node

theorem insertWithin_eq
    (hCallee : callee.SameShape callee')
    (hCaller : caller.SameShape caller')
    (fuel : Nat)
    (work : List (Cell × Cell))
    (s : Simulation) :
    insertWithin callee' caller' fuel work s =
      insertWithin callee caller fuel work s := by
  induction fuel generalizing work s with
  | zero =>
    cases work with
    | nil => rfl
    | cons pair rest => rfl
  | succ fuel ih =>
    cases work with
    | nil => rfl
    | cons pair rest =>
      unfold insertWithin
      simp only [align_eq hCallee hCaller, linkPairs_eq hCaller, ih]
      congr 1
      funext aligned
      cases aligned with
      | none => rfl
      | some placed =>
        dsimp only
        rw [hCallee.bind_contents (fun _ => rfl)]

theorem addPair_eq
    (hCallee : callee.SameShape callee')
    (hCaller : caller.SameShape caller') :
    addPair callee' caller' = addPair callee caller := by
  unfold addPair insert
  simp only [hCallee.linkCounts_eq, insertWithin_eq hCallee hCaller]

/- The simulation at a call is read from the shapes. -/
theorem ofCall_eq
    (hCallee : callee.SameShape callee')
    (hCaller : caller.SameShape caller')
    (cs : CallSite)
    (f : FunctionDef) :
    ofCall cs f callee' caller' = ofCall cs f callee caller := by
  have hCells : caller'.cell? = caller.cell? :=
    funext hCaller.cell?_eq
  unfold ofCall addCall rootPairs
  simp only [hCallee.globalNames_eq, hCallee.rootCell?_eq, hCaller.rootCell?_eq, hCells,
    addPair_eq hCallee hCaller]

end Simulation

end HeapShape
