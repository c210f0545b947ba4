import HeapShape.Json.Record
import HeapShape.Simulation

/-
  Simulations as JSON documents.

  Key definitions include:
    * `Simulation.toJson`
-/

namespace HeapShape

open Json

namespace Simulation

/-
  Write a simulation of a callee, with the images of its live nodes. Each
  test is answered for all nodes and for the modified ones.
-/
def toJson
    (s : Simulation)
    (callee : Graph) : Checked Json := do
  let all ← s.isInjective false
  let modified ← s.isInjective true
  let images := callee.liveNodes.filterMap fun (id, _) =>
    (s.image? id).map fun img =>
      arr [nat id, nat img.node, nat img.base]
  return obj [
    ("function", bool s.isFunction),
    ("len", nat s.images.size),
    ("empty", bool s.images.isEmpty),
    ("one_to_many",
      arr [
        bool (s.isOneToMany false),
        bool (s.isOneToMany true)]),
    ("injective", arr [bool all, bool modified]),
    ("images", arr images)]

end Simulation

end HeapShape
