import Radix.Analytics.Containers
import Radix.Analytics.Current

/-!
# Triangle counting

`OrderedCount`. It reads the flag `is_sorted` once and sorts every list itself where the flag is not set.
-/

namespace Radix.Analytics

open Lib RadixGraph

variable {W : Type} [Zero W]

/-- The loop `while (i < v_neighbours.size() && v_neighbours[i].idx < w) i++;`, which takes at most
`v_neighbours.size() - i` rounds. -/
def advance (vNeighbours : List (WeightedEdge W)) (w : NodeID) : Nat → Nat → Nat
  | 0, i => i
  | rounds + 1, i =>
      match vNeighbours[i]? with
      | none => i
      | some e => if asNodeID e.idx < w then advance vNeighbours w rounds (i + 1) else i

def countCommon (v : NodeID) (vNeighbours : List (WeightedEdge W)) :
    List (WeightedEdge W) → Nat → Nat → Nat
  | [], _, total => total
  | f :: rest, i, total =>
      let w := asNodeID f.idx
      if v < w then total
      else
        let i := advance vNeighbours w (vNeighbours.length - i) i
        let found := match vNeighbours[i]? with
          | none => false
          | some e => w = asNodeID e.idx
        countCommon v vNeighbours rest i (if found then (total + 1) % 2 ^ 64 else total)

/-- `total` of all threads together; the sum does not depend on how it is split. -/
structure OrderedCount (W : Type) [Zero W] where
  g : RadixGraph W
  total : Nat

variable [DecidableEq W]

def fetchSorted (P : Platform W) (isSorted : Bool) (g : RadixGraph W) (u : NodeID) :
    Result (List (WeightedEdge W) × RadixGraph W) := do
  let (_, neighbours, g) ← g.getNeighboursByOffset (asInt u) [] maxTimestamp
  .ok (if isSorted then neighbours else P.sort neighbours, g)

def countEdges (P : Platform W) (isSorted : Bool) (u : NodeID) (neighbours : List (WeightedEdge W)) :
    List (WeightedEdge W) → OrderedCount W → Result (OrderedCount W)
  | [], s => .ok s
  | e :: rest, s =>
      let v := asNodeID e.idx
      if u < v then .ok s
      else do
        let (vNeighbours, g) ← fetchSorted P isSorted s.g v
        countEdges P isSorted u neighbours rest { g, total := countCommon v vNeighbours neighbours 0 s.total }

def countVertex (P : Platform W) (isSorted : Bool) (s : OrderedCount W) (u : NodeID) : Result (OrderedCount W) := do
  let (neighbours, g) ← fetchSorted P isSorted s.g u
  countEdges P isSorted u neighbours neighbours { s with g }

def orderedCount (P : Platform W) (loops : Loops) (g : RadixGraph W) (numVertices : Nat) : Result (OrderedCount W) :=
  (loops.order 0 (List.range numVertices)).foldlM (countVertex P g.isSorted) { g, total := 0 }

end Radix.Analytics
