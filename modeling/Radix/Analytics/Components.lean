import Radix.Analytics.Containers
import Radix.Analytics.Adjacency
import Radix.Lib.Labels

/-!
# Connected components

`ShiloachVishkin`. The vector of labels is as long as `num_nodes`, which is one more than the largest external id.
-/

namespace Radix.Analytics

open Lib RadixGraph

variable {W : Type} [Zero W]

/-- The variables of `ShiloachVishkin`; `loopCount` counts the parallel loops begun. -/
structure Components (W : Type) [Zero W] where
  g : RadixGraph W
  comp : PVector NodeID
  change : Bool
  loopCount : Nat

/-- `comp_u + (comp_v - high_comp)`, in 32 bits. -/
def lowComp (compU compV highComp : NodeID) : NodeID := (compU + (compV + 2 ^ 32 - highComp) % 2 ^ 32) % 2 ^ 32

def hookEdge (n : NodeID) (s : Components W) (e : WeightedEdge W) : Result (Components W) := do
  let compU ← s.comp.get n
  let vidx ← index e.idx
  let compV ← s.comp.get vidx
  if compU = compV then .ok s
  else do
    let highComp := if compV < compU then compU else compV
    let root ← s.comp.get highComp
    if highComp = root then do
      let comp ← s.comp.set highComp (lowComp compU compV highComp)
      .ok { s with comp, change := true }
    else .ok s

/-- The loop `while (comp[n] != comp[comp[n]]) comp[n] = comp[comp[n]];`, for a bounded number of rounds. -/
def jump : Nat → PVector NodeID → NodeID → Result (PVector NodeID)
  | 0, _, _ => .error .hang
  | fuel + 1, comp, n => do
      let label ← comp.get n
      let next ← comp.get label
      if label = next then .ok comp
      else do
        let comp ← comp.set n next
        jump fuel comp n

variable [DecidableEq W]

def hookVertex (s : Components W) (n : NodeID) : Result (Components W) := do
  let (u, g) ← s.g.lookup n
  match u with
  | none => .ok { s with g }
  | some u => do
      let (_, neighbours, g) ← g.neighboursOf u []
      neighbours.foldlM (hookEdge n) { s with g }

def Components.rounds (loops : Loops) (numNodes limit : Nat) : Nat → Components W → Result (Components W)
  | 0, _ => .error .hang
  | fuel + 1, s => do
      let s ← (loops.order s.loopCount (List.range numNodes)).foldlM hookVertex { s with change := false }
      let comp ← (loops.order (s.loopCount + 1) (List.range numNodes)).foldlM (jump limit) s.comp
      let s := { s with comp, loopCount := s.loopCount + 2 }
      if s.change then s.rounds loops numNodes limit fuel else .ok s

def shiloachVishkin (loops : Loops) (fuel : Nat) (g : RadixGraph W) (numNodes : Nat) : Result (Components W) := do
  let comp ← (loops.order 0 (List.range numNodes)).foldlM (fun comp n => comp.set n n) (.new numNodes)
  Components.rounds loops numNodes fuel fuel { g, comp, change := true, loopCount := 1 }

end Radix.Analytics
