import Mathlib.Data.Rat.Defs
import Mathlib.Algebra.Field.Rat
import Radix.Analytics.Containers
import Radix.Analytics.Adjacency

/-!
# PageRank

`PageRankPull`, with its floats as rational numbers.
-/

namespace Radix.Analytics

open Lib RadixGraph

variable {W : Type} [Zero W]

def kDamp : ℚ := 17 / 20

structure Ranking (W : Type) [Zero W] where
  g : RadixGraph W
  scores : PVector ℚ
  outgoingContrib : PVector ℚ
  loopCount : Nat

def contribute (s : Ranking W × ℚ) (n : NodeID) : Result (Ranking W × ℚ) := do
  let (s, danglingSum) := s
  let (u, g) ← s.g.lookup n
  match u with
  | none => .ok ({ s with g }, danglingSum)
  | some u => do
      let outDegree ← g.snapshotDegOf u
      let score ← s.scores.get n
      if outDegree = 0 then .ok ({ s with g }, danglingSum + score)
      else do
        let outgoingContrib ← s.outgoingContrib.set n (score / outDegree)
        .ok ({ s with g, outgoingContrib }, danglingSum)

def receive (outgoingContrib : PVector ℚ) (incomingTotal : ℚ) (e : WeightedEdge W) : Result ℚ := do
  let idx ← index e.idx
  let contrib ← outgoingContrib.get idx
  .ok (incomingTotal + contrib)

variable [DecidableEq W]

def gather (baseScore danglingSum : ℚ) (s : Ranking W) (n : NodeID) : Result (Ranking W) := do
  let (u, g) ← s.g.lookup n
  match u with
  | none => .ok { s with g }
  | some u => do
      let (_, neighbours, g) ← g.neighboursOf u []
      let incomingTotal ← neighbours.foldlM (receive s.outgoingContrib) 0
      let scores ← s.scores.set n (baseScore + kDamp * (incomingTotal + danglingSum))
      .ok { s with g, scores }

def Ranking.iterate (loops : Loops) (numNodes : Nat) (s : Ranking W) : Result (Ranking W) := do
  let (s, danglingSum) ← (loops.order s.loopCount (List.range numNodes)).foldlM contribute (s, 0)
  let s ← (loops.order (s.loopCount + 1) (List.range numNodes)).foldlM
    (gather ((1 - kDamp) / numNodes) (danglingSum / numNodes)) s
  .ok { s with loopCount := s.loopCount + 2 }

def pageRankPull (loops : Loops) (g : RadixGraph W) (maxIters numNodes : Nat) : Result (Ranking W) :=
  (List.range maxIters).foldlM (fun s _ => s.iterate loops numNodes)
    { g, scores := .filled numNodes (1 / numNodes), outgoingContrib := .filled numNodes 0, loopCount := 0 }

end Radix.Analytics
