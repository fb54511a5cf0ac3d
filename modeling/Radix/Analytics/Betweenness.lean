import Mathlib.Algebra.Field.Rat
import Mathlib.Data.Rat.Defs
import Radix.Analytics.Containers
import Radix.Analytics.Current

/-!
# Betweenness centrality

`PBFS` and `Brandes`, with their floats as rational numbers and not-a-number as `none`.
-/

namespace Radix.Analytics

open Lib RadixGraph

variable {W : Type} [Zero W]

def PVector.fill {α : Type} (v : PVector α) (a : α) : PVector α := .filled v.cells.length a

def SlidingQueue.reset (q : SlidingQueue) : SlidingQueue :=
  { q with sharedIn := 0, sharedOutStart := 0, sharedOutEnd := 0 }

/-! ## `PBFS` -/

structure PathCounting (W : Type) [Zero W] where
  g : RadixGraph W
  depths : PVector NodeID
  occurred : PVector Bool
  pathCounts : PVector ℚ
  succ : Bitmap
  queue : SlidingQueue
  lqueue : QueueBuffer

def discover (depth : NodeID) (s : PathCounting W) (v : Nat) : Result (PathCounting W) := do
  let current ← s.depths.get v
  if current = NodeID.invalid then do
    let depths ← s.depths.set v depth
    let seen ← s.occurred.get v
    let occurred ← s.occurred.set v true
    if seen then .ok { s with depths, occurred }
    else do
      let (lqueue, queue) ← s.lqueue.pushBack s.queue v
      .ok { s with depths, occurred, lqueue, queue }
  else .ok s

def countPaths (depth : NodeID) (u : NodeID) (s : PathCounting W) (e : WeightedEdge W) : Result (PathCounting W) := do
  let v ← index e.idx
  let s ← discover depth s v
  let current ← s.depths.get v
  if current = depth then do
    let succ ← s.succ.setBit v
    let into ← s.pathCounts.get v
    let from' ← s.pathCounts.get u
    let pathCounts ← s.pathCounts.set v (into + from')
    .ok { s with succ, pathCounts }
  else .ok s

variable [DecidableEq W]

def expandVertex (depth : NodeID) (s : PathCounting W) (qIter : Nat) : Result (PathCounting W) := do
  let u ← s.queue.shared.get qIter
  let (_, neighbours, g) ← s.g.getNeighboursByOffset (asInt u) [] maxTimestamp
  neighbours.foldlM (countPaths depth u) { s with g }

/-- The loop `while (!queue.empty())`, for a bounded number of rounds; `t` counts the parallel loops begun and
`depthIndex` holds offsets into the queue. -/
def levels (loops : Loops) : Nat → Nat → NodeID → List Nat → PathCounting W → Result (Nat × List Nat × PathCounting W)
  | 0, _, _, _, _ => .error .hang
  | fuel + 1, t, depth, depthIndex, s =>
      if s.queue.empty then .ok (t, depthIndex, s)
      else do
        let s ← (loops.order t s.queue.window).foldlM (expandVertex (depth + 1)) s
        let queue ← s.lqueue.flush s.queue
        levels loops fuel (t + 1) (depth + 1) (depthIndex ++ [queue.sharedOutStart])
          { s with queue := queue.slideWindow, lqueue := [] }

def pbfs (loops : Loops) (fuel t : Nat) (g : RadixGraph W) (source : NodeID) (pathCounts : PVector ℚ) (succ : Bitmap)
    (queue : SlidingQueue) (numNodes : Nat) : Result (Nat × List Nat × PathCounting W) := do
  let depths ← (PVector.filled numNodes NodeID.invalid).set source 0
  let pathCounts ← pathCounts.set source 1
  let queue ← queue.pushBack source
  let (t, depthIndex, s) ← levels loops fuel t 0 [queue.sharedOutStart]
    { g, depths, occurred := .filled numNodes false, pathCounts, succ, queue := queue.slideWindow, lqueue := [] }
  .ok (t, depthIndex ++ [s.queue.sharedOutStart], s)

/-! ## `Brandes` -/

structure Propagation (W : Type) [Zero W] where
  g : RadixGraph W
  deltas : PVector ℚ
  scores : PVector ℚ

omit [DecidableEq W] in
def share (pathCounts : PVector ℚ) (succ : Bitmap) (deltas : PVector ℚ) (u : NodeID) (deltaU : ℚ)
    (e : WeightedEdge W) : Result ℚ := do
  let v ← index e.idx
  let bit ← succ.getBit v
  if bit then do
    let from' ← pathCounts.get u
    let into ← pathCounts.get v
    let deltaV ← deltas.get v
    .ok (deltaU + from' / into * (1 + deltaV))
  else .ok deltaU

def propagate (pathCounts : PVector ℚ) (succ : Bitmap) (queue : SlidingQueue) (s : Propagation W) (it : Nat) :
    Result (Propagation W) := do
  let u ← queue.shared.get it
  let (_, gOutNeigh, g) ← s.g.getNeighboursByOffset (asInt u) [] maxTimestamp
  let deltaU ← gOutNeigh.foldlM (share pathCounts succ s.deltas u) 0
  let deltas ← s.deltas.set u deltaU
  let score ← s.scores.get u
  let scores ← s.scores.set u (score + deltaU)
  .ok { g, deltas, scores }

def propagateLevels (loops : Loops) (pathCounts : PVector ℚ) (succ : Bitmap) (queue : SlidingQueue)
    (depthIndex : List Nat) : Nat → Nat → Propagation W → Result (Nat × Propagation W)
  | 0, t, s => .ok (t, s)
  | d + 1, t, s =>
      match depthIndex[d]?, depthIndex[d + 1]? with
      | some start, some stop => do
          let s ← (loops.order t (List.range' start (stop - start))).foldlM (propagate pathCounts succ queue) s
          propagateLevels loops pathCounts succ queue depthIndex d (t + 1) s
      | _, _ => .error .outOfBounds

/-- The variables of `Brandes`; `loopCount` counts the parallel loops begun. -/
structure Brandes (W : Type) [Zero W] where
  g : RadixGraph W
  scores : PVector ℚ
  pathCounts : PVector ℚ
  succ : Bitmap
  queue : SlidingQueue
  loopCount : Nat

def Brandes.iterate (loops : Loops) (fuel numNodes : Nat) (b : Brandes W) (sp : NodeID) : Result (Brandes W) := do
  let source := sp % numNodes
  let (t, depthIndex, s) ← pbfs loops fuel b.loopCount b.g source (b.pathCounts.fill 0) b.succ.reset b.queue.reset numNodes
  let (t, p) ← propagateLevels loops s.pathCounts s.succ s.queue depthIndex (depthIndex.length - 1) t
    { g := s.g, deltas := .filled numNodes 0, scores := b.scores }
  .ok { g := p.g, scores := p.scores, pathCounts := s.pathCounts, succ := s.succ, queue := s.queue, loopCount := t }

def Brandes.iterations (loops : Loops) (fuel : Nat) (g : RadixGraph W) (numIters numNodes : Nat) : Result (Brandes W) :=
  (List.range numIters).foldlM (Brandes.iterate loops fuel numNodes)
    { g, scores := .filled numNodes 0, pathCounts := .new numNodes, succ := .new numNodes, queue := .new numNodes,
      loopCount := 0 }

omit [DecidableEq W] in
def quotient (x y : ℚ) : Option ℚ := if y = 0 then none else some (x / y)

omit [DecidableEq W] in
def normalize (loops : Loops) (t numNodes : Nat) (scores : PVector ℚ) : Result (PVector (Option ℚ)) := do
  let biggestScore ← (loops.order t (List.range numNodes)).foldlM (fun biggest n => do
    let score ← scores.get n
    .ok (max biggest score)) 0
  (loops.order (t + 1) (List.range numNodes)).foldlM (fun normalized n => do
    let score ← scores.get n
    normalized.set n (quotient score biggestScore)) (.new numNodes)

def brandes (loops : Loops) (fuel : Nat) (g : RadixGraph W) (numIters numNodes : Nat) :
    Result (PVector (Option ℚ)) := do
  let b ← Brandes.iterations loops fuel g numIters numNodes
  normalize loops b.loopCount numNodes b.scores

end Radix.Analytics
