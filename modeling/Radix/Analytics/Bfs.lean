import Radix.Analytics.Containers
import Radix.Analytics.Adjacency

/-!
# Breadth-first search

`DOBFS` with its top-down and bottom-up steps. The 64-bit counters are integers: they stay far below their
range.
-/

namespace Radix.Analytics

open Lib RadixGraph

variable {W : Type} [Zero W]

/-! ## `BUStep` -/

def inFront (front : Bitmap) : List (WeightedEdge W) → Result (Option Nat)
  | [] => .ok none
  | e :: rest => do
      let vidx ← index e.idx
      let bit ← front.getBit vidx
      if bit then .ok (some vidx) else inFront front rest

structure BottomUp (W : Type) [Zero W] where
  g : RadixGraph W
  parent : PVector NodeID
  next : Bitmap
  awakeCount : Nat

variable [DecidableEq W]

def buVertex (front : Bitmap) (s : BottomUp W) (i : Nat) : Result (BottomUp W) := do
  let p ← s.parent.get i
  if p = NodeID.invalid then do
    let (_, neighbours, g) ← s.g.getNeighboursByOffset i [] maxTimestamp
    match ← inFront front neighbours with
    | none => .ok { s with g }
    | some vidx => do
        let parent ← s.parent.set i vidx
        let next ← s.next.setBit i
        .ok { g, parent, next, awakeCount := s.awakeCount + 1 }
  else .ok s

def buStep (loops : Loops) (t : Nat) (g : RadixGraph W) (parent : PVector NodeID) (front next : Bitmap)
    (vertexNum : Nat) : Result (BottomUp W) :=
  (loops.order t (List.range vertexNum)).foldlM (buVertex front)
    { g, parent, next := next.reset, awakeCount := 0 }

/-! ## `TDStep` -/

structure TopDown (W : Type) [Zero W] where
  g : RadixGraph W
  parent : PVector NodeID
  queue : SlidingQueue
  lqueue : QueueBuffer
  scoutCount : Int

def tdEdge (fromNodeId : NodeID) (s : TopDown W) (e : WeightedEdge W) : Result (TopDown W) := do
  let vidx ← index e.idx
  let currVal ← s.parent.get vidx
  if currVal = NodeID.invalid then do
    let parent ← s.parent.set vidx fromNodeId
    let (lqueue, queue) ← s.lqueue.pushBack s.queue vidx
    let deg ← s.g.snapshotDegOf vidx
    .ok { s with parent, queue, lqueue, scoutCount := s.scoutCount + deg }
  else .ok s

def tdVertex (s : TopDown W) (qIter : Nat) : Result (TopDown W) := do
  let fromNodeId ← s.queue.shared.get qIter
  let (_, neighbours, g) ← s.g.getNeighboursByOffset fromNodeId [] maxTimestamp
  neighbours.foldlM (tdEdge fromNodeId) { s with g }

def tdStep (loops : Loops) (t : Nat) (g : RadixGraph W) (parent : PVector NodeID) (queue : SlidingQueue) :
    Result (TopDown W) := do
  let s ← (loops.order t queue.window).foldlM tdVertex { g, parent, queue, lqueue := [], scoutCount := 0 }
  let queue ← s.lqueue.flush s.queue
  .ok { s with queue, lqueue := [] }

/-! ## Between the directions -/

def queueToBitmap (loops : Loops) (t : Nat) (queue : SlidingQueue) (bm : Bitmap) : Result Bitmap :=
  (loops.order t queue.window).foldlM (fun bm qIter => do
    let v ← queue.shared.get qIter
    bm.setBit v) bm

def collect (bm : Bitmap) (s : QueueBuffer × SlidingQueue) (n : Nat) : Result (QueueBuffer × SlidingQueue) := do
  let bit ← bm.getBit n
  if bit then s.1.pushBack s.2 n else .ok s

def bitmapToQueue (loops : Loops) (t : Nat) (vertexNum : Nat) (bm : Bitmap) (queue : SlidingQueue) :
    Result SlidingQueue := do
  let (lqueue, queue) ← (loops.order t (List.range vertexNum)).foldlM (collect bm) ([], queue)
  let queue ← QueueBuffer.flush lqueue queue
  .ok queue.slideWindow

def initParent (loops : Loops) (t : Nat) (vertexNum : Nat) : Result (PVector NodeID) :=
  (loops.order t (List.range vertexNum)).foldlM (fun parent n => parent.set n NodeID.invalid) (.new vertexNum)

/-! ## `DOBFS` -/

/-- The variables of `DOBFS`; `loopCount` counts the parallel loops begun. -/
structure Search (W : Type) [Zero W] where
  g : RadixGraph W
  parent : PVector NodeID
  queue : SlidingQueue
  curr : Bitmap
  front : Bitmap
  edgesToCheck : Int
  scoutCount : Int
  loopCount : Nat

namespace Search

def bottomUp (loops : Loops) (vertexNum : Nat) (beta : Int) : Nat → Search W → Nat → Result (Search W)
  | 0, _, _ => .error .hang
  | fuel + 1, s, oldAwakeCount => do
      let b ← buStep loops s.loopCount s.g s.parent s.front s.curr vertexNum
      -- `front.swap(curr)`
      let s := { s with g := b.g, parent := b.parent, front := b.next, curr := s.front,
                        loopCount := s.loopCount + 1 }
      if oldAwakeCount ≤ b.awakeCount ∨ (vertexNum : Int).tdiv beta < b.awakeCount then
        bottomUp loops vertexNum beta fuel s b.awakeCount
      else .ok s

/-- The loop `while (!queue.empty())`, for a bounded number of rounds. -/
def explore (loops : Loops) (vertexNum : Nat) (alpha beta : Int) (limit : Nat) : Nat → Search W → Result (Search W)
  | 0, _ => .error .hang
  | fuel + 1, s =>
      if s.queue.empty then .ok s
      else if s.edgesToCheck.tdiv alpha < s.scoutCount then do
        let front ← queueToBitmap loops s.loopCount s.queue s.front
        let awakeCount := s.queue.size
        let s := { s with front, queue := s.queue.slideWindow, loopCount := s.loopCount + 1 }
        let s ← s.bottomUp loops vertexNum beta limit awakeCount
        let queue ← bitmapToQueue loops s.loopCount vertexNum s.front s.queue
        explore loops vertexNum alpha beta limit fuel
          { s with queue, scoutCount := 1, loopCount := s.loopCount + 1 }
      else do
        let d ← tdStep loops s.loopCount s.g s.parent s.queue
        explore loops vertexNum alpha beta limit fuel
          { s with g := d.g, parent := d.parent, queue := d.queue.slideWindow,
                   edgesToCheck := s.edgesToCheck - s.scoutCount, scoutCount := d.scoutCount,
                   loopCount := s.loopCount + 1 }

end Search

omit [DecidableEq W] in
/-- `if (src_out_degree == -1) src_out_degree = u->next.load()->snapshot_deg.load();` -/
def outDegree (g : RadixGraph W) (u : Nat) (srcOutDegree : Int) : Result Int :=
  if srcOutDegree = -1 then do
    let deg ← g.snapshotDegOf u
    .ok deg
  else .ok srcOutDegree

def dobfs (loops : Loops) (fuel : Nat) (g : RadixGraph W) (source : NodeID) (vertexNum : Nat)
    (edgeNum srcOutDegree alpha beta : Int) : Result (Search W) := do
  let (u, g) ← g.lookup source
  match u with
  | none => .error .nullPointer
  | some u => do
      let v ← g.vertexIndex.vertexAt u
      let uidx ← index v.idx
      let srcOutDegree ← outDegree g u srcOutDegree
      let parent ← initParent loops 0 vertexNum
      let parent ← parent.set uidx uidx
      let queue ← (SlidingQueue.new vertexNum).pushBack uidx
      let s : Search W := {
        g, parent, queue := queue.slideWindow
        curr := (Bitmap.new vertexNum).reset, front := (Bitmap.new vertexNum).reset
        edgesToCheck := edgeNum, scoutCount := srcOutDegree, loopCount := 1 }
      s.explore loops vertexNum alpha beta fuel fuel

end Radix.Analytics
