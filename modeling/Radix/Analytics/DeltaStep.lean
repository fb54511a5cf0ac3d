import Mathlib.Data.Rat.Floor
import Radix.Lib.Traced
import Radix.Analytics.Containers
import Radix.Analytics.Adjacency

/-!
# Shortest paths

`DeltaStep` on one thread, with its doubles as rational numbers. It reports the room that it demands of its
bins and of the frontier before it uses them.
-/

namespace Radix.Analytics

open Lib RadixGraph

def kDistInf : ℚ := (2 ^ 53 - 1) * 2 ^ 970

def kMaxBin : Nat := 2 ^ 63 - 1

def kBinSizeThreshold : Nat := 1000

inductive Demand where
  | bins (count : Nat)
  | cells (count : Nat)
  deriving DecidableEq

structure Room where
  maxBins : Nat
  numEdges : Nat

def Demand.Met (room : Room) : Demand → Prop
  | bins count => count ≤ room.maxBins
  | cells count => count ≤ room.numEdges

abbrev Demanding := Traced Fault Demand

structure Relaxation where
  g : RadixGraph ℚ
  dist : PVector ℚ
  localBins : List (List Nat)

/-- `if (dest_bin >= local_bins.size()) local_bins.resize(dest_bin + 1);`, which throws where a vector cannot be so
long. -/
def resizeBins (room : Room) (localBins : List (List Nat)) (destBin : Nat) : Demanding (List (List Nat)) :=
  if localBins.length ≤ destBin then do
    Traced.report [.bins (destBin + 1)]
    if destBin + 1 ≤ room.maxBins then pure (localBins ++ List.replicate (destBin + 1 - localBins.length) [])
    else Traced.fail .outOfBounds
  else pure localBins

def relaxEdge (room : Room) (delta : ℚ) (u : Nat) (s : Relaxation) (e : WeightedEdge ℚ) : Demanding Relaxation := do
  let vidx ← liftM (index e.idx)
  let oldDist ← liftM (s.dist.get vidx)
  let distU ← liftM (s.dist.get u)
  let newDist := distU + e.weight
  if newDist < oldDist then do
    let dist ← liftM (s.dist.set vidx newDist)
    let destBin := ⌊newDist / delta⌋₊
    let localBins ← resizeBins room s.localBins destBin
    pure { s with dist, localBins := localBins.modify destBin (· ++ [vidx]) }
  else pure s

def relaxEdges (room : Room) (delta : ℚ) (s : Relaxation) (u : Nat) : Demanding Relaxation := do
  let (_, neighbours, g) ← liftM (s.g.getNeighboursByOffset u [] maxTimestamp)
  neighbours.foldlM (relaxEdge room delta u) { s with g }

/-- `local_bins[i]`, empty beyond the last bin. -/
def bin (localBins : List (List Nat)) (i : Nat) : List Nat := localBins[i]?.getD []

def visit (room : Room) (delta : ℚ) (currBinIndex : Nat) (frontier : PVector Nat) (s : Relaxation) (i : Nat) :
    Demanding Relaxation := do
  let u ← liftM (frontier.get i)
  let distU ← liftM (s.dist.get u)
  if delta * currBinIndex ≤ distU then relaxEdges room delta s u else pure s

def fuse (room : Room) (delta : ℚ) (currBinIndex : Nat) : Nat → Relaxation → Demanding Relaxation
  | 0, _ => Traced.fail .hang
  | fuel + 1, s =>
      if currBinIndex < s.localBins.length ∧ bin s.localBins currBinIndex ≠ [] ∧
          (bin s.localBins currBinIndex).length < kBinSizeThreshold then do
        let currBinCopy := bin s.localBins currBinIndex
        let s ← currBinCopy.foldlM (relaxEdges room delta) { s with localBins := s.localBins.set currBinIndex [] }
        fuse room delta currBinIndex fuel s
      else pure s

def firstBin (localBins : List (List Nat)) (currBinIndex : Nat) : Option Nat :=
  (List.range' currBinIndex (localBins.length - currBinIndex)).find? fun i => bin localBins i ≠ []

def copyBin (frontier : PVector Nat) (copyStart : Nat) (vs : List Nat) : Result (PVector Nat) :=
  vs.zipIdx.foldlM (fun frontier (v, k) => frontier.set (copyStart + k) v) frontier

structure Stepping extends Relaxation where
  frontier : PVector Nat
  currBinIndex : Nat
  nextBinIndex : Nat
  currFrontierTail : Nat
  nextFrontierTail : Nat

namespace Stepping

/-- What follows the fused loop: the next bin is chosen and copied to the frontier. -/
def advance (s : Stepping) : Demanding Stepping := do
  let nextBinIndex := match firstBin s.localBins s.currBinIndex with
    | some i => min s.nextBinIndex i
    | none => s.nextBinIndex
  let s := { s with nextBinIndex, currBinIndex := kMaxBin, currFrontierTail := 0 }
  let s ←
    if s.nextBinIndex < s.localBins.length then do
      let chosen := bin s.localBins s.nextBinIndex
      let copyStart := s.nextFrontierTail
      Traced.report [.cells (copyStart + chosen.length)]
      let frontier ← liftM (copyBin s.frontier copyStart chosen)
      pure { s with frontier, nextFrontierTail := copyStart + chosen.length
                    localBins := s.localBins.set s.nextBinIndex [] }
    else pure s
  pure { s with currBinIndex := s.nextBinIndex, nextBinIndex := s.currBinIndex
                currFrontierTail := s.nextFrontierTail, nextFrontierTail := s.currFrontierTail }

def steps (room : Room) (delta : ℚ) : Nat → Stepping → Demanding Stepping
  | 0, _ => Traced.fail .hang
  | fuel + 1, s =>
      if s.currBinIndex = kMaxBin then pure s
      else do
        let r ← (List.range s.currFrontierTail).foldlM (visit room delta s.currBinIndex s.frontier) s.toRelaxation
        let r ← fuse room delta s.currBinIndex fuel r
        let s ← advance { s with toRelaxation := r }
        s.steps room delta fuel

end Stepping

def deltaStep (room : Room) (g : RadixGraph ℚ) (source : NodeID) (delta : ℚ) (numNodes fuel : Nat) :
    Demanding Stepping := do
  let (u, g) ← liftM (g.lookup source)
  match u with
  | none => Traced.fail .nullPointer
  | some u => do
      let v ← liftM (g.vertexIndex.vertexAt u)
      let uidx ← liftM (index v.idx)
      let dist ← liftM ((PVector.filled numNodes kDistInf).set uidx 0)
      let frontier ← liftM ((PVector.new room.numEdges : PVector Nat).set 0 uidx)
      Stepping.steps room delta fuel {
        g, dist, localBins := [], frontier
        currBinIndex := 0, nextBinIndex := kMaxBin, currFrontierTail := 1, nextFrontierTail := 0 }

end Radix.Analytics
