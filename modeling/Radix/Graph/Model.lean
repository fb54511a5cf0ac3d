import Radix.Graph.Insert
import Radix.Sort.Dictionary

/-!
# The graph

`RadixGraph` for one caller at a time. All scratch bitmaps are clean between operations, so one of
them stands for those of all threads. The iterations of the parallel loop of `CreateSnapshots` touch
different vertices and meet only in the timestamps they draw, in an order left open.
-/

namespace Radix

open Lib

structure RadixGraph (W : Type) [Zero W] where
  global : GlobalInfo
  vertexIndex : SORT W
  bitmap : SegmentedBitmap
  isSorted : Bool := false
  expandRate : ℚ := 2

namespace RadixGraph

variable {W : Type} [Zero W]

/-! ## Vertices -/

/-- `RetrieveVertex(id)`, and null where the vertex has been deleted. -/
def liveVertex (g : RadixGraph W) (id : NodeID) : Result (Option (Nat × Vertex W) × RadixGraph W) := do
  let (ptr, index) ← g.vertexIndex.retrieveVertex g.global id false
  let g := { g with vertexIndex := index }
  match ptr with
  | .empty => .ok (none, g)
  | .leaf k => do
      let v ← index.vertexAt k
      .ok (if v.delTime ≠ -1 then none else some (k, v), g)
  | .node _ => .error .badPointer

def getInternalID (g : RadixGraph W) (id : NodeID) : Result Int := do
  let (v, _) ← g.liveVertex id
  match v with
  | none => .ok (-1)
  | some (_, v) => .ok v.idx

/-- `GetExternalID(int offset)`, and for an edge `GetExternalID` of its `idx`. -/
def getExternalID (g : RadixGraph W) (offset : Int) : Result NodeID :=
  if (g.vertexIndex.cnt : Int) ≤ offset then .ok NodeID.invalid
  else if offset < 0 then .error .outOfBounds
  else do
    let v ← g.vertexIndex.vertexAt offset.toNat
    .ok v.node

def getNumVertices (g : RadixGraph W) : Nat := g.vertexIndex.cnt

/-! ## Writing edges -/

variable [DecidableEq W]

/-- `Insert(src, des->idx, weight, delta_deg)` for the record `k` as the source. -/
def insertAt (P : Platform W) (g : RadixGraph W) (k : Nat) (des : Int) (weight : W)
    (deltaDeg : Int) : Result (RadixGraph W) := do
  let src ← g.vertexIndex.vertexAt k
  let (src, bitmap, info) ← insert P g.expandRate g.global g.bitmap src des weight deltaDeg
  .ok { g with vertexIndex := g.vertexIndex.setVertex k src, bitmap := bitmap, global := info }

/-- `RetrieveVertex(id, true)`, a record. -/
def enterVertex (g : RadixGraph W) (id : NodeID) : Result (Nat × RadixGraph W) := do
  let (ptr, index) ← g.vertexIndex.retrieveVertex g.global id true
  match ptr with
  | .empty => .error .nullPointer
  | .leaf k => .ok (k, { g with vertexIndex := index })
  | .node _ => .error .badPointer

def insertEdge (P : Platform W) (g : RadixGraph W) (src des : NodeID) (weight : W) :
    Result (Bool × RadixGraph W) := do
  let (k, g) ← g.enterVertex src
  let (l, g) ← g.enterVertex des
  let desVertex ← g.vertexIndex.vertexAt l
  let g ← g.insertAt P k desVertex.idx weight 1
  .ok (true, g)

/-- The common text of `UpdateEdge` and `DeleteEdge`. -/
def logEdge (P : Platform W) (g : RadixGraph W) (src des : NodeID) (weight : W) (deltaDeg : Int) :
    Result (Bool × RadixGraph W) := do
  let (srcVertex, g) ← g.liveVertex src
  match srcVertex with
  | none => .ok (false, g)
  | some (k, _) => do
      let (desVertex, g) ← g.liveVertex des
      match desVertex with
      | none => .ok (false, g)
      | some (_, desVertex) => do
          let g ← g.insertAt P k desVertex.idx weight deltaDeg
          .ok (true, g)

def updateEdge (P : Platform W) (g : RadixGraph W) (src des : NodeID) (weight : W) :
    Result (Bool × RadixGraph W) := g.logEdge P src des weight 0

def deleteEdge (P : Platform W) (g : RadixGraph W) (src des : NodeID) :
    Result (Bool × RadixGraph W) := g.logEdge P src des 0 (-1)

/-! ## Reading edges -/

def neighboursAt (g : RadixGraph W) (k : Nat) (neighbours : List (WeightedEdge W)) (timestamp : Int) :
    Result (Bool × List (WeightedEdge W) × RadixGraph W) := do
  let src ← g.vertexIndex.vertexAt k
  if src.delTime ≠ -1 ∧ src.delTime ≤ timestamp then .ok (false, neighbours, g)
  else do
    let (found, neighbours, src, bitmap) ←
      getNeighboursOf g.global g.bitmap src neighbours timestamp
    .ok (found, neighbours,
      { g with vertexIndex := g.vertexIndex.setVertex k src, bitmap := bitmap })

def getNeighbours (g : RadixGraph W) (src : NodeID) (neighbours : List (WeightedEdge W))
    (timestamp : Int) : Result (Bool × List (WeightedEdge W) × RadixGraph W) := do
  let (ptr, index) ← g.vertexIndex.retrieveVertex g.global src false
  let g := { g with vertexIndex := index }
  match ptr with
  | .empty => .ok (false, neighbours, g)
  | .leaf k => g.neighboursAt k neighbours timestamp
  | .node _ => .error .badPointer

def getNeighboursByOffset (g : RadixGraph W) (src : Int) (neighbours : List (WeightedEdge W))
    (timestamp : Int) : Result (Bool × List (WeightedEdge W) × RadixGraph W) :=
  if (g.vertexIndex.cnt : Int) ≤ src then .ok (false, neighbours, g)
  else if src < 0 then .error .outOfBounds
  else g.neighboursAt src.toNat neighbours timestamp

/-! ## Settings and snapshots -/

def setExpandRate (g : RadixGraph W) (ratio : ℚ) : RadixGraph W :=
  if 1 < ratio then { g with expandRate := ratio } else g

def getGlobalTimestamp (g : RadixGraph W) : Int × RadixGraph W :=
  (g.global.globalTimestamp, { g with global := g.global.tick })

def sortEdges (P : Platform W) (sortNeighbours : Bool) (arr : WeightedEdgeArray W) :
    WeightedEdgeArray W :=
  if sortNeighbours ∧ 1 < arr.physicalSize then
    let sorted (edges : List (WeightedEdge W)) :=
      P.sort (edges.take arr.physicalSize) ++ edges.drop arr.physicalSize
    { arr with edge := arr.edge.map sorted }
  else arr

/-- `new WeightedEdgeArray(deg)` or `new WeightedEdgeArray(deg * expand_rate + 8)`. -/
def snapshotArray (P : Platform W) (expandRate : ℚ) (makeDense : Bool) (deg : Int) :
    WeightedEdgeArray W :=
  let deg := (max deg 0).toNat
  .new (if makeDense then deg else P.snapshotCapacity deg expandRate)

/-- The body of the loop of `CreateSnapshots`: the old version is deleted and leaves the chain. -/
def snapshotVertex (P : Platform W) (sortNeighbours makeDense : Bool) (g : RadixGraph W) (i : Nat) :
    Result (RadixGraph W) := do
  let src ← g.vertexIndex.vertexAt i
  match src.next with
  | [] => .error .nullPointer
  | next :: older => do
      let newArray := snapshotArray P g.expandRate makeDense next.deg
      let (newArray, bitmap, info) ← logCompaction g.global g.bitmap next newArray
      let newArray := sortEdges P sortNeighbours newArray
      .ok { g with
        vertexIndex := g.vertexIndex.setVertex i { src with next := newArray :: older }
        bitmap := bitmap
        global := info }

def createSnapshots (P : Platform W) (g : RadixGraph W) (sortNeighbours makeDense : Bool) :
    Result (RadixGraph W) := do
  let g ← (P.order g.global g.vertexIndex.cnt).foldlM (snapshotVertex P sortNeighbours makeDense) g
  .ok { g with isSorted := sortNeighbours }

/-! ## Runs -/

inductive Op (W : Type) where
  | insertEdge (src des : NodeID) (weight : W)
  | updateEdge (src des : NodeID) (weight : W)
  | deleteEdge (src des : NodeID)
  | createSnapshots (sortNeighbours makeDense : Bool)
  | setExpandRate (ratio : ℚ)
  | getGlobalTimestamp
  | getNeighbours (src : NodeID) (timestamp : Int)
  deriving DecidableEq

def perform (P : Platform W) (g : RadixGraph W) : Op W → Result (RadixGraph W)
  | .insertEdge src des weight => do
      let (_, g) ← g.insertEdge P src des weight
      .ok g
  | .updateEdge src des weight => do
      let (_, g) ← g.updateEdge P src des weight
      .ok g
  | .deleteEdge src des => do
      let (_, g) ← g.deleteEdge P src des
      .ok g
  | .createSnapshots sortNeighbours makeDense => g.createSnapshots P sortNeighbours makeDense
  | .setExpandRate ratio => .ok (g.setExpandRate ratio)
  | .getGlobalTimestamp => .ok g.getGlobalTimestamp.2
  | .getNeighbours src timestamp => do
      let (_, _, g) ← g.getNeighbours src [] timestamp
      .ok g

def switchToMixed (g : RadixGraph W) : RadixGraph W :=
  { g with global := { g.global with isMixedWorkloads := true } }

def fresh (global : GlobalInfo) (vertexIndex : SORT W) (bitmap : SegmentedBitmap) : RadixGraph W where
  global := global
  vertexIndex := vertexIndex
  bitmap := bitmap

/-- What the constructors make of a vertex index and the segment length `L` of the bitmaps. -/
def construct (global : GlobalInfo) (vertexIndex : SORT W) (L : Nat) (positive : 0 < L) : RadixGraph W :=
  fresh global vertexIndex (SegmentedBitmap.new L 0 positive).reset

def run (P : Platform W) (g : RadixGraph W) (ops : List (Op W)) : Result (RadixGraph W) :=
  ops.foldlM (perform P) g

end RadixGraph

end Radix
