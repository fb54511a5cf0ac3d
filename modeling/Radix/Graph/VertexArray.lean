import Radix.Graph.Deletion

/-!
# The graph over a plain vertex array

`vertex_array.cpp`, and `RadixGraph` compiled over it in place of the tree: a record lies at its id.
-/

namespace Radix

structure VertexArray (W : Type) [Zero W] where
  vertexTable : List (Vertex W)
  /-- Set to 0 by its own constructor; nothing in the class writes it. -/
  cnt : Nat := 0

namespace VertexArray

variable {W : Type} [Zero W]

def new (n : Nat) : VertexArray W where
  vertexTable := List.replicate n {}

def vertexAt (t : VertexArray W) (k : Nat) : Result (Vertex W) :=
  match t.vertexTable[k]? with
  | none => .error .outOfBounds
  | some v => .ok v

def setVertex (t : VertexArray W) (k : Nat) (v : Vertex W) : VertexArray W :=
  { t with vertexTable := t.vertexTable.set k v }

def checkExistence (t : VertexArray W) (id : NodeID) : Result Bool := do
  let v ← t.vertexAt id
  .ok (v.idx ≠ -1)

/-- The stores to a record that is used for the first time; no timestamp array is made. -/
def newVertex (v : Vertex W) (id : NodeID) : Vertex W :=
  { v with next := [.new 8], node := id, idx := id }

def retrieveVertex (t : VertexArray W) (id : NodeID) (insertMode : Bool) :
    Result (Option Nat × VertexArray W) := do
  let v ← t.vertexAt id
  if v.idx = -1 then
    if insertMode then .ok (some id, t.setVertex id (newVertex v id)) else .ok (none, t)
  else .ok (some id, t)

def deleteVertex (info : GlobalInfo) (t : VertexArray W) (id : NodeID) : Result (Bool × VertexArray W) := do
  let (tmp, t) ← t.retrieveVertex id false
  match tmp with
  | none => .ok (false, t)
  | some k => do
      let v ← t.vertexAt k
      .ok (true, t.setVertex k { v with delTime := info.globalTimestamp })

end VertexArray

/-- `RadixGraph` with `USE_SORT` and `USE_ART` set to 0. -/
structure ArrayGraph (W : Type) [Zero W] where
  global : GlobalInfo
  vertexIndex : VertexArray W
  bitmap : SegmentedBitmap
  isSorted : Bool := false
  expandRate : ℚ := 2

namespace ArrayGraph

variable {W : Type} [Zero W]

/-! ## Vertices -/

def liveVertex (g : ArrayGraph W) (id : NodeID) : Result (Option (Nat × Vertex W) × ArrayGraph W) := do
  let (ptr, index) ← g.vertexIndex.retrieveVertex id false
  let g := { g with vertexIndex := index }
  match ptr with
  | none => .ok (none, g)
  | some k => do
      let v ← index.vertexAt k
      .ok (if v.delTime ≠ -1 then none else some (k, v), g)

def getInternalID (g : ArrayGraph W) (id : NodeID) : Result Int := do
  let (v, _) ← g.liveVertex id
  match v with
  | none => .ok (-1)
  | some (_, v) => .ok v.idx

def getExternalID (g : ArrayGraph W) (offset : Int) : Result NodeID :=
  if (g.vertexIndex.cnt : Int) ≤ offset then .ok NodeID.invalid
  else if offset < 0 then .error .outOfBounds
  else do
    let v ← g.vertexIndex.vertexAt offset.toNat
    .ok v.node

def deleteVertex (g : ArrayGraph W) (id : NodeID) : Result (Bool × ArrayGraph W) := do
  let (found, index) ← g.vertexIndex.deleteVertex g.global id
  .ok (found, { g with vertexIndex := index })

/-! ## Writing edges -/

variable [DecidableEq W]

def insertAt (P : Platform W) (g : ArrayGraph W) (k : Nat) (des : Int) (weight : W)
    (deltaDeg : Int) : Result (ArrayGraph W) := do
  let src ← g.vertexIndex.vertexAt k
  let (src, bitmap, info) ← insert P g.expandRate g.global g.bitmap src des weight deltaDeg
  .ok { g with vertexIndex := g.vertexIndex.setVertex k src, bitmap := bitmap, global := info }

def enterVertex (g : ArrayGraph W) (id : NodeID) : Result (Nat × ArrayGraph W) := do
  let (ptr, index) ← g.vertexIndex.retrieveVertex id true
  match ptr with
  | none => .error .nullPointer
  | some k => .ok (k, { g with vertexIndex := index })

def insertEdge (P : Platform W) (g : ArrayGraph W) (src des : NodeID) (weight : W) :
    Result (Bool × ArrayGraph W) := do
  let (k, g) ← g.enterVertex src
  let (l, g) ← g.enterVertex des
  let desVertex ← g.vertexIndex.vertexAt l
  let g ← g.insertAt P k desVertex.idx weight 1
  .ok (true, g)

/-- The common text of `UpdateEdge` and `DeleteEdge`. -/
def logEdge (P : Platform W) (g : ArrayGraph W) (src des : NodeID) (weight : W) (deltaDeg : Int) :
    Result (Bool × ArrayGraph W) := do
  let (srcVertex, g) ← g.liveVertex src
  match srcVertex with
  | none => .ok (false, g)
  | some (k, _) => do
      let (desVertex, g) ← g.liveVertex des
      match desVertex with
      | none => .ok (false, g)
      | some (_, desVertex) => do
          let g ← g.insertAt P k desVertex.idx weight deltaDeg
          .ok (true, g)

def updateEdge (P : Platform W) (g : ArrayGraph W) (src des : NodeID) (weight : W) :
    Result (Bool × ArrayGraph W) := g.logEdge P src des weight 0

def deleteEdge (P : Platform W) (g : ArrayGraph W) (src des : NodeID) :
    Result (Bool × ArrayGraph W) := g.logEdge P src des 0 (-1)

/-! ## Reading edges -/

def neighboursAt (g : ArrayGraph W) (k : Nat) (neighbours : List (WeightedEdge W)) (timestamp : Int) :
    Result (Bool × List (WeightedEdge W) × ArrayGraph W) := do
  let src ← g.vertexIndex.vertexAt k
  if src.delTime ≠ -1 ∧ src.delTime ≤ timestamp then .ok (false, neighbours, g)
  else do
    let (found, neighbours, src, bitmap) ←
      getNeighboursOf g.global g.bitmap src neighbours timestamp
    .ok (found, neighbours,
      { g with vertexIndex := g.vertexIndex.setVertex k src, bitmap := bitmap })

def getNeighbours (g : ArrayGraph W) (src : NodeID) (neighbours : List (WeightedEdge W))
    (timestamp : Int) : Result (Bool × List (WeightedEdge W) × ArrayGraph W) := do
  let (ptr, index) ← g.vertexIndex.retrieveVertex src false
  let g := { g with vertexIndex := index }
  match ptr with
  | none => .ok (false, neighbours, g)
  | some k => g.neighboursAt k neighbours timestamp

def getNeighboursByOffset (g : ArrayGraph W) (src : Int) (neighbours : List (WeightedEdge W))
    (timestamp : Int) : Result (Bool × List (WeightedEdge W) × ArrayGraph W) :=
  if (g.vertexIndex.cnt : Int) ≤ src then .ok (false, neighbours, g)
  else if src < 0 then .error .outOfBounds
  else g.neighboursAt src.toNat neighbours timestamp

/-! ## Snapshots -/

def snapshotVertex (P : Platform W) (sortNeighbours makeDense : Bool) (g : ArrayGraph W) (i : Nat) :
    Result (ArrayGraph W) := do
  let src ← g.vertexIndex.vertexAt i
  match src.next with
  | [] => .error .nullPointer
  | next :: older => do
      let newArray := RadixGraph.snapshotArray P g.expandRate makeDense next.deg
      let (newArray, bitmap, info) ← logCompaction g.global g.bitmap next newArray
      let newArray := RadixGraph.sortEdges P sortNeighbours newArray
      .ok { g with
        vertexIndex := g.vertexIndex.setVertex i { src with next := newArray :: older }
        bitmap := bitmap
        global := info }

def createSnapshots (P : Platform W) (g : ArrayGraph W) (sortNeighbours makeDense : Bool) :
    Result (ArrayGraph W) := do
  let g ← (P.order g.global g.vertexIndex.cnt).foldlM (snapshotVertex P sortNeighbours makeDense) g
  .ok { g with isSorted := sortNeighbours }

/-- What the constructor makes, with room for the ids up to `maxVertexID`. -/
def construct (global : GlobalInfo) (maxVertexID L : Nat) (positive : 0 < L) : ArrayGraph W where
  global := global
  vertexIndex := .new (maxVertexID + 1)
  bitmap := (SegmentedBitmap.new L 0 positive).reset

end ArrayGraph

end Radix
