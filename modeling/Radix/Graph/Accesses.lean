import Radix.Graph.Actions
import Radix.Lib.Traced

/-!
# The operations with their accesses to edge arrays

The functions of the graph that read or write an edge array, once more and with a report of every
access to `edge[i]` and `timestamp[k]`. Without the reports they are the functions of the model.
-/

namespace Radix

open Lib

inductive Access (W : Type) [Zero W] where
  /-- A read of `edge[i]` of an array that a vertex points to. -/
  | load (arr : WeightedEdgeArray W) (i : Nat)
  /-- A read of `edge[i]` of the target of `LogCompaction`, which holds `num` edges. -/
  | loadTarget (num : Nat) (arr : WeightedEdgeArray W) (i : Nat)
  | store (arr : WeightedEdgeArray W) (i : Nat)
  /-- A read or a write of `timestamp[k]`. -/
  | stamp (arr : WeightedEdgeArray W) (k : Int)

abbrev Tracing (W : Type) [Zero W] := Traced Fault (Access W)

namespace Tracing

open Traced

variable {W : Type} [Zero W]

def read (load : WeightedEdgeArray W → Nat → Access W) (arr : WeightedEdgeArray W) (i : Nat) :
    Tracing W (WeightedEdge W) := do
  report [load arr i]
  arr.read i

def store (arr : WeightedEdgeArray W) (i : Nat) (e : WeightedEdge W) :
    Tracing W (WeightedEdgeArray W) := do
  report [.store arr i]
  arr.store i e

/-! ## Compaction -/

def copyEdges (load : WeightedEdgeArray W → Nat → Access W) (src dst : WeightedEdgeArray W) :
    (i n : Nat) → Tracing W (WeightedEdgeArray W)
  | _, 0 => pure dst
  | i, n + 1 => do
      let e ← read load src i
      let dst ← store dst i e
      copyEdges load src dst (i + 1) n

def pushCompacted : WeightedEdgeArray W × Nat → WeightedEdge W → Tracing W (WeightedEdgeArray W × Nat)
  | (newArr, num), e => do
      let newArr ←
        if newArr.cap ≤ num then copyEdges (.loadTarget num) newArr (.new (num + 8)) 0 num
        else pure newArr
      let newArr ← store newArr num { weight := e.weight, idx := e.idx }
      pure (newArr, num + 1)

def clearMarks (skipUnwritten : Bool) (arr : WeightedEdgeArray W) :
    (i n : Nat) → SegmentedBitmap → Tracing W SegmentedBitmap
  | _, 0, bitmap => pure bitmap
  | i, n + 1, bitmap => do
      let e ← read .load arr i
      if skipUnwritten ∧ e.idx = -1 then clearMarks skipUnwritten arr (i + 1) n bitmap
      else do
        let bit ← e.bit
        clearMarks skipUnwritten arr (i + 1) n (bitmap.clearBit bit)

def backwardScan [DecidableEq W] {σ : Type} (push : σ → WeightedEdge W → Tracing W σ) (skipUnwritten : Bool)
    (arr : WeightedEdgeArray W) : Nat → σ → SegmentedBitmap → Tracing W (σ × SegmentedBitmap)
  | 0, acc, bitmap => pure (acc, bitmap)
  | i + 1, acc, bitmap => do
      let e ← read .load arr i
      if skipUnwritten ∧ e.idx = -1 then backwardScan push skipUnwritten arr i acc bitmap
      else do
        let bit ← e.bit
        if bitmap.getBit bit then backwardScan push skipUnwritten arr i acc bitmap
        else do
          let acc ← if e.live then push acc e else pure acc
          backwardScan push skipUnwritten arr i acc
            (if arr.snapshotDeg ≤ i then bitmap.setBit bit else bitmap)

def compactEdges [DecidableEq W] (bitmap : SegmentedBitmap) (oldArr newArr : WeightedEdgeArray W) :
    Tracing W ((WeightedEdgeArray W × Nat) × SegmentedBitmap) :=
  if (oldArr.physicalSize : Int) = oldArr.deg then do
    let newArr ← copyEdges .load oldArr newArr 0 oldArr.physicalSize
    pure ((newArr, oldArr.physicalSize), bitmap)
  else do
    let (acc, bitmap) ← backwardScan pushCompacted false oldArr oldArr.physicalSize (newArr, 0) bitmap
    let bitmap ←
      clearMarks false oldArr oldArr.snapshotDeg (oldArr.physicalSize - oldArr.snapshotDeg) bitmap
    pure (acc, bitmap)

def logCompaction [DecidableEq W] (info : GlobalInfo) (bitmap : SegmentedBitmap)
    (oldArr newArr : WeightedEdgeArray W) :
    Tracing W (WeightedEdgeArray W × SegmentedBitmap × GlobalInfo) := do
  let ((newArr, num), bitmap) ← compactEdges bitmap oldArr newArr
  let newArr := { newArr with size := num, snapshotDeg := num, deg := num, physicalSize := num }
  let newArr :=
    if info.isMixedWorkloads then
      { newArr with timestamp := some (List.replicate (newArr.cap - num) none) }
    else newArr
  pure ({ newArr with snapshotTimestamp := info.globalTimestamp }, bitmap, info.tick)

/-! ## Insert -/

def expand [DecidableEq W] (P : Platform W) (expandRate : ℚ) (info : GlobalInfo)
    (bitmap : SegmentedBitmap) :
    List (WeightedEdgeArray W) → Tracing W (List (WeightedEdgeArray W) × SegmentedBitmap × GlobalInfo)
  | [] => fail .nullPointer
  | next :: older =>
      if next.physicalSize ≠ next.cap then fail .hang
      else do
        let deg := (max next.deg 0).toNat
        let newArray := .new (P.capacity deg expandRate (next.size - next.cap + 1))
        let (newArray, bitmap, info) ← logCompaction info bitmap next newArray
        pure (newArray :: retire next older, bitmap, info)

def claimSlot [DecidableEq W] (P : Platform W) (expandRate : ℚ) :
    Nat → GlobalInfo → SegmentedBitmap → List (WeightedEdgeArray W) →
      Tracing W (Nat × List (WeightedEdgeArray W) × SegmentedBitmap × GlobalInfo)
  | 0, _, _, _ => fail .hang
  | _ + 1, _, _, [] => fail .nullPointer
  | rounds + 1, info, bitmap, next :: older => do
      let i := next.size
      let chain := next.claim :: older
      if i < next.cap then pure (i, chain, bitmap, info)
      else do
        let (chain, bitmap, info) ← expand P expandRate info bitmap chain
        claimSlot P expandRate rounds info bitmap chain

def stampSlot (next : WeightedEdgeArray W) (info : GlobalInfo) (i : Nat) :
    Tracing W (WeightedEdgeArray W × GlobalInfo) :=
  if next.timestamp.isNone then pure (next, info)
  else do
    report [.stamp next ((i : Int) - next.snapshotDeg)]
    Radix.stampSlot next info i

def insert [DecidableEq W] (P : Platform W) (expandRate : ℚ) (info : GlobalInfo)
    (bitmap : SegmentedBitmap) (src : Vertex W) (des : Int) (weight : W) (deltaDeg : Int) :
    Tracing W (Vertex W × SegmentedBitmap × GlobalInfo) := do
  let (i, chain, bitmap, info) ← claimSlot P expandRate insertRounds info bitmap src.next
  match chain with
  | [] => fail .nullPointer
  | next :: older => do
      let (next, info) ← stampSlot next info i
      let next := { next with deg := next.deg + deltaDeg }
      let next ← store next i { weight := weight, idx := des }
      let next := { next with physicalSize := next.physicalSize + 1 }
      pure ({ src with next := next :: older }, bitmap, info)

/-! ## GetNeighbours -/

def copyOut (arr : WeightedEdgeArray W) :
    (i n : Nat) → List (WeightedEdge W) → Tracing W (List (WeightedEdge W))
  | _, 0, neighbours => pure neighbours
  | i, n + 1, neighbours => do
      let e ← read .load arr i
      copyOut arr (i + 1) n (neighbours.set i e)

def copySnapshot (arr : WeightedEdgeArray W) (n : Nat) (neighbours : List (WeightedEdge W)) :
    Tracing W (List (WeightedEdge W)) := copyOut arr 0 n (resize neighbours n)

def cutLog (arr : WeightedEdgeArray W) (timestamp : Int) :
    Nat → List (WeightedEdge W) → Tracing W (Nat × List (WeightedEdge W))
  | 0, neighbours => pure (arr.physicalSize, neighbours)
  | k + 1, neighbours => do
      report [.stamp arr k]
      let stamp ← arr.stamp k
      if stamp ≤ timestamp then pure (arr.snapshotDeg + k + 1, neighbours)
      else if k = 0 then do
        let neighbours ← copySnapshot arr arr.snapshotDeg neighbours
        pure (0, neighbours)
      else cutLog arr timestamp k neighbours

def visibleSlots (arr : WeightedEdgeArray W) (timestamp : Int) (neighbours : List (WeightedEdge W)) :
    Tracing W (Nat × List (WeightedEdge W)) :=
  match arr.timestamp with
  | none => pure (arr.physicalSize, neighbours)
  | some _ => cutLog arr timestamp (arr.physicalSize - arr.snapshotDeg) neighbours

variable [DecidableEq W]

def readArray (bitmap : SegmentedBitmap) (arr : WeightedEdgeArray W) (timestamp : Int)
    (neighbours : List (WeightedEdge W)) : Tracing W (List (WeightedEdge W) × SegmentedBitmap) :=
  if arr.snapshotDeg < arr.physicalSize then do
    let (cnt, neighbours) ← visibleSlots arr timestamp neighbours
    let (neighbours, bitmap) ←
      backwardScan (fun acc e => pure (acc ++ [e])) true arr cnt neighbours bitmap
    let bitmap ← clearMarks true arr arr.snapshotDeg (cnt - arr.snapshotDeg) bitmap
    pure (neighbours, bitmap)
  else do
    let neighbours ← copySnapshot arr arr.physicalSize neighbours
    pure (neighbours, bitmap)

def getNeighboursOf (info : GlobalInfo) (bitmap : SegmentedBitmap) (src : Vertex W)
    (neighbours : List (WeightedEdge W)) (timestamp : Int) :
    Tracing W (Bool × List (WeightedEdge W) × Vertex W × SegmentedBitmap) :=
  match src.next.findIdx? (·.readableAt timestamp) with
  | none => pure (false, neighbours, src, bitmap)
  | some k => do
      let chain := if info.isMixedWorkloads then src.next.modify k .acquire else src.next
      match chain[k]? with
      | none => fail .nullPointer
      | some next =>
          let (neighbours, bitmap) ← readArray bitmap next timestamp neighbours
          let chain := if info.isMixedWorkloads then leave chain k else chain
          pure (true, neighbours, { src with next := chain }, bitmap)

/-! ## The graph -/

def insertAt (P : Platform W) (g : RadixGraph W) (k : Nat) (des : Int) (weight : W) (deltaDeg : Int) :
    Tracing W (RadixGraph W) := do
  let src ← g.vertexIndex.vertexAt k
  let (src, bitmap, info) ← insert P g.expandRate g.global g.bitmap src des weight deltaDeg
  pure { g with vertexIndex := g.vertexIndex.setVertex k src, bitmap := bitmap, global := info }

def insertEdge (P : Platform W) (g : RadixGraph W) (src des : NodeID) (weight : W) :
    Tracing W (Bool × RadixGraph W) := do
  let (k, g) ← g.enterVertex src
  let (l, g) ← g.enterVertex des
  let desVertex ← g.vertexIndex.vertexAt l
  let g ← insertAt P g k desVertex.idx weight 1
  pure (true, g)

def logEdge (P : Platform W) (g : RadixGraph W) (src des : NodeID) (weight : W) (deltaDeg : Int) :
    Tracing W (Bool × RadixGraph W) := do
  let (srcVertex, g) ← g.liveVertex src
  match srcVertex with
  | none => pure (false, g)
  | some (k, _) => do
      let (desVertex, g) ← g.liveVertex des
      match desVertex with
      | none => pure (false, g)
      | some (_, desVertex) => do
          let g ← insertAt P g k desVertex.idx weight deltaDeg
          pure (true, g)

def neighboursAt (g : RadixGraph W) (k : Nat) (neighbours : List (WeightedEdge W)) (timestamp : Int) :
    Tracing W (Bool × List (WeightedEdge W) × RadixGraph W) := do
  let src ← g.vertexIndex.vertexAt k
  if src.delTime ≠ -1 ∧ src.delTime ≤ timestamp then pure (false, neighbours, g)
  else do
    let (found, neighbours, src, bitmap) ← getNeighboursOf g.global g.bitmap src neighbours timestamp
    pure (found, neighbours, { g with vertexIndex := g.vertexIndex.setVertex k src, bitmap := bitmap })

def getNeighbours (g : RadixGraph W) (src : NodeID) (neighbours : List (WeightedEdge W))
    (timestamp : Int) : Tracing W (Bool × List (WeightedEdge W) × RadixGraph W) := do
  let (ptr, index) ← g.vertexIndex.retrieveVertex g.global src false
  let g := { g with vertexIndex := index }
  match ptr with
  | .empty => pure (false, neighbours, g)
  | .leaf k => neighboursAt g k neighbours timestamp
  | .node _ => fail .badPointer

def getNeighboursByOffset (g : RadixGraph W) (src : Int) (neighbours : List (WeightedEdge W))
    (timestamp : Int) : Tracing W (Bool × List (WeightedEdge W) × RadixGraph W) :=
  if (g.vertexIndex.cnt : Int) ≤ src then pure (false, neighbours, g)
  else if src < 0 then fail .outOfBounds
  else neighboursAt g src.toNat neighbours timestamp

/-- `std::sort` reads and writes within `[edge, edge + physical_size)`. -/
def sortEdges (P : Platform W) (sortNeighbours : Bool) (arr : WeightedEdgeArray W) :
    Tracing W (WeightedEdgeArray W) := do
  if sortNeighbours ∧ 1 < arr.physicalSize then
    report ((List.range arr.physicalSize).flatMap fun i => [.load arr i, .store arr i])
  pure (RadixGraph.sortEdges P sortNeighbours arr)

def snapshotVertex (P : Platform W) (sortNeighbours makeDense : Bool) (g : RadixGraph W) (i : Nat) :
    Tracing W (RadixGraph W) := do
  let src ← g.vertexIndex.vertexAt i
  match src.next with
  | [] => fail .nullPointer
  | next :: older => do
      let newArray := RadixGraph.snapshotArray P g.expandRate makeDense next.deg
      let (newArray, bitmap, info) ← logCompaction g.global g.bitmap next newArray
      let newArray ← sortEdges P sortNeighbours newArray
      pure { g with
        vertexIndex := g.vertexIndex.setVertex i { src with next := newArray :: older }
        bitmap := bitmap
        global := info }

def createSnapshots (P : Platform W) (g : RadixGraph W) (sortNeighbours makeDense : Bool) :
    Tracing W (RadixGraph W) := do
  let g ← (P.order g.global g.vertexIndex.cnt).foldlM (snapshotVertex P sortNeighbours makeDense) g
  pure { g with isSorted := sortNeighbours }

def act (P : Platform W) (g : RadixGraph W) : RadixGraph.Action W → Tracing W (RadixGraph W)
  | .op (.insertEdge src des weight) => do
      let (_, g) ← insertEdge P g src des weight
      pure g
  | .op (.updateEdge src des weight) => do
      let (_, g) ← logEdge P g src des weight 0
      pure g
  | .op (.deleteEdge src des) => do
      let (_, g) ← logEdge P g src des 0 (-1)
      pure g
  | .op (.createSnapshots sortNeighbours makeDense) => createSnapshots P g sortNeighbours makeDense
  | .op (.setExpandRate ratio) => pure (g.setExpandRate ratio)
  | .op .getGlobalTimestamp => pure g.getGlobalTimestamp.2
  | .op (.getNeighbours src timestamp) => do
      let (_, _, g) ← getNeighbours g src [] timestamp
      pure g
  | .deleteVertex id => do
      let (_, g) ← g.deleteVertex id
      pure g
  | .getNeighboursByOffset src timestamp => do
      let (_, _, g) ← getNeighboursByOffset g src [] timestamp
      pure g

def actions (P : Platform W) (g : RadixGraph W) (acts : List (RadixGraph.Action W)) :
    Tracing W (RadixGraph W) := acts.foldlM (act P) g

/-! ## Without the reports -/

omit [DecidableEq W] in
@[simp]
theorem read_result (load : WeightedEdgeArray W → Nat → Access W) (arr : WeightedEdgeArray W) (i : Nat) :
    (read load arr i).result = arr.read i := rfl

omit [DecidableEq W] in
@[simp]
theorem store_result (arr : WeightedEdgeArray W) (i : Nat) (e : WeightedEdge W) :
    (store arr i e).result = arr.store i e := rfl

omit [DecidableEq W] in
@[simp]
theorem copyEdges_result (load : WeightedEdgeArray W → Nat → Access W) (src dst : WeightedEdgeArray W)
    (i n : Nat) : (copyEdges load src dst i n).result = Radix.copyEdges src dst i n := by
  induction n generalizing dst i with
  | zero => rfl
  | succ n ih => simp [copyEdges, Radix.copyEdges, ih]

omit [DecidableEq W] in
@[simp]
theorem pushCompacted_result (acc : WeightedEdgeArray W × Nat) (e : WeightedEdge W) :
    (pushCompacted acc e).result = Radix.pushCompacted acc e := by
  obtain ⟨newArr, num⟩ := acc
  simp only [pushCompacted, Radix.pushCompacted]
  split <;> simp

omit [DecidableEq W] in
@[simp]
theorem clearMarks_result (skipUnwritten : Bool) (arr : WeightedEdgeArray W) (i n : Nat)
    (bitmap : SegmentedBitmap) :
    (clearMarks skipUnwritten arr i n bitmap).result = Radix.clearMarks skipUnwritten arr i n bitmap := by
  induction n generalizing i bitmap with
  | zero => rfl
  | succ n ih =>
      simp only [clearMarks, Radix.clearMarks, bind_result, read_result]
      congr 1
      funext e
      split
      · exact ih (i + 1) bitmap
      · simp [ih]

theorem backwardScan_result {σ : Type} {push : σ → WeightedEdge W → Tracing W σ}
    {plain : σ → WeightedEdge W → Result σ} (same : ∀ acc e, (push acc e).result = plain acc e)
    (skipUnwritten : Bool) (arr : WeightedEdgeArray W) (n : Nat) (acc : σ) (bitmap : SegmentedBitmap) :
    (backwardScan push skipUnwritten arr n acc bitmap).result =
      Radix.backwardScan plain skipUnwritten arr n acc bitmap := by
  induction n generalizing acc bitmap with
  | zero => rfl
  | succ i ih =>
      simp only [backwardScan, Radix.backwardScan, bind_result, read_result]
      congr 1
      funext e
      split
      · exact ih acc bitmap
      · simp only [bind_result, liftM_result]
        congr 1
        funext bit
        split
        · exact ih acc bitmap
        · simp only [pushLive]
          split <;> simp [same, ih]

@[simp]
theorem compactEdges_result (bitmap : SegmentedBitmap) (oldArr newArr : WeightedEdgeArray W) :
    (compactEdges bitmap oldArr newArr).result = Radix.compactEdges bitmap oldArr newArr := by
  simp only [compactEdges, Radix.compactEdges]
  split <;> simp [backwardScan_result pushCompacted_result]

@[simp]
theorem logCompaction_result (info : GlobalInfo) (bitmap : SegmentedBitmap)
    (oldArr newArr : WeightedEdgeArray W) :
    (logCompaction info bitmap oldArr newArr).result = Radix.logCompaction info bitmap oldArr newArr := by
  simp only [logCompaction, Radix.logCompaction, bind_result, compactEdges_result]
  rfl

@[simp]
theorem expand_result (P : Platform W) (expandRate : ℚ) (info : GlobalInfo) (bitmap : SegmentedBitmap)
    (chain : List (WeightedEdgeArray W)) :
    (expand P expandRate info bitmap chain).result = Radix.expand P expandRate info bitmap chain := by
  cases chain with
  | nil => rfl
  | cons next older =>
      simp only [expand, Radix.expand]
      split
      · rfl
      · simp

@[simp]
theorem claimSlot_result (P : Platform W) (expandRate : ℚ) (rounds : Nat) (info : GlobalInfo)
    (bitmap : SegmentedBitmap) (chain : List (WeightedEdgeArray W)) :
    (claimSlot P expandRate rounds info bitmap chain).result =
      Radix.claimSlot P expandRate rounds info bitmap chain := by
  induction rounds generalizing info bitmap chain with
  | zero => rfl
  | succ rounds ih =>
      cases chain with
      | nil => rfl
      | cons next older =>
          simp only [claimSlot, Radix.claimSlot]
          split
          · rfl
          · simp [ih]

omit [DecidableEq W] in
@[simp]
theorem stampSlot_result (next : WeightedEdgeArray W) (info : GlobalInfo) (i : Nat) :
    (stampSlot next info i).result = Radix.stampSlot next info i := by
  rw [stampSlot]
  split
  · simp [Radix.stampSlot, *]
  · simp

@[simp]
theorem insert_result (P : Platform W) (expandRate : ℚ) (info : GlobalInfo) (bitmap : SegmentedBitmap)
    (src : Vertex W) (des : Int) (weight : W) (deltaDeg : Int) :
    (insert P expandRate info bitmap src des weight deltaDeg).result =
      Radix.insert P expandRate info bitmap src des weight deltaDeg := by
  simp only [insert, Radix.insert, bind_result, claimSlot_result]
  congr 1
  funext r
  obtain ⟨i, chain, bitmap, info⟩ := r
  cases chain <;> simp

omit [DecidableEq W] in
@[simp]
theorem copyOut_result (arr : WeightedEdgeArray W) (i n : Nat) (neighbours : List (WeightedEdge W)) :
    (copyOut arr i n neighbours).result = Radix.copyOut arr i n neighbours := by
  induction n generalizing i neighbours with
  | zero => rfl
  | succ n ih => simp [copyOut, Radix.copyOut, ih]

omit [DecidableEq W] in
@[simp]
theorem cutLog_result (arr : WeightedEdgeArray W) (timestamp : Int) (n : Nat)
    (neighbours : List (WeightedEdge W)) :
    (cutLog arr timestamp n neighbours).result = Radix.cutLog arr timestamp n neighbours := by
  induction n with
  | zero => rfl
  | succ k ih =>
      simp only [cutLog, Radix.cutLog, bind_result, report_result, liftM_result, ok_bind]
      congr 1
      funext stamp
      split
      · rfl
      · split
        · simp [copySnapshot, Radix.copySnapshot]
        · exact ih

omit [DecidableEq W] in
@[simp]
theorem visibleSlots_result (arr : WeightedEdgeArray W) (timestamp : Int) (neighbours : List (WeightedEdge W)) :
    (visibleSlots arr timestamp neighbours).result = Radix.visibleSlots arr timestamp neighbours := by
  rw [visibleSlots, Radix.visibleSlots]
  cases arr.timestamp <;> simp

@[simp]
theorem readArray_result (bitmap : SegmentedBitmap) (arr : WeightedEdgeArray W) (timestamp : Int)
    (neighbours : List (WeightedEdge W)) :
    (readArray bitmap arr timestamp neighbours).result =
      Radix.readArray bitmap arr timestamp neighbours := by
  have pushes (acc : List (WeightedEdge W)) (e : WeightedEdge W) :
      (pure (acc ++ [e]) : Tracing W _).result = .ok (acc ++ [e]) := rfl
  simp only [readArray, Radix.readArray]
  split
  · simp [backwardScan_result pushes]
  · simp [copySnapshot, Radix.copySnapshot]

@[simp]
theorem getNeighboursOf_result (info : GlobalInfo) (bitmap : SegmentedBitmap) (src : Vertex W)
    (neighbours : List (WeightedEdge W)) (timestamp : Int) :
    (getNeighboursOf info bitmap src neighbours timestamp).result =
      Radix.getNeighboursOf info bitmap src neighbours timestamp := by
  rw [getNeighboursOf, Radix.getNeighboursOf]
  cases src.next.findIdx? (·.readableAt timestamp) with
  | none => rfl
  | some k =>
      simp only
      cases (if info.isMixedWorkloads then src.next.modify k .acquire else src.next)[k]? <;> simp

@[simp]
theorem insertAt_result (P : Platform W) (g : RadixGraph W) (k : Nat) (des : Int) (weight : W)
    (deltaDeg : Int) : (insertAt P g k des weight deltaDeg).result = g.insertAt P k des weight deltaDeg := by
  simp [insertAt, RadixGraph.insertAt]

@[simp]
theorem insertEdge_result (P : Platform W) (g : RadixGraph W) (src des : NodeID) (weight : W) :
    (insertEdge P g src des weight).result = g.insertEdge P src des weight := by
  simp [insertEdge, RadixGraph.insertEdge]

@[simp]
theorem logEdge_result (P : Platform W) (g : RadixGraph W) (src des : NodeID) (weight : W) (deltaDeg : Int) :
    (logEdge P g src des weight deltaDeg).result = g.logEdge P src des weight deltaDeg := by
  simp only [logEdge, RadixGraph.logEdge, bind_result, liftM_result]
  congr 1
  funext r
  obtain ⟨source, g⟩ := r
  cases source with
  | none => rfl
  | some source =>
      simp only [bind_result, liftM_result]
      congr 1
      funext r
      obtain ⟨target, g⟩ := r
      cases target <;> simp

@[simp]
theorem neighboursAt_result (g : RadixGraph W) (k : Nat) (neighbours : List (WeightedEdge W)) (timestamp : Int) :
    (neighboursAt g k neighbours timestamp).result = g.neighboursAt k neighbours timestamp := by
  simp only [neighboursAt, RadixGraph.neighboursAt, bind_result, liftM_result]
  congr 1
  funext v
  split <;> simp

@[simp]
theorem getNeighbours_result (g : RadixGraph W) (src : NodeID) (neighbours : List (WeightedEdge W))
    (timestamp : Int) :
    (getNeighbours g src neighbours timestamp).result = g.getNeighbours src neighbours timestamp := by
  simp only [getNeighbours, RadixGraph.getNeighbours, bind_result, liftM_result]
  congr 1
  funext r
  obtain ⟨ptr, index⟩ := r
  cases ptr <;> simp

@[simp]
theorem getNeighboursByOffset_result (g : RadixGraph W) (src : Int) (neighbours : List (WeightedEdge W))
    (timestamp : Int) : (getNeighboursByOffset g src neighbours timestamp).result =
      g.getNeighboursByOffset src neighbours timestamp := by
  rw [getNeighboursByOffset, RadixGraph.getNeighboursByOffset]
  split
  · rfl
  · split <;> simp

omit [DecidableEq W] in
@[simp]
theorem sortEdges_result (P : Platform W) (sortNeighbours : Bool) (arr : WeightedEdgeArray W) :
    (sortEdges P sortNeighbours arr).result = .ok (RadixGraph.sortEdges P sortNeighbours arr) := by
  simp only [sortEdges]
  split <;> simp

@[simp]
theorem snapshotVertex_result (P : Platform W) (sortNeighbours makeDense : Bool) (g : RadixGraph W) (i : Nat) :
    (snapshotVertex P sortNeighbours makeDense g i).result =
      RadixGraph.snapshotVertex P sortNeighbours makeDense g i := by
  simp only [snapshotVertex, RadixGraph.snapshotVertex, bind_result, liftM_result]
  congr 1
  funext v
  cases v.next <;> simp

@[simp]
theorem createSnapshots_result (P : Platform W) (g : RadixGraph W) (sortNeighbours makeDense : Bool) :
    (createSnapshots P g sortNeighbours makeDense).result =
      g.createSnapshots P sortNeighbours makeDense := by
  simp [createSnapshots, RadixGraph.createSnapshots,
    foldlM_result (snapshotVertex_result P sortNeighbours makeDense)]

@[simp]
theorem act_result (P : Platform W) (g : RadixGraph W) (action : RadixGraph.Action W) :
    (act P g action).result = RadixGraph.act P g action := by
  cases action with
  | op op => cases op <;> simp [act, RadixGraph.act, RadixGraph.perform, RadixGraph.updateEdge, RadixGraph.deleteEdge]
  | deleteVertex id => simp [act, RadixGraph.act]
  | getNeighboursByOffset src timestamp => simp [act, RadixGraph.act]

theorem actions_result (P : Platform W) (g : RadixGraph W) (acts : List (RadixGraph.Action W)) :
    (actions P g acts).result = RadixGraph.actions P g acts := foldlM_result (act_result P) g acts

end Tracing

end Radix
