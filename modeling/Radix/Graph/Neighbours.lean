import Radix.Graph.Compaction

/-!
# Reading the neighbours of a vertex

`RadixGraph::GetNeighbours(Vertex*, ...)`: choose a version, cut its log at the timestamp and list
the surviving entries, or copy the snapshot segment where no log entry is visible.
-/

namespace Radix

open Lib Lib.LastWrite

variable {W : Type} [Zero W]

def maxTimestamp : Int := 2147483647

theorem timestampAt_le (ticks : Nat) : GlobalInfo.timestampAt ticks ≤ maxTimestamp := by
  have := BitVec.toInt_lt (x := BitVec.ofNat 32 ticks)
  simp only [GlobalInfo.timestampAt, maxTimestamp]
  omega

def resize (neighbours : List (WeightedEdge W)) (n : Nat) : List (WeightedEdge W) :=
  neighbours.take n ++ List.replicate (n - neighbours.length) ({} : WeightedEdge W)

def copyOut (arr : WeightedEdgeArray W) :
    (i n : Nat) → List (WeightedEdge W) → Result (List (WeightedEdge W))
  | _, 0, neighbours => .ok neighbours
  | i, n + 1, neighbours => do
      let e ← arr.read i
      copyOut arr (i + 1) n (neighbours.set i e)

def copySnapshot (arr : WeightedEdgeArray W) (n : Nat) (neighbours : List (WeightedEdge W)) :
    Result (List (WeightedEdge W)) := copyOut arr 0 n (resize neighbours n)

/-- `for (int i = cnt - 1; i >= snapshot_deg; i--)` over the timestamps: the slot up to which the
array is read, and the snapshot segment where it is all that is visible. The argument counts the
log entries still to be tested. -/
def cutLog (arr : WeightedEdgeArray W) (timestamp : Int) :
    Nat → List (WeightedEdge W) → Result (Nat × List (WeightedEdge W))
  | 0, neighbours => .ok (arr.physicalSize, neighbours)
  | k + 1, neighbours => do
      let stamp ← arr.stamp k
      if stamp ≤ timestamp then .ok (arr.snapshotDeg + k + 1, neighbours)
      else if k = 0 then do
        let neighbours ← copySnapshot arr arr.snapshotDeg neighbours
        .ok (0, neighbours)
      else cutLog arr timestamp k neighbours

def visibleSlots (arr : WeightedEdgeArray W) (timestamp : Int) (neighbours : List (WeightedEdge W)) :
    Result (Nat × List (WeightedEdge W)) :=
  match arr.timestamp with
  | none => .ok (arr.physicalSize, neighbours)
  | some _ => cutLog arr timestamp (arr.physicalSize - arr.snapshotDeg) neighbours

/-- The part of `GetNeighbours` that reads the chosen version. -/
def readArray [DecidableEq W] (bitmap : SegmentedBitmap) (arr : WeightedEdgeArray W)
    (timestamp : Int) (neighbours : List (WeightedEdge W)) :
    Result (List (WeightedEdge W) × SegmentedBitmap) :=
  if arr.snapshotDeg < arr.physicalSize then do
    let (cnt, neighbours) ← visibleSlots arr timestamp neighbours
    let (neighbours, bitmap) ←
      backwardScan (fun acc e => .ok (acc ++ [e])) true arr cnt neighbours bitmap
    let bitmap ← clearMarks true arr arr.snapshotDeg (cnt - arr.snapshotDeg) bitmap
    .ok (neighbours, bitmap)
  else do
    let neighbours ← copySnapshot arr arr.physicalSize neighbours
    .ok (neighbours, bitmap)

/-- The version is old enough for the timestamp and its edges have not been freed. -/
def WeightedEdgeArray.readableAt (arr : WeightedEdgeArray W) (timestamp : Int) : Bool :=
  arr.snapshotTimestamp ≤ timestamp && arr.edge.isSome

def WeightedEdgeArray.acquire (arr : WeightedEdgeArray W) : WeightedEdgeArray W :=
  { arr with threadsRead := arr.threadsRead + 1 }

def WeightedEdgeArray.release (arr : WeightedEdgeArray W) : WeightedEdgeArray W :=
  { arr with threadsRead := arr.threadsRead - 1 }

/-- Leaving version `k` of the chain: an obsolete version without readers is deleted. -/
def leave (chain : List (WeightedEdgeArray W)) (k : Nat) : List (WeightedEdgeArray W) :=
  let chain := chain.modify k .release
  if chain[k]?.any (·.threadsRead = 0) ∧ k ≠ 0 then chain.eraseIdx k else chain

def getNeighboursOf [DecidableEq W] (info : GlobalInfo) (bitmap : SegmentedBitmap) (src : Vertex W)
    (neighbours : List (WeightedEdge W)) (timestamp : Int) :
    Result (Bool × List (WeightedEdge W) × Vertex W × SegmentedBitmap) :=
  match src.next.findIdx? (·.readableAt timestamp) with
  | none => .ok (false, neighbours, src, bitmap)
  | some k => do
      let chain := if info.isMixedWorkloads then src.next.modify k .acquire else src.next
      match chain[k]? with
      | none => .error .nullPointer
      | some next =>
          let (neighbours, bitmap) ← readArray bitmap next timestamp neighbours
          let chain := if info.isMixedWorkloads then leave chain k else chain
          .ok (true, neighbours, { src with next := chain }, bitmap)

/-! ## What is read -/

def visibleCount (timestamp : Int) (stamps : List Int) : Nat :=
  (stamps.reverse.dropWhile (timestamp < ·)).length

def visibleLog (timestamp : Int) (stamps : Option (List Int)) (log : List (WeightedEdge W)) :
    List (WeightedEdge W) :=
  match stamps with
  | none => log
  | some ts => log.take (visibleCount timestamp ts)

@[simp]
theorem visibleLog_nil (timestamp : Int) (stamps : Option (List Int)) :
    visibleLog timestamp stamps ([] : List (WeightedEdge W)) = [] := by
  cases stamps <;> simp [visibleLog]

def listed [DecidableEq W] (neighbours snap log : List (WeightedEdge W)) : List (WeightedEdge W) :=
  if log = [] then snap else neighbours ++ scan WeightedEdge.idx WeightedEdge.live snap log

theorem resize_length (neighbours : List (WeightedEdge W)) (n : Nat) :
    (resize neighbours n).length = n := by
  simp [resize]
  omega

theorem copyOut_spec (arr : WeightedEdgeArray W) (entries : List (WeightedEdge W))
    (pre post : List (WeightedEdge W)) (room : entries.length ≤ post.length)
    (readable : ∀ j e, entries[j]? = some e → arr.read (pre.length + j) = .ok e) :
    copyOut arr pre.length entries.length (pre ++ post) =
      .ok (pre ++ entries ++ post.drop entries.length) := by
  induction entries generalizing pre post with
  | nil => simp [copyOut]
  | cons e entries ih =>
      obtain ⟨old, post, rfl⟩ := List.exists_cons_of_length_pos (show 0 < post.length by
        simp only [List.length_cons] at room; omega)
      have here : arr.read pre.length = .ok e := readable 0 e rfl
      have next := ih (pre ++ [e]) post (by simpa using room)
        (fun j d at_j => by simpa [Nat.add_assoc, Nat.add_comm 1] using readable (j + 1) d at_j)
      simp only [copyOut, List.length_cons, here, ok_bind]
      simpa using next

theorem copySnapshot_spec {arr : WeightedEdgeArray W} {entries : List (WeightedEdge W)}
    (readable : Readable arr entries) (neighbours : List (WeightedEdge W)) :
    copySnapshot arr entries.length neighbours = .ok entries := by
  have length := resize_length neighbours entries.length
  have copied := copyOut_spec arr entries [] (resize neighbours entries.length) length.ge
    (fun j e at_j => by simpa using readable j e at_j)
  simpa [copySnapshot, List.drop_eq_nil_of_le length.le] using copied

theorem Laid.stamp {arr : WeightedEdgeArray W} {snap log : List (WeightedEdge W)} {ts : List Int}
    (laid : Laid arr snap log (some ts)) {k : Nat} {t : Int} (at_k : ts[k]? = some t) :
    arr.stamp k = .ok t := by
  obtain ⟨inside, rfl⟩ := List.getElem?_eq_some_iff.mp at_k
  simp [WeightedEdgeArray.stamp, laid.timestamp, List.getElem?_append_left, inside]

theorem visibleCount_snoc (timestamp : Int) (stamps : List Int) (stamp : Int) :
    visibleCount timestamp (stamps ++ [stamp]) =
      if stamp ≤ timestamp then stamps.length + 1 else visibleCount timestamp stamps := by
  by_cases old : stamp ≤ timestamp
  · simp [visibleCount, old, Int.not_lt.mpr old]
  · simp [visibleCount, old, Int.not_le.mp old]

theorem visibleCount_le (timestamp : Int) (stamps : List Int) :
    visibleCount timestamp stamps ≤ stamps.length := by
  have shorter := (List.dropWhile_suffix (timestamp < ·) (l := stamps.reverse)).length_le
  rwa [List.length_reverse] at shorter

theorem cutLog_spec {arr : WeightedEdgeArray W} {snap log : List (WeightedEdge W)} {ts : List Int}
    (laid : Laid arr snap log (some ts)) (timestamp : Int) (neighbours : List (WeightedEdge W))
    {k : Nat} (inside : k < ts.length) :
    cutLog arr timestamp (k + 1) neighbours =
      .ok (if visibleCount timestamp (ts.take (k + 1)) = 0 then (0, snap)
        else (snap.length + visibleCount timestamp (ts.take (k + 1)), neighbours)) := by
  induction k with
  | zero =>
      have first : ts.take 1 = [] ++ [ts[0]] := by
        rw [List.take_one, List.head?_eq_getElem?, List.getElem?_eq_getElem inside]
        rfl
      rw [cutLog, laid.stamp (List.getElem?_eq_getElem inside), ok_bind, first, visibleCount_snoc]
      by_cases old : ts[0] ≤ timestamp
      · simp [old, laid.snapshotDeg]
      · have copied := copySnapshot_spec laid.readable.left neighbours
        simp [old, laid.snapshotDeg, copied, visibleCount]
  | succ k ih =>
      have last : ts.take (k + 1 + 1) = ts.take (k + 1) ++ [ts[k + 1]] := by
        rw [List.take_add_one, List.getElem?_eq_getElem inside]
        rfl
      have length : (ts.take (k + 1)).length = k + 1 := List.length_take_of_le (by omega)
      rw [cutLog, laid.stamp (List.getElem?_eq_getElem inside), ok_bind, last, visibleCount_snoc,
        length]
      by_cases old : ts[k + 1] ≤ timestamp
      · simp [old, laid.snapshotDeg, Nat.add_assoc]
      · simp [old, ih (by omega)]

theorem visibleSlots_spec {arr : WeightedEdgeArray W} {snap log : List (WeightedEdge W)}
    {stamps : Option (List Int)} (laid : Laid arr snap log stamps) (some_log : log ≠ [])
    (timestamp : Int) (neighbours : List (WeightedEdge W)) :
    visibleSlots arr timestamp neighbours =
      .ok (if visibleLog timestamp stamps log = [] then (0, snap)
        else (snap.length + (visibleLog timestamp stamps log).length, neighbours)) := by
  have positive : 0 < log.length := List.length_pos_iff.mpr some_log
  cases stamps with
  | none => simp [visibleSlots, laid.timestamp, visibleLog, some_log, laid.physicalSize]
  | some ts =>
      have lengths := laid.stamped ts rfl
      have slots : arr.physicalSize - arr.snapshotDeg = ts.length - 1 + 1 := by
        rw [laid.physicalSize, laid.snapshotDeg]
        omega
      have cut := cutLog_spec laid timestamp neighbours (k := ts.length - 1) (by omega)
      have all : ts.take (ts.length - 1 + 1) = ts := List.take_of_length_le (by omega)
      have short : visibleCount timestamp ts ≤ log.length := lengths ▸ visibleCount_le timestamp ts
      rw [all] at cut
      simp only [visibleSlots, laid.timestamp, Option.map_some, slots, cut, visibleLog,
        List.take_eq_nil_iff, some_log, or_false, List.length_take, Nat.min_eq_left short]

theorem visibleLog_of_le {stamps : Option (List Int)} {log : List (WeightedEdge W)}
    (length : ∀ ts, stamps = some ts → ts.length = log.length) {timestamp : Int}
    (late : ∀ ts, stamps = some ts → ∀ s ∈ ts, s ≤ timestamp) : visibleLog timestamp stamps log = log := by
  cases stamps with
  | none => rfl
  | some ts =>
      have none_hidden : ts.reverse.dropWhile (timestamp < ·) = ts.reverse := by
        cases newest : ts.reverse with
        | nil => rfl
        | cons s older =>
            have := late ts rfl s (List.mem_reverse.mp (by simp [newest]))
            exact List.dropWhile_cons_of_neg (by simpa using this)
      rw [visibleLog, visibleCount, none_hidden, List.length_reverse, length ts rfl, List.take_length]

theorem visibleLog_prefix (timestamp : Int) (stamps : Option (List Int))
    (log : List (WeightedEdge W)) : ∃ later, log = visibleLog timestamp stamps log ++ later := by
  cases stamps with
  | none => exact ⟨[], by simp [visibleLog]⟩
  | some ts => exact ⟨_, (List.take_append_drop _ log).symm⟩

variable [DecidableEq W]

theorem readArray_spec {arr : WeightedEdgeArray W} {snap log : List (WeightedEdge W)}
    {stamps : Option (List Int)} (laid : Laid arr snap log stamps) {bitmap : SegmentedBitmap}
    (clean : bitmap.Clean) (timestamp : Int) (neighbours : List (WeightedEdge W)) :
    ∃ bitmap', readArray bitmap arr timestamp neighbours =
        .ok (listed neighbours snap (visibleLog timestamp stamps log), bitmap') ∧ bitmap'.Clean := by
  by_cases no_log : log = []
  · subst no_log
    have copied := copySnapshot_spec laid.readable.left neighbours
    refine ⟨bitmap, ?_, clean⟩
    simp [readArray, laid.physicalSize, laid.snapshotDeg, copied, listed]
  · have positive : 0 < log.length := List.length_pos_iff.mpr no_log
    have more : arr.snapshotDeg < arr.physicalSize := by
      rw [laid.physicalSize, laid.snapshotDeg]
      omega
    have slots := visibleSlots_spec laid no_log timestamp neighbours
    obtain ⟨later, split⟩ := visibleLog_prefix timestamp stamps log
    generalize visibleLog timestamp stamps log = visible at slots split
    rw [readArray, if_pos more, slots, ok_bind]
    by_cases hidden : visible = []
    · exact ⟨bitmap, by simp [hidden, backwardScan, clearMarks, listed], clean⟩
    · have readable := laid.readable
      have indexed := laid.indexed
      rw [split, ← List.append_assoc] at readable indexed
      have pushes (acc out : List (WeightedEdge W)) (e : WeightedEdge W) (held : acc = neighbours ++ out) :
          ∃ acc', (.ok (acc ++ [e]) : Result _) = .ok acc' ∧ acc' = neighbours ++ (out ++ [e]) :=
        ⟨_, rfl, by simp [held]⟩
      obtain ⟨acc, bitmap₁, bitmap₂, walked, rfl, cleared, clean₂⟩ :=
        backwardScan_spec (fun acc out => acc = neighbours ++ out) true
          pushes laid.snapshotDeg readable.left indexed.left (show neighbours = neighbours ++ [] by simp) clean
      refine ⟨bitmap₂, ?_, clean₂⟩
      simp only [if_neg hidden, walked, ok_bind, laid.snapshotDeg, Nat.add_sub_cancel_left, cleared,
        listed, List.nil_append]

end Radix
