import Radix.Graph.Neighbours
import Radix.Lib.Memory

/-!
# Log compaction through pointers

`LogCompaction` gets two pointers and may replace the second: when its estimate was too low, it allocates a
larger array in the middle of the scan and deletes the first target. It agrees with the compaction of
values, and writes to no other array.
-/

namespace Radix

open Lib Lib.LastWrite

variable {W : Type} [Zero W]

def arrayAt (m : Memory (WeightedEdgeArray W)) (a : Address) : Result (WeightedEdgeArray W) :=
  match m.load a with
  | none => .error .badPointer
  | some arr => .ok arr

def copyEdgesIn (src dst : Address) :
    (i n : Nat) → Memory (WeightedEdgeArray W) → Result (Memory (WeightedEdgeArray W))
  | _, 0, m => .ok m
  | i, n + 1, m => do
      let source ← arrayAt m src
      let e ← source.read i
      let target ← arrayAt m dst
      let target ← target.store i e
      copyEdgesIn src dst (i + 1) n (m.store dst target)

/-- `new_arr->edge[num++] = e`, where `new_arr` may become a pointer to a larger array. -/
def pushCompactedIn : Memory (WeightedEdgeArray W) × Address × Nat → WeightedEdge W →
    Result (Memory (WeightedEdgeArray W) × Address × Nat)
  | (m, newArr, num), e => do
      let target ← arrayAt m newArr
      let (m, newArr) ←
        if target.cap ≤ num then do
          let tmp := newArr
          let (m, newArr) := m.alloc (.new (num + 8))
          let m ← copyEdgesIn tmp newArr 0 num m
          .ok (m.delete tmp, newArr)
        else .ok (m, newArr)
      let target ← arrayAt m newArr
      let target ← target.store num { weight := e.weight, idx := e.idx }
      .ok (m.store newArr target, newArr, num + 1)

def scanIn [DecidableEq W] (oldArr : Address) :
    Nat → Memory (WeightedEdgeArray W) × Address × Nat → SegmentedBitmap →
      Result ((Memory (WeightedEdgeArray W) × Address × Nat) × SegmentedBitmap)
  | 0, acc, bitmap => .ok (acc, bitmap)
  | i + 1, acc, bitmap => do
      let arr ← arrayAt acc.1 oldArr
      let e ← arr.read i
      let bit ← e.bit
      if bitmap.getBit bit then scanIn oldArr i acc bitmap
      else do
        let acc ← pushLive pushCompactedIn acc e
        let arr ← arrayAt acc.1 oldArr
        scanIn oldArr i acc (if arr.snapshotDeg ≤ i then bitmap.setBit bit else bitmap)

/-- `LogCompaction(old_arr, new_arr)`: the memory afterwards and the returned pointer. -/
def logCompactionIn [DecidableEq W] (info : GlobalInfo) (bitmap : SegmentedBitmap)
    (m : Memory (WeightedEdgeArray W)) (oldArr newArr : Address) :
    Result ((Memory (WeightedEdgeArray W) × Address) × SegmentedBitmap × GlobalInfo) := do
  let arr ← arrayAt m oldArr
  let ((m, newArr, num), bitmap) ←
    if (arr.physicalSize : Int) = arr.deg then do
      let m ← copyEdgesIn oldArr newArr 0 arr.physicalSize m
      .ok ((m, newArr, arr.physicalSize), bitmap)
    else do
      let (acc, bitmap) ← scanIn oldArr arr.physicalSize (m, newArr, 0) bitmap
      let arr ← arrayAt acc.1 oldArr
      let bitmap ← clearMarks false arr arr.snapshotDeg (arr.physicalSize - arr.snapshotDeg) bitmap
      .ok (acc, bitmap)
  let target ← arrayAt m newArr
  let target := { target with size := num, snapshotDeg := num, deg := num, physicalSize := num }
  let target :=
    if info.isMixedWorkloads then
      { target with timestamp := some (List.replicate (target.cap - num) none) }
    else target
  .ok ((m.store newArr { target with snapshotTimestamp := info.globalTimestamp }, newArr), bitmap, info.tick)

/-! ## Agreement with the compaction of values -/

@[simp] theorem arrayAt_eq_ok {m : Memory (WeightedEdgeArray W)} {a : Address} {arr : WeightedEdgeArray W} :
    arrayAt m a = .ok arr ↔ m.load a = some arr := by
  rw [arrayAt]
  cases m.load a <;> simp

theorem copyEdgesIn_eq {src dst : Address} (apart : src ≠ dst) {source : WeightedEdgeArray W} (i n : Nat)
    {m : Memory (WeightedEdgeArray W)} {target target' : WeightedEdgeArray W} (from_src : m.load src = some source)
    (at_dst : m.load dst = some target) (copied : copyEdges source target i n = .ok target') :
    ∃ m', copyEdgesIn src dst i n m = .ok m' ∧ m'.load dst = some target' ∧
      ∀ a, a ≠ dst → m'.load a = m.load a := by
  induction n generalizing i m target with
  | zero =>
      obtain rfl := Except.ok.inj copied
      exact ⟨m, rfl, at_dst, fun _ _ => rfl⟩
  | succ n ih =>
      simp only [copyEdges, bind_eq_ok] at copied
      obtain ⟨e, read, stored, store, copied⟩ := copied
      obtain ⟨m', ran, final, others⟩ := ih (i + 1) (m := m.store dst stored)
        ((Memory.load_store_other apart).trans from_src) (Memory.load_store_same at_dst) copied
      refine ⟨m', ?_, final, fun a other => (others a other).trans (Memory.load_store_other other)⟩
      simp only [copyEdgesIn, arrayAt_eq_ok.mpr from_src, arrayAt_eq_ok.mpr at_dst, ok_bind, read, store, ran]

structure Targets (oldArr : Address) (old : WeightedEdgeArray W)
    (acc : Memory (WeightedEdgeArray W) × Address × Nat) (value : WeightedEdgeArray W × Nat) : Prop where
  target : acc.1.load acc.2.1 = some value.1
  count : acc.2.2 = value.2
  apart : oldArr ≠ acc.2.1
  kept : acc.1.load oldArr = some old

theorem Targets.store {oldArr newArr : Address} {old arr : WeightedEdgeArray W} {m : Memory (WeightedEdgeArray W)}
    {num : Nat} (targets : Targets oldArr old (m, newArr, num) (arr, num)) (arr' : WeightedEdgeArray W) (num' : Nat) :
    Targets oldArr old (m.store newArr arr', newArr, num') (arr', num') :=
  ⟨Memory.load_store_same targets.target, rfl, targets.apart,
    (Memory.load_store_other targets.apart).trans targets.kept⟩

theorem Targets.push {oldArr : Address} {old : WeightedEdgeArray W}
    {acc : Memory (WeightedEdgeArray W) × Address × Nat} {value value' : WeightedEdgeArray W × Nat}
    (targets : Targets oldArr old acc value) {e : WeightedEdge W} (pushed : pushCompacted value e = .ok value') :
    ∃ acc', pushCompactedIn acc e = .ok acc' ∧ Targets oldArr old acc' value' := by
  obtain ⟨m, newArr, num⟩ := acc
  obtain ⟨arr, num'⟩ := value
  obtain rfl : num = num' := targets.count
  by_cases full : arr.cap ≤ num
  · simp only [pushCompacted, if_pos full, bind_eq_ok, Except.ok.injEq] at pushed
    obtain ⟨larger, grown, stored, store, rfl⟩ := pushed
    have fresh := Memory.load_alloc_same m (WeightedEdgeArray.new (W := W) (num + 8))
    have source := Memory.load_alloc_old (v := WeightedEdgeArray.new (W := W) (num + 8)) targets.target
    have away := Memory.alloc_fresh (v := WeightedEdgeArray.new (W := W) (num + 8)) targets.target
    have away' := Memory.alloc_fresh (v := WeightedEdgeArray.new (W := W) (num + 8)) targets.kept
    have kept := Memory.load_alloc_old (v := WeightedEdgeArray.new (W := W) (num + 8)) targets.kept
    obtain ⟨m', copied, target, others⟩ := copyEdgesIn_eq away 0 num source fresh grown
    have moved : Targets oldArr old (m'.delete newArr, (m.alloc (.new (num + 8))).2, num) (larger, num) :=
      ⟨(Memory.load_delete_other away.symm).trans target, rfl, away',
        (Memory.load_delete_other targets.apart).trans ((others oldArr away').trans kept)⟩
    refine ⟨_, ?_, moved.store stored (num + 1)⟩
    simp only [pushCompactedIn, arrayAt_eq_ok.mpr targets.target, ok_bind, if_pos full, copied,
      arrayAt_eq_ok.mpr moved.target, store]
  · simp only [pushCompacted, if_neg full, ok_bind, bind_eq_ok, Except.ok.injEq] at pushed
    obtain ⟨stored, store, rfl⟩ := pushed
    refine ⟨_, ?_, targets.store stored (num + 1)⟩
    simp only [pushCompactedIn, arrayAt_eq_ok.mpr targets.target, ok_bind, if_neg full, store]

variable [DecidableEq W]

theorem Targets.pushLive {oldArr : Address} {old : WeightedEdgeArray W}
    {acc : Memory (WeightedEdgeArray W) × Address × Nat} {value value' : WeightedEdgeArray W × Nat}
    (targets : Targets oldArr old acc value) {e : WeightedEdge W}
    (pushed : pushLive pushCompacted value e = .ok value') :
    ∃ acc', Radix.pushLive pushCompactedIn acc e = .ok acc' ∧ Targets oldArr old acc' value' := by
  unfold Radix.pushLive at pushed ⊢
  by_cases live : e.live
  · rw [if_pos live] at pushed ⊢
    exact targets.push pushed
  · rw [if_neg live] at pushed ⊢
    obtain rfl := Except.ok.inj pushed
    exact ⟨acc, rfl, targets⟩

theorem scanIn_eq {oldArr : Address} {old : WeightedEdgeArray W} (i : Nat)
    {acc : Memory (WeightedEdgeArray W) × Address × Nat} {value value' : WeightedEdgeArray W × Nat}
    {bitmap bitmap' : SegmentedBitmap} (targets : Targets oldArr old acc value)
    (walked : backwardScan pushCompacted false old i value bitmap = .ok (value', bitmap')) :
    ∃ acc', scanIn oldArr i acc bitmap = .ok (acc', bitmap') ∧ Targets oldArr old acc' value' := by
  induction i generalizing acc value bitmap with
  | zero =>
      obtain ⟨rfl, rfl⟩ := Prod.mk.inj (Except.ok.inj walked)
      exact ⟨acc, rfl, targets⟩
  | succ i ih =>
      rw [backwardScan, bind_eq_ok] at walked
      obtain ⟨e, read, walked⟩ := walked
      rw [if_neg (by simp), bind_eq_ok] at walked
      obtain ⟨bit, at_bit, walked⟩ := walked
      rw [scanIn, arrayAt_eq_ok.mpr targets.kept, ok_bind, read, ok_bind, at_bit, ok_bind]
      by_cases marked : bitmap.getBit bit
      · rw [if_pos marked] at walked ⊢
        exact ih targets walked
      · rw [if_neg marked, bind_eq_ok] at walked
        obtain ⟨next, pushed, walked⟩ := walked
        obtain ⟨acc', pushed', targets'⟩ := targets.pushLive pushed
        obtain ⟨final, rest, done⟩ := ih targets' walked
        refine ⟨final, ?_, done⟩
        rw [if_neg marked, pushed', ok_bind, arrayAt_eq_ok.mpr targets'.kept, ok_bind, rest]

theorem logCompactionIn_eq {info info' : GlobalInfo} {bitmap bitmap' : SegmentedBitmap}
    {m : Memory (WeightedEdgeArray W)} {oldArr newArr : Address} (apart : oldArr ≠ newArr)
    {old target compact : WeightedEdgeArray W} (here : m.load oldArr = some old) (there : m.load newArr = some target)
    (compacted : logCompaction info bitmap old target = .ok (compact, bitmap', info')) :
    ∃ m' returned, logCompactionIn info bitmap m oldArr newArr = .ok ((m', returned), bitmap', info') ∧
      m'.load returned = some compact ∧ m'.load oldArr = some old := by
  have start : Targets oldArr old (m, newArr, 0) (target, 0) := ⟨there, rfl, apart, here⟩
  simp only [logCompaction, bind_eq_ok, Prod.exists, Except.ok.injEq, Prod.mk.injEq] at compacted
  obtain ⟨arr, num, bitmap₁, moved, rfl, rfl, rfl⟩ := compacted
  have finished {m₁ : Memory (WeightedEdgeArray W)} {returned : Address}
      (targets : Targets oldArr old (m₁, returned, num) (arr, num)) (final : WeightedEdgeArray W) :
      (m₁.store returned final).load returned = some final ∧ (m₁.store returned final).load oldArr = some old :=
    ⟨Memory.load_store_same targets.target, (Memory.load_store_other targets.apart).trans targets.kept⟩
  by_cases insertions : (old.physicalSize : Int) = old.deg
  · rw [compactEdges, if_pos insertions] at moved
    simp only [bind_eq_ok, Except.ok.injEq, Prod.mk.injEq] at moved
    obtain ⟨copied, copying, ⟨rfl, rfl⟩, rfl⟩ := moved
    obtain ⟨m₁, ran, at_new, others⟩ := copyEdgesIn_eq apart 0 old.physicalSize here there copying
    have targets : Targets oldArr old (m₁, newArr, old.physicalSize) (copied, old.physicalSize) :=
      ⟨at_new, rfl, apart, (others oldArr apart).trans here⟩
    refine ⟨_, newArr, ?_, finished targets _⟩
    simp only [logCompactionIn, arrayAt_eq_ok.mpr here, ok_bind, if_pos insertions, ran, arrayAt_eq_ok.mpr at_new]
  · rw [compactEdges, if_neg insertions] at moved
    simp only [bind_eq_ok, Prod.exists, Except.ok.injEq, Prod.mk.injEq] at moved
    obtain ⟨arr', num', bitmap₀, walked, bitmap₂, cleared, ⟨rfl, rfl⟩, rfl⟩ := moved
    obtain ⟨⟨m₁, returned, num⟩, ran, targets⟩ := scanIn_eq old.physicalSize start walked
    obtain rfl : num = num' := targets.count
    refine ⟨_, returned, ?_, finished targets _⟩
    simp only [logCompactionIn, arrayAt_eq_ok.mpr here, ok_bind, if_neg insertions, ran,
      arrayAt_eq_ok.mpr targets.kept, cleared, arrayAt_eq_ok.mpr targets.target]

/-! ## The two scans -/

/-- An array whose written slots are these entries; nothing is said of the slots behind them. -/
structure Written (arr : WeightedEdgeArray W) (entries : List (WeightedEdge W)) : Prop where
  length : entries.length = arr.physicalSize
  readable : Readable arr entries
  indexed : Indexed entries
  stamped : arr.timestamp ≠ none → ∀ k < arr.physicalSize - arr.snapshotDeg,
    ∃ stamp ≤ maxTimestamp, arr.stamp k = .ok stamp

omit [DecidableEq W] in
theorem Written.visibleSlots {arr : WeightedEdgeArray W} {entries : List (WeightedEdge W)}
    (written : Written arr entries) (logged : arr.snapshotDeg < arr.physicalSize)
    (neighbours : List (WeightedEdge W)) :
    Radix.visibleSlots arr maxTimestamp neighbours = .ok (arr.physicalSize, neighbours) := by
  rw [Radix.visibleSlots]
  cases stamps : arr.timestamp with
  | none => rfl
  | some ts =>
      obtain ⟨k, slots⟩ : ∃ k, arr.physicalSize - arr.snapshotDeg = k + 1 :=
        ⟨arr.physicalSize - arr.snapshotDeg - 1, by omega⟩
      obtain ⟨stamp, old, read⟩ := written.stamped (by simp [stamps]) k (by omega)
      have last : arr.snapshotDeg + k + 1 = arr.physicalSize := by omega
      rw [slots, cutLog, read, ok_bind, if_pos old, last]

theorem Written.readArray {arr : WeightedEdgeArray W} {snap log : List (WeightedEdge W)}
    (written : Written arr (snap ++ log)) (boundary : arr.snapshotDeg = snap.length)
    (logged : arr.snapshotDeg < arr.physicalSize) {bitmap : SegmentedBitmap} (clean : bitmap.Clean)
    (neighbours : List (WeightedEdge W)) : ∃ bitmap', Radix.readArray bitmap arr maxTimestamp neighbours =
        .ok (neighbours ++ scan WeightedEdge.idx WeightedEdge.live snap log, bitmap') ∧ bitmap'.Clean := by
  have size : arr.physicalSize = snap.length + log.length := by rw [← written.length, List.length_append]
  have pushes (acc out : List (WeightedEdge W)) (e : WeightedEdge W) (held : acc = neighbours ++ out) :
      ∃ acc', (.ok (acc ++ [e]) : Result _) = .ok acc' ∧ acc' = neighbours ++ (out ++ [e]) :=
    ⟨_, rfl, by simp [held]⟩
  obtain ⟨acc, bitmap₁, bitmap₂, walked, rfl, cleared, clean₂⟩ :=
    backwardScan_spec (fun acc out => acc = neighbours ++ out) true pushes boundary written.readable written.indexed
      (show neighbours = neighbours ++ [] by simp) clean
  refine ⟨bitmap₂, ?_, clean₂⟩
  rw [Radix.readArray, if_pos logged, written.visibleSlots logged, ok_bind]
  simp only [size, walked, ok_bind, boundary, Nat.add_sub_cancel_left, cleared, List.nil_append]

def WeightedEdgeArray.reading (arr : WeightedEdgeArray W) (info : GlobalInfo) : WeightedEdgeArray W :=
  if info.isMixedWorkloads then arr.acquire else arr

omit [DecidableEq W] in
theorem Written.reading {arr : WeightedEdgeArray W} {entries : List (WeightedEdge W)} (written : Written arr entries)
    (info : GlobalInfo) : Written (arr.reading info) entries := by
  unfold WeightedEdgeArray.reading
  split
  · exact ⟨written.length, written.readable, written.indexed, written.stamped⟩
  · exact written

theorem getNeighboursOf_current (info : GlobalInfo) {src : Vertex W} {arr : WeightedEdgeArray W}
    {older : List (WeightedEdgeArray W)} (current : src.next = arr :: older) {timestamp : Int}
    (usable : arr.readableAt timestamp) {bitmap bitmap' : SegmentedBitmap} {neighbours found : List (WeightedEdge W)}
    (read : readArray bitmap (arr.reading info) timestamp neighbours = .ok (found, bitmap')) :
    ∃ src', getNeighboursOf info bitmap src neighbours timestamp = .ok (true, found, src', bitmap') := by
  have chosen : (arr :: older).findIdx? (·.readableAt timestamp) = some 0 := by
    rw [List.findIdx?_cons, if_pos usable]
  unfold WeightedEdgeArray.reading at read
  cases mixed : info.isMixedWorkloads
  · rw [mixed, if_neg (by simp)] at read
    refine ⟨{ src with next := arr :: older }, ?_⟩
    simp only [getNeighboursOf, current, chosen, mixed, Bool.false_eq_true, if_false, List.getElem?_cons_zero, read,
      ok_bind]
  · rw [mixed, if_pos rfl] at read
    refine ⟨{ src with next := leave (arr.acquire :: older) 0 }, ?_⟩
    simp only [getNeighboursOf, current, chosen, mixed, if_true, List.modify_zero_cons, List.getElem?_cons_zero, read,
      ok_bind]

/-- For any array with a log whose length is not the degree, the compaction keeps, in any target and entry for
entry, the list that a read at the default timestamp appends, and does not touch the array. -/
theorem read_eq_compaction (info : GlobalInfo) {m : Memory (WeightedEdgeArray W)} {oldArr newArr : Address}
    (apart : oldArr ≠ newArr) {old : WeightedEdgeArray W} (here : m.load oldArr = some old) {cap : Nat}
    (there : m.load newArr = some (.new cap)) {entries : List (WeightedEdge W)} (written : Written old entries)
    (logged : old.snapshotDeg < old.physicalSize) (estimate : (old.physicalSize : Int) ≠ old.deg)
    {src : Vertex W} {older : List (WeightedEdgeArray W)} (current : src.next = old :: older)
    (recent : old.snapshotTimestamp ≤ maxTimestamp) {bitmap bitmap' : SegmentedBitmap} (clean : bitmap.Clean)
    (clean' : bitmap'.Clean) (neighbours : List (WeightedEdge W)) :
    ∃ (edges : List (WeightedEdge W)) (compact : WeightedEdgeArray W) (m' : Memory (WeightedEdgeArray W))
      (returned : Address) (src' : Vertex W) (read walked : SegmentedBitmap),
      getNeighboursOf info bitmap src neighbours maxTimestamp = .ok (true, neighbours ++ edges, src', read) ∧
      logCompactionIn info bitmap' m oldArr newArr = .ok ((m', returned), walked, info.tick) ∧
      read.Clean ∧ walked.Clean ∧ m'.load returned = some compact ∧ Readable compact edges ∧
      compact.size = edges.length ∧ compact.physicalSize = edges.length ∧ compact.snapshotDeg = edges.length ∧
      compact.deg = edges.length ∧ edges.length ≤ compact.cap ∧ m'.load oldArr = some old := by
  obtain ⟨snap, log, rfl, boundary⟩ : ∃ snap log, entries = snap ++ log ∧ old.snapshotDeg = snap.length := by
    refine ⟨entries.take old.snapshotDeg, entries.drop old.snapshotDeg, (List.take_append_drop _ _).symm, ?_⟩
    rw [List.length_take, written.length]
    omega
  have size : old.physicalSize = snap.length + log.length := by rw [← written.length, List.length_append]
  obtain ⟨filled, walked, moved, filling, -, cleared⟩ :=
    compactEdges_scan boundary size written.readable written.indexed estimate clean' cap
  let edges := scan WeightedEdge.idx WeightedEdge.live snap log
  have compacted : ∃ compact, logCompaction info bitmap' old (.new cap) = .ok (compact, walked, info.tick) ∧
      compact.edge = filled.edge ∧ compact.cap = filled.cap ∧ compact.size = edges.length ∧
      compact.physicalSize = edges.length ∧ compact.snapshotDeg = edges.length ∧ compact.deg = edges.length := by
    rw [logCompaction, moved, ok_bind]
    cases info.isMixedWorkloads
    · exact ⟨_, rfl, rfl, rfl, rfl, rfl, rfl, rfl⟩
    · exact ⟨_, rfl, rfl, rfl, rfl, rfl, rfl, rfl⟩
  obtain ⟨compact, compaction, edge, same_cap, sizes⟩ := compacted
  obtain ⟨m', returned, ran, result, kept⟩ := logCompactionIn_eq apart here there compaction
  have same : (old.reading info).snapshotDeg = old.snapshotDeg ∧ (old.reading info).physicalSize = old.physicalSize := by
    unfold WeightedEdgeArray.reading
    split <;> exact ⟨rfl, rfl⟩
  obtain ⟨read, scanned, cleared'⟩ := (written.reading info).readArray (same.1.trans boundary)
    (by rwa [same.1, same.2]) clean neighbours
  have first := List.getElem?_eq_getElem (l := snap ++ log) (i := 0) (by rw [written.length]; omega)
  have usable : old.readableAt maxTimestamp := by
    have opened := written.readable 0 _ first
    simp only [WeightedEdgeArray.readableAt, recent, decide_true, Bool.true_and]
    cases slots : old.edge with
    | none =>
        rw [WeightedEdgeArray.read, slots] at opened
        cases opened
    | some _ => rfl
  obtain ⟨src', found⟩ := getNeighboursOf_current info current usable scanned
  refine ⟨edges, compact, m', returned, src', read, walked, found, ran, cleared', cleared, result, ?_,
    sizes.1, sizes.2.1, sizes.2.2.1, sizes.2.2.2, same_cap ▸ filling.room, kept⟩
  exact readable_of_edge (edge.trans filling.edge)

def absentDeleted : WeightedEdgeArray Nat :=
  { (WeightedEdgeArray.new 4 : WeightedEdgeArray Nat) with
    size := 3
    physicalSize := 3
    deg := 1
    edge := some [⟨1, 0⟩, ⟨2, 1⟩, ⟨0, 2⟩, {}] }

/-- They are compacted into a target without slots. -/
theorem read_eq_compaction_reallocated : ∃ (edges : List (WeightedEdge Nat)) (compact : WeightedEdgeArray Nat)
    (m' : Memory (WeightedEdgeArray Nat)) (returned : Address) (walked : SegmentedBitmap),
    logCompactionIn ⟨0, false⟩ (.new 1 0 (by decide)) [some absentDeleted, some (.new 0)] 0 1 =
        .ok ((m', returned), walked, ⟨1, false⟩) ∧
      m'.load returned = some compact ∧ compact.physicalSize = edges.length := by
  have written : Written absentDeleted [⟨1, 0⟩, ⟨2, 1⟩, ⟨0, 2⟩] := by
    refine ⟨rfl, ?_, by unfold Indexed; decide, fun stamped => absurd rfl stamped⟩
    intro i e here
    match i with
    | 0 | 1 | 2 => cases here; rfl
  have current : ({ next := [absentDeleted] } : Vertex Nat).next = [absentDeleted] := rfl
  have clean : (SegmentedBitmap.new 1 0 (by decide)).Clean := SegmentedBitmap.new_clean 0 (show 0 < 1 by decide)
  obtain ⟨edges, compact, m', returned, -, -, walked, -, ran, -, -, result, -, -, size, -⟩ :=
    read_eq_compaction (⟨0, false⟩ : GlobalInfo) (show (0 : Address) ≠ 1 by decide)
      (show Memory.load [some absentDeleted, some (.new 0)] 0 = some absentDeleted from rfl) rfl written
      (by decide) (by decide) current (by decide) clean clean []
  exact ⟨edges, compact, m', returned, walked, ran, result, size⟩

end Radix
