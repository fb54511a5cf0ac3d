import Radix.Utils.EdgeArray

/-!
# Log compaction

`RadixGraph::LogCompaction` and the log-reading branch of `RadixGraph::GetNeighbours` walk an array
backwards with the same marking rule; `backwardScan` is that walk, with what is done to a surviving
entry as a parameter.
-/

namespace Radix

open Lib Lib.LastWrite

variable {W : Type} [Zero W]

/-! ## The loops -/

def copyEdges (src : WeightedEdgeArray W) (dst : WeightedEdgeArray W) :
    (i n : Nat) → Result (WeightedEdgeArray W)
  | _, 0 => .ok dst
  | i, n + 1 => do
      let e ← src.read i
      let dst ← dst.store i e
      copyEdges src dst (i + 1) n

/-- `if (e.weight != 0)`: an insertion or an update is the latest entry of its destination. -/
def pushLive [DecidableEq W] {σ : Type} (push : σ → WeightedEdge W → Result σ) (acc : σ)
    (e : WeightedEdge W) : Result σ := if e.live then push acc e else .ok acc

/-- `for (i = n - 1; i >= 0; i--)` over an array: an entry whose destination is not marked is pushed
if its weight is not 0, and marks its destination if it lies in the log segment. `GetNeighbours`
skips a slot that is still unwritten after its retries, `LogCompaction` does not test for one. -/
def backwardScan [DecidableEq W] {σ : Type} (push : σ → WeightedEdge W → Result σ)
    (skipUnwritten : Bool) (arr : WeightedEdgeArray W) :
    Nat → σ → SegmentedBitmap → Result (σ × SegmentedBitmap)
  | 0, acc, bitmap => .ok (acc, bitmap)
  | i + 1, acc, bitmap => do
      let e ← arr.read i
      if skipUnwritten ∧ e.idx = -1 then backwardScan push skipUnwritten arr i acc bitmap
      else do
        let bit ← e.bit
        if bitmap.getBit bit then backwardScan push skipUnwritten arr i acc bitmap
        else do
          let acc ← pushLive push acc e
          backwardScan push skipUnwritten arr i acc
            (if arr.snapshotDeg ≤ i then bitmap.setBit bit else bitmap)

/-- `for (; n > 0; i++, n--) bitmap[thread_id]->clear_bit(edge[i].idx);` -/
def clearMarks (skipUnwritten : Bool) (arr : WeightedEdgeArray W) :
    (i n : Nat) → SegmentedBitmap → Result SegmentedBitmap
  | _, 0, bitmap => .ok bitmap
  | i, n + 1, bitmap => do
      let e ← arr.read i
      if skipUnwritten ∧ e.idx = -1 then clearMarks skipUnwritten arr (i + 1) n bitmap
      else do
        let bit ← e.bit
        clearMarks skipUnwritten arr (i + 1) n (bitmap.clearBit bit)

/-- `new_arr->edge[num++] = e`, into a larger array where the estimated capacity was too small. -/
def pushCompacted : WeightedEdgeArray W × Nat → WeightedEdge W → Result (WeightedEdgeArray W × Nat)
  | (newArr, num), e => do
      let newArr ←
        if newArr.cap ≤ num then copyEdges newArr (.new (num + 8)) 0 num else .ok newArr
      let newArr ← newArr.store num { weight := e.weight, idx := e.idx }
      .ok (newArr, num + 1)

def compactEdges [DecidableEq W] (bitmap : SegmentedBitmap) (oldArr newArr : WeightedEdgeArray W) :
    Result ((WeightedEdgeArray W × Nat) × SegmentedBitmap) :=
  if (oldArr.physicalSize : Int) = oldArr.deg then do
    -- all logs are insertions
    let newArr ← copyEdges oldArr newArr 0 oldArr.physicalSize
    .ok ((newArr, oldArr.physicalSize), bitmap)
  else do
    let (acc, bitmap) ← backwardScan pushCompacted false oldArr oldArr.physicalSize (newArr, 0) bitmap
    let bitmap ←
      clearMarks false oldArr oldArr.snapshotDeg (oldArr.physicalSize - oldArr.snapshotDeg) bitmap
    .ok (acc, bitmap)

def logCompaction [DecidableEq W] (info : GlobalInfo) (bitmap : SegmentedBitmap)
    (oldArr newArr : WeightedEdgeArray W) :
    Result (WeightedEdgeArray W × SegmentedBitmap × GlobalInfo) := do
  let ((newArr, num), bitmap) ← compactEdges bitmap oldArr newArr
  let newArr := { newArr with size := num, snapshotDeg := num, deg := num, physicalSize := num }
  let newArr :=
    if info.isMixedWorkloads then
      { newArr with timestamp := some (List.replicate (newArr.cap - num) none) }
    else newArr
  .ok ({ newArr with snapshotTimestamp := info.globalTimestamp }, bitmap, info.tick)

/-! ## What the loops compute -/

def Readable (arr : WeightedEdgeArray W) (entries : List (WeightedEdge W)) : Prop :=
  ∀ i e, entries[i]? = some e → arr.read i = .ok e

def Marks (bitmap : SegmentedBitmap) (seen : List Int) : Prop :=
  ∀ p : Nat, bitmap.getBit p = decide ((p : Int) ∈ seen)

def Indexed (entries : List (WeightedEdge W)) : Prop := ∀ e ∈ entries, 0 ≤ e.idx

def WeightedEdgeArray.filled (cap : Nat) (entries : List (WeightedEdge W)) : WeightedEdgeArray W where
  cap := cap
  edge := some (entries ++ List.replicate (cap - entries.length) {})

structure Filling (arr : WeightedEdgeArray W) (entries : List (WeightedEdge W)) : Prop where
  room : entries.length ≤ arr.cap
  shape : arr = .filled arr.cap entries

theorem Readable.left {arr : WeightedEdgeArray W} {entries more : List (WeightedEdge W)}
    (readable : Readable arr (entries ++ more)) : Readable arr entries := fun i e at_i =>
  readable i e (by rw [List.getElem?_append_left (List.getElem?_eq_some_iff.mp at_i).1, at_i])

theorem Readable.at_length {arr : WeightedEdgeArray W} {entries : List (WeightedEdge W)}
    {e : WeightedEdge W} (readable : Readable arr (entries ++ [e])) :
    arr.read entries.length = .ok e := readable _ e (by simp)

theorem readable_of_edge {arr : WeightedEdgeArray W} {entries more : List (WeightedEdge W)}
    (edge : arr.edge = some (entries ++ more)) : Readable arr entries := by
  intro i e at_i
  have inside := (List.getElem?_eq_some_iff.mp at_i).1
  simp [WeightedEdgeArray.read, edge, List.getElem?_append_left inside, at_i]

theorem Indexed.left {entries more : List (WeightedEdge W)} (indexed : Indexed (entries ++ more)) :
    Indexed entries := fun e member => indexed e (by simp [member])

theorem Indexed.right {entries more : List (WeightedEdge W)} (indexed : Indexed (entries ++ more)) :
    Indexed more := fun e member => indexed e (by simp [member])

theorem marks_nil {bitmap : SegmentedBitmap} : Marks bitmap [] ↔ bitmap.Clean := by
  simp [Marks, SegmentedBitmap.Clean]

theorem Marks.getBit {bitmap : SegmentedBitmap} {seen : List Int} (marks : Marks bitmap seen)
    {idx : Int} (nonneg : 0 ≤ idx) : bitmap.getBit idx.toNat = decide (idx ∈ seen) := by
  rw [marks, Int.toNat_of_nonneg nonneg]

theorem Marks.setBit {bitmap : SegmentedBitmap} {seen : List Int} (marks : Marks bitmap seen)
    {idx : Int} (nonneg : 0 ≤ idx) : Marks (bitmap.setBit idx.toNat) (idx :: seen) := by
  intro p
  have same : p = idx.toNat ↔ (p : Int) = idx := by omega
  simp [marks p, same]

theorem copyEdges_spec (src : WeightedEdgeArray W) (entries : List (WeightedEdge W))
    (pre post : List (WeightedEdge W)) (dst : WeightedEdgeArray W)
    (edge : dst.edge = some (pre ++ post)) (room : entries.length ≤ post.length)
    (readable : ∀ j e, entries[j]? = some e → src.read (pre.length + j) = .ok e) :
    copyEdges src dst pre.length entries.length =
      .ok { dst with edge := some (pre ++ entries ++ post.drop entries.length) } := by
  induction entries generalizing pre post dst with
  | nil => simp [copyEdges, ← edge]
  | cons e entries ih =>
      obtain ⟨old, post, rfl⟩ := List.exists_cons_of_length_pos (show 0 < post.length by
        simp only [List.length_cons] at room; omega)
      have here : src.read pre.length = .ok e := readable 0 e rfl
      have next := ih (pre ++ [e]) post { dst with edge := some (pre ++ [e] ++ post) } rfl
        (by simpa using room)
        (fun j d at_j => by simpa [Nat.add_assoc, Nat.add_comm 1] using readable (j + 1) d at_j)
      simp only [copyEdges, List.length_cons, here, ok_bind, WeightedEdgeArray.store, edge,
        List.length_append]
      rw [if_pos (by omega), ok_bind]
      simpa using next

theorem Filling.new (m : Nat) : Filling (WeightedEdgeArray.new (W := W) m) [] := ⟨by simp, rfl⟩

theorem Filling.edge {arr : WeightedEdgeArray W} {entries : List (WeightedEdge W)}
    (filling : Filling arr entries) :
    arr.edge = some (entries ++ List.replicate (arr.cap - entries.length) ({} : WeightedEdge W)) :=
  congrArg WeightedEdgeArray.edge filling.shape

theorem Filling.store {arr : WeightedEdgeArray W} {entries : List (WeightedEdge W)}
    (filling : Filling arr entries) (room : entries.length < arr.cap) (e : WeightedEdge W) :
    ∃ arr', arr.store entries.length e = .ok arr' ∧ arr'.cap = arr.cap ∧
      Filling arr' (entries ++ [e]) := by
  obtain ⟨left, more⟩ : ∃ left, arr.cap - entries.length = left + 1 :=
    ⟨arr.cap - entries.length - 1, by omega⟩
  have rest : arr.cap - (entries.length + 1) = left := by omega
  refine ⟨.filled arr.cap (entries ++ [e]), ?_, rfl, ?_, rfl⟩
  · rw [filling.shape]
    simp [WeightedEdgeArray.store, WeightedEdgeArray.filled, more, rest, List.replicate_succ]
  · simp only [WeightedEdgeArray.filled, List.length_append, List.length_singleton]
    omega

theorem Filling.push {arr : WeightedEdgeArray W} {entries : List (WeightedEdge W)}
    (filling : Filling arr entries) (e : WeightedEdge W) :
    ∃ arr', pushCompacted (arr, entries.length) e = .ok (arr', entries.length + 1) ∧
      arr.cap ≤ arr'.cap ∧ Filling arr' (entries ++ [e]) := by
  by_cases full : arr.cap ≤ entries.length
  · have copied : copyEdges arr (.new (entries.length + 8)) 0 entries.length =
        .ok (.filled (entries.length + 8) entries) := by
      have := copyEdges_spec arr entries [] (List.replicate (entries.length + 8) {})
        (.new (entries.length + 8)) rfl (by simp)
        (fun j d at_j => by simpa using readable_of_edge filling.edge j d at_j)
      simpa [WeightedEdgeArray.new, WeightedEdgeArray.filled] using this
    have larger : Filling (.filled (entries.length + 8) entries) entries :=
      ⟨by simp [WeightedEdgeArray.filled], rfl⟩
    obtain ⟨arr', stored, cap, filled⟩ := larger.store (by simp [WeightedEdgeArray.filled]) e
    refine ⟨arr', ?_, by rw [cap]; simp [WeightedEdgeArray.filled]; omega, filled⟩
    simp only [pushCompacted, if_pos full, copied, ok_bind, stored]
  · obtain ⟨arr', stored, cap, filled⟩ := filling.store (Nat.not_le.mp full) e
    refine ⟨arr', ?_, cap.ge, filled⟩
    simp only [pushCompacted, if_neg full, ok_bind, stored]

section Scan

variable [DecidableEq W] {σ : Type} {push : σ → WeightedEdge W → Result σ}
  {holds : σ → List (WeightedEdge W) → Prop} {arr : WeightedEdgeArray W} (skip : Bool)

theorem pushLive_spec
    (pushes : ∀ acc out e, holds acc out → ∃ acc', push acc e = .ok acc' ∧ holds acc' (out ++ [e]))
    {out : List (WeightedEdge W)} {acc : σ} (e : WeightedEdge W) (held : holds acc out) :
    ∃ acc', pushLive push acc e = .ok acc' ∧ holds acc' (out ++ if e.live then [e] else []) := by
  by_cases live : e.live
  · simpa [pushLive, live] using pushes acc out e held
  · exact ⟨acc, by simp [pushLive, live], by simpa [live] using held⟩

theorem backwardScan_log
    (pushes : ∀ acc out e, holds acc out → ∃ acc', push acc e = .ok acc' ∧ holds acc' (out ++ [e]))
    {snap : List (WeightedEdge W)} (boundary : arr.snapshotDeg = snap.length)
    (log : List (WeightedEdge W)) {out : List (WeightedEdge W)} {acc : σ} {seen : List Int}
    {bitmap : SegmentedBitmap} (readable : Readable arr (snap ++ log)) (indexed : Indexed log)
    (held : holds acc out) (marks : Marks bitmap seen) :
    ∃ acc' bitmap' seen', backwardScan push skip arr (snap.length + log.length) acc bitmap =
        backwardScan push skip arr snap.length acc' bitmap' ∧
      holds acc' (out ++ survivors WeightedEdge.idx WeightedEdge.live seen log.reverse) ∧
      Marks bitmap' seen' ∧ ∀ k, k ∈ seen' ↔ k ∈ seen ∨ k ∈ log.map WeightedEdge.idx := by
  induction log using List.reverseRecOn generalizing out acc seen bitmap with
  | nil => exact ⟨acc, bitmap, seen, rfl, by simpa [survivors] using held, marks, by simp⟩
  | append_singleton log e ih =>
      have earlier : Readable arr (snap ++ log) := by
        rw [← List.append_assoc] at readable
        exact readable.left
      have here : arr.read (snap.length + log.length) = .ok e := by
        rw [← List.append_assoc] at readable
        simpa using readable.at_length
      have nonneg : 0 ≤ e.idx := indexed e (by simp)
      have written : ¬ (skip = true ∧ e.idx = -1) := by omega
      have step : backwardScan push skip arr (snap.length + (log ++ [e]).length) acc bitmap =
          if bitmap.getBit e.idx.toNat then
            backwardScan push skip arr (snap.length + log.length) acc bitmap
          else (do
            let acc ← pushLive push acc e
            backwardScan push skip arr (snap.length + log.length) acc
              (bitmap.setBit e.idx.toNat)) := by
        have later : arr.snapshotDeg ≤ snap.length + log.length := by omega
        rw [List.length_append, List.length_singleton, ← Nat.add_assoc, backwardScan, here, ok_bind,
          if_neg written, WeightedEdge.bit_of_nonneg nonneg, ok_bind, if_pos later]
      rw [step, marks.getBit nonneg, List.reverse_append, List.reverse_singleton,
        List.singleton_append, survivors]
      by_cases marked : e.idx ∈ seen
      · obtain ⟨acc', bitmap', seen', run, done, marks', members⟩ :=
          ih earlier indexed.left held marks
        refine ⟨acc', bitmap', seen', by simpa [marked] using run, by simpa [marked] using done,
          marks', fun k => ?_⟩
        rw [members]
        simp only [List.map_append, List.mem_append, List.map_cons, List.map_nil,
          List.mem_singleton]
        grind
      · obtain ⟨acc₁, pushed, held₁⟩ := pushLive_spec pushes e held
        obtain ⟨acc', bitmap', seen', run, done, marks', members⟩ :=
          ih earlier indexed.left held₁ (marks.setBit nonneg)
        refine ⟨acc', bitmap', seen', ?_, ?_, marks', fun k => ?_⟩
        · simp only [marked, decide_false, Bool.false_eq_true, if_false, pushed, ok_bind]
          exact run
        · simpa [marked, List.append_assoc] using done
        · rw [members]
          simp only [List.map_append, List.mem_append, List.map_cons, List.map_nil, List.mem_cons]
          tauto

theorem backwardScan_snapshot
    (pushes : ∀ acc out e, holds acc out → ∃ acc', push acc e = .ok acc' ∧ holds acc' (out ++ [e]))
    (snap : List (WeightedEdge W)) (boundary : snap.length ≤ arr.snapshotDeg)
    {out : List (WeightedEdge W)} {acc : σ} {seen : List Int} {bitmap : SegmentedBitmap}
    (readable : Readable arr snap) (indexed : Indexed snap) (held : holds acc out)
    (marks : Marks bitmap seen) :
    ∃ acc', backwardScan push skip arr snap.length acc bitmap = .ok (acc', bitmap) ∧
      holds acc' (out ++ snap.reverse.filter fun e => e.idx ∉ seen && e.live) := by
  induction snap using List.reverseRecOn generalizing out acc with
  | nil => exact ⟨acc, rfl, by simpa using held⟩
  | append_singleton snap e ih =>
      have nonneg : 0 ≤ e.idx := indexed e (by simp)
      have written : ¬ (skip = true ∧ e.idx = -1) := by omega
      have below : ¬ arr.snapshotDeg ≤ snap.length := by simp at boundary; omega
      rw [List.length_append, List.length_singleton, backwardScan, readable.at_length, ok_bind,
        if_neg written, WeightedEdge.bit_of_nonneg nonneg, ok_bind, if_neg below,
        marks.getBit nonneg, List.reverse_append, List.reverse_singleton, List.singleton_append,
        List.filter_cons]
      have shorter : snap.length ≤ arr.snapshotDeg := by omega
      by_cases marked : e.idx ∈ seen
      · simpa [marked] using ih shorter readable.left indexed.left held
      · obtain ⟨acc₁, pushed, held₁⟩ := pushLive_spec pushes e held
        obtain ⟨acc', run, done⟩ := ih shorter readable.left indexed.left held₁
        refine ⟨acc', by simpa [marked, pushed] using run, ?_⟩
        by_cases live : e.live <;> simpa [marked, live] using done

omit [DecidableEq W] in
theorem clearMarks_spec (log : List (WeightedEdge W)) (i : Nat) (bitmap : SegmentedBitmap)
    (readable : ∀ j e, log[j]? = some e → arr.read (i + j) = .ok e) (indexed : Indexed log) :
    ∃ bitmap', clearMarks skip arr i log.length bitmap = .ok bitmap' ∧
      ∀ p, bitmap'.getBit p = (decide ((p : Int) ∉ log.map WeightedEdge.idx) && bitmap.getBit p) := by
  induction log generalizing i bitmap with
  | nil => exact ⟨bitmap, rfl, by simp⟩
  | cons e log ih =>
      have nonneg : 0 ≤ e.idx := indexed e (by simp)
      have written : ¬ (skip = true ∧ e.idx = -1) := by omega
      have here : arr.read i = .ok e := readable 0 e rfl
      obtain ⟨bitmap', run, bits⟩ := ih (i + 1) (bitmap.clearBit e.idx.toNat)
        (fun j d at_j => by simpa [Nat.add_assoc, Nat.add_comm 1] using readable (j + 1) d at_j)
        (fun d member => indexed d (by simp [member]))
      refine ⟨bitmap', ?_, fun p => ?_⟩
      · rw [List.length_cons, clearMarks, here, ok_bind, if_neg written,
          WeightedEdge.bit_of_nonneg nonneg, ok_bind, run]
      · have same : p = e.idx.toNat ↔ (p : Int) = e.idx := by omega
        rw [bits p, SegmentedBitmap.getBit_clearBit]
        by_cases equal : (p : Int) = e.idx <;> simp [same, equal]

variable (holds) in
/-- A scan with a clean bitmap pushes the entries of `LastWrite.scan` in that order, and clearing
the marks of the log leaves the bitmap clean. -/
theorem backwardScan_spec
    (pushes : ∀ acc out e, holds acc out → ∃ acc', push acc e = .ok acc' ∧ holds acc' (out ++ [e]))
    {snap log : List (WeightedEdge W)} (boundary : arr.snapshotDeg = snap.length)
    {out : List (WeightedEdge W)} {acc : σ} {bitmap : SegmentedBitmap}
    (readable : Readable arr (snap ++ log)) (indexed : Indexed (snap ++ log))
    (held : holds acc out) (clean : bitmap.Clean) :
    ∃ acc' bitmap₁ bitmap₂,
      backwardScan push skip arr (snap.length + log.length) acc bitmap = .ok (acc', bitmap₁) ∧
      holds acc' (out ++ scan WeightedEdge.idx WeightedEdge.live snap log) ∧
      clearMarks skip arr snap.length log.length bitmap₁ = .ok bitmap₂ ∧ bitmap₂.Clean := by
  obtain ⟨acc₁, bitmap₁, seen, walk, held₁, marks, members⟩ := backwardScan_log skip
    pushes boundary log readable indexed.right held (marks_nil.mpr clean)
  obtain ⟨acc', rest, held'⟩ := backwardScan_snapshot skip pushes snap boundary.ge
    readable.left indexed.left held₁ marks
  obtain ⟨bitmap₂, cleared, bits⟩ := clearMarks_spec skip log
    snap.length bitmap₁ (fun j e at_j => readable _ e (by
      rw [List.getElem?_append_right (by omega), Nat.add_sub_cancel_left, at_j])) indexed.right
  refine ⟨acc', bitmap₁, bitmap₂, walk.trans rest, ?_, cleared, fun p => ?_⟩
  · have same : (fun e : WeightedEdge W => decide (e.idx ∉ seen) && e.live) =
        fun e => decide (e.idx ∉ log.map WeightedEdge.idx) && e.live := by
      funext e
      simp [members]
    rw [same] at held'
    simpa [scan, List.append_assoc] using held'
  · rw [bits p, marks p]
    by_cases inside : (p : Int) ∈ log.map WeightedEdge.idx <;> simp [members, inside]

end Scan

/-! ## The layout of an array -/

/-- A snapshot segment, a log segment and unwritten slots; in mixed mode the log entries have
timestamps. -/
structure Laid (arr : WeightedEdgeArray W) (snap log : List (WeightedEdge W))
    (stamps : Option (List Int)) : Prop where
  room : snap.length + log.length ≤ arr.cap
  edge : arr.edge = some (snap ++ log ++
    List.replicate (arr.cap - (snap.length + log.length)) ({} : WeightedEdge W))
  physicalSize : arr.physicalSize = snap.length + log.length
  snapshotDeg : arr.snapshotDeg = snap.length
  indexed : Indexed (snap ++ log)
  timestamp : arr.timestamp = stamps.map fun ts =>
    ts.map some ++ List.replicate (arr.cap - (snap.length + log.length)) none
  stamped : ∀ ts, stamps = some ts → ts.length = log.length

theorem Laid.readable {arr : WeightedEdgeArray W} {snap log : List (WeightedEdge W)}
    {stamps : Option (List Int)} (laid : Laid arr snap log stamps) : Readable arr (snap ++ log) :=
  readable_of_edge laid.edge

/-- The edges that a compaction keeps: all of them where it takes every log for an insertion. -/
def compacted [DecidableEq W] (arr : WeightedEdgeArray W) (snap log : List (WeightedEdge W)) :
    List (WeightedEdge W) :=
  if (arr.physicalSize : Int) = arr.deg then snap ++ log
  else scan WeightedEdge.idx WeightedEdge.live snap log

def GlobalInfo.freshStamps (info : GlobalInfo) : Option (List Int) :=
  if info.isMixedWorkloads then some [] else none

variable [DecidableEq W]

theorem compacted_indexed {arr : WeightedEdgeArray W} {snap log : List (WeightedEdge W)}
    (indexed : Indexed (snap ++ log)) : Indexed (compacted arr snap log) := by
  unfold compacted
  split
  · exact indexed
  · intro e member
    exact indexed e (List.mem_append.mpr (mem_of_mem_scan member))

theorem compactEdges_scan {oldArr : WeightedEdgeArray W} {snap log : List (WeightedEdge W)}
    (boundary : oldArr.snapshotDeg = snap.length) (size : oldArr.physicalSize = snap.length + log.length)
    (readable : Readable oldArr (snap ++ log)) (indexed : Indexed (snap ++ log))
    (estimate : (oldArr.physicalSize : Int) ≠ oldArr.deg) {bitmap : SegmentedBitmap} (clean : bitmap.Clean) (m : Nat) :
    ∃ newArr bitmap', compactEdges bitmap oldArr (.new m) =
        .ok ((newArr, (scan WeightedEdge.idx WeightedEdge.live snap log).length), bitmap') ∧
      Filling newArr (scan WeightedEdge.idx WeightedEdge.live snap log) ∧ m ≤ newArr.cap ∧ bitmap'.Clean := by
  let holds (acc : WeightedEdgeArray W × Nat) (out : List (WeightedEdge W)) : Prop :=
    Filling acc.1 out ∧ acc.2 = out.length ∧ m ≤ acc.1.cap
  have pushes : ∀ acc out e, holds acc out →
      ∃ acc', pushCompacted acc e = .ok acc' ∧ holds acc' (out ++ [e]) := by
    rintro ⟨newArr, num⟩ out e ⟨filling, rfl, cap⟩
    obtain ⟨newArr', pushed, larger, filled⟩ := filling.push e
    exact ⟨_, pushed, filled, by simp, cap.trans larger⟩
  obtain ⟨⟨newArr, num⟩, bitmap₁, bitmap₂, walked, ⟨filling, rfl, cap⟩, cleared, clean₂⟩ :=
    backwardScan_spec holds false pushes boundary readable indexed
      (show holds (.new m, 0) [] from ⟨.new m, rfl, le_rfl⟩) clean
  have log_length : oldArr.physicalSize - oldArr.snapshotDeg = log.length := by omega
  refine ⟨newArr, bitmap₂, ?_, filling, cap, clean₂⟩
  rw [compactEdges, if_neg estimate, log_length, boundary, size, walked, ok_bind]
  simp only [cleared, ok_bind, List.nil_append]

theorem compactEdges_spec {oldArr : WeightedEdgeArray W} {snap log : List (WeightedEdge W)}
    {stamps : Option (List Int)} (laid : Laid oldArr snap log stamps) {bitmap : SegmentedBitmap}
    (clean : bitmap.Clean) {m : Nat}
    (room : (oldArr.physicalSize : Int) = oldArr.deg → oldArr.physicalSize ≤ m) :
    ∃ newArr bitmap', compactEdges bitmap oldArr (.new m) =
        .ok ((newArr, (compacted oldArr snap log).length), bitmap') ∧
      Filling newArr (compacted oldArr snap log) ∧ m ≤ newArr.cap ∧ bitmap'.Clean := by
  by_cases insertions : (oldArr.physicalSize : Int) = oldArr.deg
  · have enough := room insertions
    have length : (snap ++ log).length = oldArr.physicalSize := by simp [laid.physicalSize]
    have copied := copyEdges_spec oldArr (snap ++ log) [] (List.replicate m {}) (.new m) rfl
      (by simpa [laid.physicalSize] using enough)
      (fun j e at_j => by simpa using laid.readable j e at_j)
    rw [length] at copied
    refine ⟨.filled m (snap ++ log), bitmap, ?_, ?_, le_rfl, clean⟩
    · simp only [compactEdges, compacted, if_pos insertions, length]
      simp only [List.length_nil, List.nil_append, List.drop_replicate] at copied
      rw [copied]
      simp [WeightedEdgeArray.new, WeightedEdgeArray.filled, laid.physicalSize]
    · rw [compacted, if_pos insertions]
      exact ⟨by simpa [WeightedEdgeArray.filled, laid.physicalSize] using enough, rfl⟩
  · obtain ⟨newArr, bitmap', moved, filling, cap, clean'⟩ := compactEdges_scan laid.snapshotDeg laid.physicalSize
      laid.readable laid.indexed insertions clean m
    exact ⟨newArr, bitmap', by rw [moved, compacted, if_neg insertions], by rwa [compacted, if_neg insertions],
      cap, clean'⟩

/-- Compaction leaves a snapshot of the surviving edges, draws one timestamp for it and hands the
bitmap back clean. -/
theorem logCompaction_spec {oldArr : WeightedEdgeArray W} {snap log : List (WeightedEdge W)}
    {stamps : Option (List Int)} (laid : Laid oldArr snap log stamps) (info : GlobalInfo)
    {bitmap : SegmentedBitmap} (clean : bitmap.Clean) {m : Nat}
    (room : (oldArr.physicalSize : Int) = oldArr.deg → oldArr.physicalSize ≤ m) :
    ∃ newArr bitmap', logCompaction info bitmap oldArr (.new m) = .ok (newArr, bitmap', info.tick) ∧
      bitmap'.Clean ∧ Laid newArr (compacted oldArr snap log) [] info.freshStamps ∧
      newArr.deg = newArr.physicalSize ∧ newArr.size = newArr.physicalSize ∧
      newArr.snapshotTimestamp = info.globalTimestamp ∧ newArr.threadsRead = 0 ∧ m ≤ newArr.cap := by
  obtain ⟨filled, bitmap', compactEdges_ok, filling, cap, clean'⟩ :=
    compactEdges_spec laid clean room
  have edge := filling.edge
  have room' := filling.room
  have shape := filling.shape
  have unread : filled.threadsRead = 0 := by rw [shape]; rfl
  have unstamped : filled.timestamp = none := by rw [shape]; rfl
  have indexed : Indexed (compacted oldArr snap log) := compacted_indexed laid.indexed
  rw [logCompaction, compactEdges_ok, ok_bind]
  cases mixed : info.isMixedWorkloads
  · refine ⟨_, bitmap', rfl, clean', ⟨by simpa using room', by simpa using edge, by simp, rfl,
      by simpa using indexed, by simpa [GlobalInfo.freshStamps, mixed] using unstamped,
      by simp [GlobalInfo.freshStamps, mixed]⟩, rfl, rfl, rfl, unread, cap⟩
  · refine ⟨_, bitmap', rfl, clean', ⟨by simpa using room', by simpa using edge, by simp, rfl,
      by simpa using indexed, by simp [GlobalInfo.freshStamps, mixed],
      by simp [GlobalInfo.freshStamps, mixed]⟩, rfl, rfl, rfl, unread, cap⟩

end Radix
