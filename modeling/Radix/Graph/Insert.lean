import Radix.Graph.Neighbours

/-!
# Writing a log entry

`RadixGraph::Insert` for one caller at a time: claim a slot of the current array, expanding the array
as long as the claimed slot lies beyond its capacity, and write the entry there. Alone, the caller
finds every lock free and the array it loaded still current.
-/

namespace Radix

open Lib Lib.LastWrite

variable {W : Type} [Zero W]

def dropPrevious : List (WeightedEdgeArray W) → List (WeightedEdgeArray W)
  | [] => []
  | tmp :: rest => if tmp.threadsRead = 0 then rest else tmp :: rest

/-- What happens to a replaced version without a reader: its arrays are freed. -/
def retire (next : WeightedEdgeArray W) (older : List (WeightedEdgeArray W)) :
    List (WeightedEdgeArray W) :=
  if next.threadsRead = 0 then { next with edge := none, timestamp := none } :: dropPrevious older
  else next :: older

def WeightedEdgeArray.claim (arr : WeightedEdgeArray W) : WeightedEdgeArray W :=
  { arr with size := arr.size + 1 }

/-- The section of `Insert` under the vertex lock that replaces a full array. -/
def expand [DecidableEq W] (P : Platform W) (expandRate : ℚ) (info : GlobalInfo)
    (bitmap : SegmentedBitmap) :
    List (WeightedEdgeArray W) → Result (List (WeightedEdgeArray W) × SegmentedBitmap × GlobalInfo)
  | [] => .error .nullPointer
  | next :: older =>
      -- `while (physical_size != cap) {}` never ends when nobody else writes
      if next.physicalSize ≠ next.cap then .error .hang
      else do
        let deg := (max next.deg 0).toNat
        let newArray := .new (P.capacity deg expandRate (next.size - next.cap + 1))
        let (newArray, bitmap, info) ← logCompaction info bitmap next newArray
        .ok (newArray :: retire next older, bitmap, info)

/-- `i = next->size.fetch_add(1)`, and the loop `while (i >= next->cap)` around it for a bounded
number of rounds. -/
def claimSlot [DecidableEq W] (P : Platform W) (expandRate : ℚ) :
    Nat → GlobalInfo → SegmentedBitmap → List (WeightedEdgeArray W) →
      Result (Nat × List (WeightedEdgeArray W) × SegmentedBitmap × GlobalInfo)
  | 0, _, _, _ => .error .hang
  | _ + 1, _, _, [] => .error .nullPointer
  | rounds + 1, info, bitmap, next :: older => do
      let i := next.size
      let chain := next.claim :: older
      if i < next.cap then .ok (i, chain, bitmap, info)
      else do
        let (chain, bitmap, info) ← expand P expandRate info bitmap chain
        claimSlot P expandRate rounds info bitmap chain

/-- `if (next->timestamp) next->timestamp[i - next->snapshot_deg] = GetGlobalTimestamp();` -/
def stampSlot (next : WeightedEdgeArray W) (info : GlobalInfo) (i : Nat) :
    Result (WeightedEdgeArray W × GlobalInfo) :=
  if next.timestamp.isNone then .ok (next, info)
  else if i < next.snapshotDeg then .error .outOfBounds
  else do
    let next ← next.storeStamp (i - next.snapshotDeg) info.globalTimestamp
    .ok (next, info.tick)

/-- The claims a single caller can make: its first, and one after each of two expansions. -/
def insertRounds : Nat := 3

def insert [DecidableEq W] (P : Platform W) (expandRate : ℚ) (info : GlobalInfo)
    (bitmap : SegmentedBitmap) (src : Vertex W) (des : Int) (weight : W) (deltaDeg : Int) :
    Result (Vertex W × SegmentedBitmap × GlobalInfo) := do
  let (i, chain, bitmap, info) ← claimSlot P expandRate insertRounds info bitmap src.next
  match chain with
  | [] => .error .nullPointer
  | next :: older => do
      let (next, info) ← stampSlot next info i
      let next := { next with deg := next.deg + deltaDeg }
      let next ← next.store i { weight := weight, idx := des }
      let next := { next with physicalSize := next.physicalSize + 1 }
      .ok ({ src with next := next :: older }, bitmap, info)

/-! ## The chain of versions between operations -/

def Retired (older : List (WeightedEdgeArray W)) : Prop :=
  ∀ arr ∈ older, arr.edge = none ∧ arr.threadsRead = 0

structure Stored (chain : List (WeightedEdgeArray W)) (head : WeightedEdgeArray W)
    (snap log : List (WeightedEdge W)) (stamps : Option (List Int)) : Prop where
  chain : ∃ older, chain = head :: older ∧ Retired older
  laid : Laid head snap log stamps
  size : head.size = head.physicalSize
  threadsRead : head.threadsRead = 0

structure Claimed (chain : List (WeightedEdgeArray W)) (head : WeightedEdgeArray W)
    (snap log : List (WeightedEdge W)) (stamps : Option (List Int)) : Prop where
  chain : ∃ older, chain = head :: older ∧ Retired older
  laid : Laid head snap log stamps
  size : head.size = head.physicalSize + 1
  threadsRead : head.threadsRead = 0
  slot : head.physicalSize < head.cap

theorem retire_retired {next : WeightedEdgeArray W} {older : List (WeightedEdgeArray W)}
    (unread : next.threadsRead = 0) (retired : Retired older) : Retired (retire next older) := by
  rw [retire, if_pos unread]
  intro arr member
  rcases List.mem_cons.mp member with rfl | member
  · exact ⟨rfl, unread⟩
  · cases older with
    | nil => cases member
    | cons tmp rest =>
        rw [dropPrevious] at member
        split at member
        · exact retired arr (by simp [member])
        · exact retired arr member

theorem Laid.claim {arr : WeightedEdgeArray W} {snap log : List (WeightedEdge W)}
    {stamps : Option (List Int)} (laid : Laid arr snap log stamps) : Laid arr.claim snap log stamps :=
  ⟨laid.room, laid.edge, laid.physicalSize, laid.snapshotDeg, laid.indexed,
    laid.timestamp, laid.stamped⟩

variable [DecidableEq W]

theorem expand_spec (P : Platform W) {expandRate : ℚ} (rate : 1 < expandRate) (info : GlobalInfo)
    {bitmap : SegmentedBitmap} (clean : bitmap.Clean) {head : WeightedEdgeArray W}
    {older : List (WeightedEdgeArray W)} {snap log : List (WeightedEdge W)}
    {stamps : Option (List Int)} (laid : Laid head snap log stamps) (retired : Retired older)
    (unread : head.threadsRead = 0) (full : head.physicalSize = head.cap) :
    ∃ chain' head' bitmap', expand P expandRate info bitmap (head :: older) =
        .ok (chain', bitmap', info.tick) ∧ bitmap'.Clean ∧
      Stored chain' head' (compacted head snap log) [] info.freshStamps ∧
      head'.deg = head'.physicalSize ∧ head'.snapshotTimestamp = info.globalTimestamp ∧
      ((head.physicalSize : Int) = head.deg → head'.physicalSize < head'.cap) := by
  have enough := P.capacity_ge (max head.deg 0).toNat (head.size - head.cap + 1) rate
  obtain ⟨newArr, bitmap', compaction, clean', laid', deg, size, timestamp, unread', cap⟩ :=
    logCompaction_spec laid info clean (m := P.capacity (max head.deg 0).toNat expandRate
      (head.size - head.cap + 1)) (by omega)
  refine ⟨newArr :: retire head older, newArr, bitmap', ?_, clean',
    ⟨⟨_, rfl, retire_retired unread retired⟩, laid', size, unread'⟩, deg, timestamp, fun insertions => ?_⟩
  · simp only [expand, full, ne_eq, not_true_eq_false, if_false, compaction, ok_bind]
  · have length := laid'.physicalSize
    rw [compacted, if_pos insertions, List.length_append, ← laid.physicalSize] at length
    simp only [List.length_nil, Nat.add_zero] at length
    omega

inductive Prepared (info : GlobalInfo) (head : WeightedEdgeArray W) (snap log : List (WeightedEdge W))
    (stamps : Option (List Int)) (info' : GlobalInfo) (head' : WeightedEdgeArray W)
    (snap' log' : List (WeightedEdge W)) (stamps' : Option (List Int)) : Prop where
  | room : info' = info → snap' = snap → log' = log → stamps' = stamps → head'.deg = head.deg →
      head'.snapshotTimestamp = head.snapshotTimestamp → Prepared ..
  | full : info.ticks < info'.ticks → info'.isMixedWorkloads = info.isMixedWorkloads →
      snap' = compacted head snap log → log' = [] → stamps' = info.freshStamps →
      head'.deg = snap'.length →
      head'.snapshotTimestamp = GlobalInfo.timestampAt (info'.ticks - 1) → Prepared ..

theorem claimSlot_room (P : Platform W) (expandRate : ℚ) (rounds : Nat) (info : GlobalInfo)
    (bitmap : SegmentedBitmap) {chain : List (WeightedEdgeArray W)} {head : WeightedEdgeArray W}
    {snap log : List (WeightedEdge W)} {stamps : Option (List Int)}
    (stored : Stored chain head snap log stamps) (room : head.physicalSize < head.cap) :
    ∃ chain', claimSlot P expandRate (rounds + 1) info bitmap chain =
        .ok (head.physicalSize, chain', bitmap, info) ∧ Claimed chain' head.claim snap log stamps := by
  obtain ⟨older, rfl, retired⟩ := stored.chain
  refine ⟨_, ?_, ⟨older, rfl, retired⟩, stored.laid.claim, ?_, stored.threadsRead, room⟩
  · simp only [claimSlot, stored.size, room, if_true]
  · exact congrArg (· + 1) stored.size

theorem claimSlot_full (P : Platform W) {expandRate : ℚ} (rate : 1 < expandRate) (rounds : Nat)
    (info : GlobalInfo) {bitmap : SegmentedBitmap} (clean : bitmap.Clean)
    {chain : List (WeightedEdgeArray W)} {head : WeightedEdgeArray W}
    {snap log : List (WeightedEdge W)} {stamps : Option (List Int)}
    (stored : Stored chain head snap log stamps) (full : ¬ head.physicalSize < head.cap) :
    ∃ chain' head' bitmap', claimSlot P expandRate (rounds + 1) info bitmap chain =
        claimSlot P expandRate rounds info.tick bitmap' chain' ∧ bitmap'.Clean ∧
      Stored chain' head' (compacted head snap log) [] info.freshStamps ∧
      head'.deg = head'.physicalSize ∧ head'.snapshotTimestamp = info.globalTimestamp ∧
      ((head.physicalSize : Int) = head.deg → head'.physicalSize < head'.cap) := by
  obtain ⟨older, rfl, retired⟩ := stored.chain
  have bound := stored.laid.room
  rw [← stored.laid.physicalSize] at bound
  obtain ⟨chain', head', bitmap', expanded, clean', stored', rest⟩ := expand_spec P rate info clean
    stored.laid.claim retired stored.threadsRead (show head.physicalSize = head.cap by omega)
  refine ⟨chain', head', bitmap', ?_, clean', stored', rest⟩
  simp only [claimSlot, stored.size, full, if_false, expanded, ok_bind]

theorem claimSlot_spec (P : Platform W) {expandRate : ℚ} (rate : 1 < expandRate) (info : GlobalInfo)
    {bitmap : SegmentedBitmap} (clean : bitmap.Clean) {chain : List (WeightedEdgeArray W)}
    {head : WeightedEdgeArray W} {snap log : List (WeightedEdge W)} {stamps : Option (List Int)}
    (stored : Stored chain head snap log stamps) :
    ∃ chain' head' bitmap' info' snap' log' stamps',
      claimSlot P expandRate insertRounds info bitmap chain =
        .ok (head'.physicalSize, chain', bitmap', info') ∧ bitmap'.Clean ∧
      Claimed chain' head' snap' log' stamps' ∧
      Prepared info head snap log stamps info' head' snap' log' stamps' ∧
      (head.physicalSize < head.cap ∧ head'.cap = head.cap ∧ info'.ticks = info.ticks ∨
        head.cap ≤ head.physicalSize ∧ info.ticks < info'.ticks) := by
  by_cases room : head.physicalSize < head.cap
  · obtain ⟨chain', claim, claimed⟩ := claimSlot_room P expandRate 2 info bitmap stored room
    exact ⟨chain', head.claim, bitmap, info, snap, log, stamps, claim, clean, claimed,
      .room rfl rfl rfl rfl rfl rfl, .inl ⟨room, rfl, rfl⟩⟩
  · obtain ⟨chain₁, head₁, bitmap₁, first, clean₁, stored₁, deg₁, timestamp₁, -⟩ :=
      claimSlot_full P rate 2 info clean stored room
    by_cases room₁ : head₁.physicalSize < head₁.cap
    · obtain ⟨chain', claim, claimed⟩ :=
        claimSlot_room P expandRate 1 info.tick bitmap₁ stored₁ room₁
      refine ⟨chain', head₁.claim, bitmap₁, info.tick, _, _, _, first.trans claim, clean₁, claimed,
        .full (by simp) rfl rfl rfl rfl ?_ timestamp₁, .inr ⟨Nat.not_lt.mp room, by simp⟩⟩
      simpa [WeightedEdgeArray.claim, stored₁.laid.physicalSize] using deg₁
    · obtain ⟨chain₂, head₂, bitmap₂, second, clean₂, stored₂, deg₂, timestamp₂, room₂⟩ :=
        claimSlot_full P rate 1 info.tick clean₁ stored₁ room₁
      have copied : compacted head₁ (compacted head snap log) [] = compacted head snap log := by
        rw [compacted, if_pos deg₁.symm, List.append_nil]
      rw [copied] at stored₂
      have more : info.ticks < info.tick.tick.ticks := by
        simp only [GlobalInfo.tick_ticks]
        omega
      obtain ⟨chain', claim, claimed⟩ :=
        claimSlot_room P expandRate 0 info.tick.tick bitmap₂ stored₂ (room₂ deg₁.symm)
      refine ⟨chain', head₂.claim, bitmap₂, info.tick.tick, _, _, _, (first.trans second).trans claim,
        clean₂, claimed, .full more rfl rfl rfl rfl ?_ timestamp₂, .inr ⟨Nat.not_lt.mp room, more⟩⟩
      simpa [WeightedEdgeArray.claim, stored₂.laid.physicalSize] using deg₂

/-! ## Writing the claimed slot -/

omit [DecidableEq W] in
theorem stampSlot_spec {head : WeightedEdgeArray W} {snap log : List (WeightedEdge W)}
    {stamps : Option (List Int)} (laid : Laid head snap log stamps) (info : GlobalInfo)
    (slot : head.physicalSize < head.cap) :
    stampSlot head info head.physicalSize = .ok
      ({ head with timestamp := stamps.map fun ts => (ts ++ [info.globalTimestamp]).map some ++
          List.replicate (head.cap - (snap.length + (log.length + 1))) none },
        if stamps.isSome then info.tick else info) := by
  cases stamps with
  | none =>
      have unstamped : head.timestamp = none := laid.timestamp
      cases head
      simp_all [stampSlot]
  | some ts =>
      have length := laid.stamped ts rfl
      have offset : head.physicalSize - head.snapshotDeg = ts.length := by
        rw [laid.physicalSize, laid.snapshotDeg]
        omega
      have above : ¬ head.physicalSize < head.snapshotDeg := by
        rw [laid.physicalSize, laid.snapshotDeg]
        omega
      obtain ⟨free, more⟩ : ∃ free, head.cap - (snap.length + log.length) = free + 1 :=
        ⟨head.cap - (snap.length + log.length) - 1, by rw [laid.physicalSize] at slot; omega⟩
      have rest : head.cap - (snap.length + (log.length + 1)) = free := by omega
      simp only [stampSlot, laid.timestamp, Option.map_some, Option.isNone_some, Bool.false_eq_true,
        if_false, above, offset, WeightedEdgeArray.storeStamp]
      simp [more, rest, List.replicate_succ]

omit [DecidableEq W] in
theorem Claimed.write {chain : List (WeightedEdgeArray W)} {head : WeightedEdgeArray W}
    {snap log : List (WeightedEdge W)} {stamps : Option (List Int)}
    (claimed : Claimed chain head snap log stamps) (info : GlobalInfo) {e : WeightedEdge W}
    (nonneg : 0 ≤ e.idx) (delta : Int) :
    ∃ older head', chain = head :: older ∧ (do
        let (next, info) ← stampSlot head info head.physicalSize
        let next ← { next with deg := next.deg + delta }.store head.physicalSize e
        .ok ({ next with physicalSize := next.physicalSize + 1 }, info)) =
          .ok (head', if stamps.isSome then info.tick else info) ∧
      Stored (head' :: older) head' snap (log ++ [e])
        (stamps.map (· ++ [info.globalTimestamp])) ∧
      head'.deg = head.deg + delta ∧ head'.snapshotTimestamp = head.snapshotTimestamp ∧
      head'.cap = head.cap := by
  obtain ⟨older, same, retired⟩ := claimed.chain
  have laid := claimed.laid
  have slot := claimed.slot
  have position : head.physicalSize = (snap ++ log).length := by simp [laid.physicalSize]
  obtain ⟨free, more⟩ : ∃ free, head.cap - (snap.length + log.length) = free + 1 :=
    ⟨head.cap - (snap.length + log.length) - 1, by rw [laid.physicalSize] at slot; omega⟩
  have rest : head.cap - (snap.length + (log.length + 1)) = free := by omega
  refine ⟨older, { head with
    timestamp := stamps.map fun ts => (ts ++ [info.globalTimestamp]).map some ++
      List.replicate (head.cap - (snap.length + (log.length + 1))) none
    deg := head.deg + delta
    edge := some (snap ++ log ++ [e] ++ List.replicate free {})
    physicalSize := head.physicalSize + 1 }, same, ?_, ?_, rfl, rfl, rfl⟩
  · simp only [stampSlot_spec laid info slot, ok_bind, WeightedEdgeArray.store, laid.edge, more]
    rw [if_pos (by rw [position]; simp), ok_bind, position]
    simp [List.replicate_succ]
  · refine ⟨⟨older, rfl, retired⟩, ⟨?_, ?_, ?_, laid.snapshotDeg, ?_, ?_, ?_⟩, claimed.size,
      claimed.threadsRead⟩
    · rw [laid.physicalSize] at slot
      simp only [List.length_append, List.length_singleton]
      omega
    · simp [rest, List.append_assoc]
    · simp [laid.physicalSize, Nat.add_assoc]
    · intro d member
      rw [← List.append_assoc] at member
      rcases List.mem_append.mp member with old | new
      · exact laid.indexed d old
      · rwa [List.mem_singleton.mp new]
    · cases stamps <;> simp
    · intro ts present
      obtain ⟨old, found, rfl⟩ := Option.map_eq_some_iff.mp present
      simp [laid.stamped old found]

/-- `Insert` extends the log of the current version, or of its compaction, by one entry. -/
theorem insert_spec (P : Platform W) {expandRate : ℚ} (rate : 1 < expandRate) (info : GlobalInfo)
    {bitmap : SegmentedBitmap} (clean : bitmap.Clean) {src : Vertex W} {head : WeightedEdgeArray W}
    {snap log : List (WeightedEdge W)} {stamps : Option (List Int)}
    (stored : Stored src.next head snap log stamps) {des : Int} (nonneg : 0 ≤ des) (weight : W)
    (delta : Int) :
    ∃ chain' bitmap' info₁ head₁ head' snap' log' stamps',
      insert P expandRate info bitmap src des weight delta = .ok ({ src with next := chain' }, bitmap',
        if stamps'.isSome then info₁.tick else info₁) ∧ bitmap'.Clean ∧
      Prepared info head snap log stamps info₁ head₁ snap' log' stamps' ∧
      Stored chain' head' snap' (log' ++ [{ weight := weight, idx := des }])
        (stamps'.map (· ++ [info₁.globalTimestamp])) ∧
      head'.deg = head₁.deg + delta ∧ head'.snapshotTimestamp = head₁.snapshotTimestamp ∧
      (head.physicalSize < head.cap ∧ head'.cap = head.cap ∧ info₁.ticks = info.ticks ∨
        head.cap ≤ head.physicalSize ∧ info.ticks < info₁.ticks) := by
  obtain ⟨chain₁, head₁, bitmap', info₁, snap', log', stamps', claim, clean', claimed, prepared, room⟩ :=
    claimSlot_spec P rate info clean stored
  obtain ⟨older, head', rfl, written, stored', deg, timestamp, cap⟩ :=
    claimed.write info₁ (e := { weight := weight, idx := des }) nonneg delta
  refine ⟨head' :: older, bitmap', info₁, head₁, head', snap', log', stamps', ?_, clean', prepared,
    stored', deg, timestamp, cap ▸ room⟩
  simp only [bind_eq_ok, Prod.exists, Except.ok.injEq, Prod.mk.injEq] at written
  obtain ⟨next, info₂, stamped, next', entered, rfl, rfl⟩ := written
  simp only [insert, claim, ok_bind, stamped, entered]

end Radix
