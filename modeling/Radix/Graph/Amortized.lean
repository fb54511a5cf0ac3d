import Radix.Graph.Bounds
import Radix.Lib.Amortized

/-!
# What an update costs

Every entry of a log pays for its part of the next compaction. The capacity of a compacted array is at
least its number of edges times the expand rate, so a full array has a log that is long enough to pay for
its snapshot too.
-/

namespace Radix

open Lib Lib.LastWrite Lib.Traced

variable {W : Type} [Zero W]

namespace Platform

theorem floor_le_round (P : Platform W) (x : ℚ) : (⌊x⌋ : ℚ) ≤ P.round x := by
  have := P.round_mono (Int.floor_le x)
  rwa [P.round_int] at this

theorem mul_le_snapshotCapacity (P : Platform W) (deg : Nat) (expandRate : ℚ) :
    deg * expandRate ≤ P.snapshotCapacity deg expandRate := by
  have below := Int.lt_floor_add_one ((deg : ℚ) * expandRate)
  have first := P.floor_le_round (deg * expandRate)
  have second := P.round_mono (show ((⌊(deg : ℚ) * expandRate⌋ + 8 : ℤ) : ℚ) ≤ P.round (deg * expandRate) + 8 by
    push_cast
    linarith)
  rw [P.round_int] at second
  have third : (⌊(deg : ℚ) * expandRate⌋ + 8 : ℤ) ≤ P.snapshotCapacity deg expandRate :=
    (Int.le_floor.mpr second).trans (Int.self_le_toNat _)
  have : ((⌊(deg : ℚ) * expandRate⌋ + 8 : ℤ) : ℚ) ≤ P.snapshotCapacity deg expandRate := by exact_mod_cast third
  push_cast at this
  linarith

theorem mul_le_capacity (P : Platform W) (deg : Nat) (expandRate : ℚ) (overflow : Nat) :
    deg * expandRate ≤ P.capacity deg expandRate overflow := by
  have below := Int.lt_floor_add_one ((deg : ℚ) * expandRate)
  have first := P.floor_le_round (deg * expandRate)
  have second := P.round_mono (show ((⌊(deg : ℚ) * expandRate⌋ + overflow : ℤ) : ℚ) ≤
      P.round (deg * expandRate) + overflow by
    push_cast
    linarith)
  rw [P.round_int] at second
  have third := P.round_mono (show ((⌊(deg : ℚ) * expandRate⌋ + overflow + 8 : ℤ) : ℚ) ≤
      P.round (P.round (deg * expandRate) + overflow) + 8 by
    push_cast at second ⊢
    linarith)
  rw [P.round_int] at third
  have fourth : (⌊(deg : ℚ) * expandRate⌋ + overflow + 8 : ℤ) ≤ P.capacity deg expandRate overflow :=
    (Int.le_floor.mpr third).trans (Int.self_le_toNat _)
  have : ((⌊(deg : ℚ) * expandRate⌋ + overflow + 8 : ℤ) : ℚ) ≤ P.capacity deg expandRate overflow := by
    exact_mod_cast fourth
  push_cast at this
  have nonneg : (0 : ℚ) ≤ overflow := Nat.cast_nonneg overflow
  linarith

end Platform

namespace WeightedEdgeArray

def logged (arr : WeightedEdgeArray W) : Nat := arr.physicalSize - arr.snapshotDeg

def Roomy (r : ℚ) (arr : WeightedEdgeArray W) : Prop := arr.snapshotDeg * r ≤ arr.cap

end WeightedEdgeArray

namespace Tracing

/-! ## What a compaction costs -/

theorem read_costs (load : WeightedEdgeArray W → Nat → Access W) (arr : WeightedEdgeArray W) (i : Nat) :
    (read load arr i).Costs 1 :=
  costs_bind (costs_report _) fun _ _ => costs_liftM _

theorem store_costs (arr : WeightedEdgeArray W) (i : Nat) (e : WeightedEdge W) : (store arr i e).Costs 1 :=
  costs_bind (costs_report _) fun _ _ => costs_liftM _

theorem copyEdges_costs (load : WeightedEdgeArray W → Nat → Access W) (src dst : WeightedEdgeArray W) (i n : Nat) :
    (copyEdges load src dst i n).Costs (2 * n) := by
  induction n generalizing i dst with
  | zero => exact costs_pure dst
  | succ n ih =>
      rw [copyEdges]
      apply (costs_bind (read_costs load src i) fun e _ => ?_).mono (show 1 + (1 + 2 * n) ≤ 2 * (n + 1) by omega)
      exact costs_bind (store_costs dst i e) fun dst' _ => ih dst' (i + 1)

theorem clearMarks_costs (skipUnwritten : Bool) (arr : WeightedEdgeArray W) (i n : Nat) (bitmap : SegmentedBitmap) :
    (clearMarks skipUnwritten arr i n bitmap).Costs n := by
  induction n generalizing i bitmap with
  | zero => exact costs_pure bitmap
  | succ n ih =>
      rw [clearMarks]
      apply (costs_bind (read_costs .load arr i) fun e _ => ?_).mono (Nat.add_comm 1 n).le
      split
      · exact ih (i + 1) bitmap
      · exact costs_lift_bind fun bit _ => ih (i + 1) (bitmap.clearBit bit)

theorem pushCompacted_room {acc : WeightedEdgeArray W × Nat} (room : acc.2 < acc.1.cap) (e : WeightedEdge W) :
    (pushCompacted acc e).Costs 1 ∧ ∀ acc', (pushCompacted acc e).result = .ok acc' →
      acc'.1.cap = acc.1.cap ∧ acc'.2 = acc.2 + 1 := by
  obtain ⟨arr, num⟩ := acc
  rw [pushCompacted, if_neg (Nat.not_le.mpr room)]
  constructor
  · apply (costs_bind (costs_pure arr) fun arr' _ => ?_).mono (Nat.zero_add 1).le
    exact costs_bind (store_costs arr' num _) fun _ _ => costs_pure _
  · intro acc' pushed
    rw [bind_result, pure_result, ok_bind, bind_result, store_result] at pushed
    obtain ⟨arr', stored, ⟨⟩⟩ := bind_eq_ok.mp pushed
    exact ⟨store_cap stored, rfl⟩

theorem pushCompacted_num {acc acc' : WeightedEdgeArray W × Nat} {e : WeightedEdge W}
    (pushed : (pushCompacted acc e).result = .ok acc') : acc'.2 = acc.2 + 1 := by
  obtain ⟨arr, num⟩ := acc
  rw [pushCompacted_result, Radix.pushCompacted] at pushed
  split at pushed
  · obtain ⟨arr₁, -, pushed⟩ := bind_eq_ok.mp pushed
    obtain ⟨arr₂, -, ⟨⟩⟩ := bind_eq_ok.mp pushed
    rfl
  · obtain ⟨arr₁, -, pushed⟩ := bind_eq_ok.mp pushed
    obtain ⟨arr₂, -, ⟨⟩⟩ := bind_eq_ok.mp pushed
    rfl

variable [DecidableEq W]

theorem backwardScan_num {skipUnwritten : Bool} {arr : WeightedEdgeArray W} {n : Nat}
    {acc : WeightedEdgeArray W × Nat} {bitmap : SegmentedBitmap} {out : (WeightedEdgeArray W × Nat) × SegmentedBitmap}
    (ran : (backwardScan pushCompacted skipUnwritten arr n acc bitmap).result = .ok out) : acc.2 ≤ out.1.2 := by
  induction n generalizing acc bitmap with
  | zero =>
      cases ran
      exact le_rfl
  | succ i ih =>
      rw [backwardScan, bind_result] at ran
      obtain ⟨e, -, ran⟩ := bind_eq_ok.mp ran
      split at ran
      · exact ih ran
      · rw [bind_result] at ran
        obtain ⟨bit, -, ran⟩ := bind_eq_ok.mp ran
        split at ran
        · exact ih ran
        · by_cases live : e.live
          · simp only [if_pos live, bind_result] at ran
            obtain ⟨acc', pushed, ran⟩ := bind_eq_ok.mp ran
            have more := pushCompacted_num pushed
            have rest := ih ran
            omega
          · simp only [if_neg live, bind_result, pure_result, ok_bind] at ran
            exact ih ran

theorem backwardScan_costs {skipUnwritten : Bool} {arr : WeightedEdgeArray W} {n : Nat}
    {acc : WeightedEdgeArray W × Nat} {bitmap : SegmentedBitmap} {out : (WeightedEdgeArray W × Nat) × SegmentedBitmap}
    (ran : (backwardScan pushCompacted skipUnwritten arr n acc bitmap).result = .ok out)
    (room : out.1.2 ≤ acc.1.cap) : (backwardScan pushCompacted skipUnwritten arr n acc bitmap).Costs (2 * n) := by
  induction n generalizing acc bitmap with
  | zero => exact costs_pure _
  | succ i ih =>
      rw [backwardScan, bind_result] at ran
      obtain ⟨e, loaded, ran⟩ := bind_eq_ok.mp ran
      rw [backwardScan]
      apply (costs_bind (n := 2 * i + 1) (read_costs .load arr i) fun e' loaded' => ?_).mono (by omega)
      obtain rfl : e = e' := Except.ok.inj (loaded.symm.trans loaded')
      have later : 2 * i ≤ 2 * i + 1 := Nat.le_succ _
      split at ran
      · rename_i skipped
        rw [if_pos skipped]
        exact (ih ran room).mono later
      · rename_i unskipped
        rw [if_neg unskipped]
        rw [bind_result] at ran
        obtain ⟨bit, found, ran⟩ := bind_eq_ok.mp ran
        apply costs_lift_bind
        intro bit' found'
        obtain rfl : bit = bit' := Except.ok.inj (found.symm.trans found')
        split at ran
        · rename_i marked
          rw [if_pos marked]
          exact (ih ran room).mono later
        · rename_i unmarked
          rw [if_neg unmarked]
          by_cases live : e.live
          · simp only [if_pos live, bind_result] at ran ⊢
            obtain ⟨acc', pushed, ran⟩ := bind_eq_ok.mp ran
            have more := pushCompacted_num pushed
            have rest := backwardScan_num ran
            obtain ⟨one, kept⟩ := pushCompacted_room (show acc.2 < acc.1.cap by omega) e
            apply (costs_bind one fun acc'' pushed' => ?_).mono (Nat.add_comm 1 (2 * i)).le
            obtain rfl : acc' = acc'' := Except.ok.inj (pushed.symm.trans pushed')
            exact ih ran ((kept acc' pushed).1 ▸ room)
          · simp only [if_neg live, bind_result, pure_result, ok_bind] at ran ⊢
            apply (costs_bind (costs_pure acc) fun acc' same => ?_).mono (show 0 + 2 * i ≤ 2 * i + 1 by omega)
            cases same
            exact ih ran room

section Compaction

variable {arr : WeightedEdgeArray W} {snap log : List (WeightedEdge W)} {stamps : Option (List Int)}

theorem logCompaction_costs (laid : Laid arr snap log stamps) {m : Nat} (info : GlobalInfo)
    {bitmap : SegmentedBitmap} (clean : bitmap.Clean) (fits : (compacted arr snap log).length ≤ m) :
    (logCompaction info bitmap arr (.new m)).Costs (2 * arr.physicalSize + arr.logged) := by
  have room (insertions : (arr.physicalSize : Int) = arr.deg) : arr.physicalSize ≤ m := by
    rwa [compacted, if_pos insertions, List.length_append, ← laid.physicalSize] at fits
  obtain ⟨newArr, bitmap', moved, -, -, -⟩ := compactEdges_spec laid clean room
  suffices costs : (compactEdges bitmap arr (.new m)).Costs (2 * arr.physicalSize + arr.logged) from
    (costs_bind (n := 0) costs fun _ _ => costs_pure _).mono le_rfl
  rw [← compactEdges_result] at moved
  unfold compactEdges at moved ⊢
  split at moved
  · rename_i insertions
    rw [if_pos insertions]
    apply (costs_bind (copyEdges_costs .load arr (.new m) 0 arr.physicalSize) fun _ _ => costs_pure _).mono
    omega
  · rename_i more
    rw [if_neg more]
    rw [bind_result] at moved
    obtain ⟨out, walked, moved⟩ := bind_eq_ok.mp moved
    have same : out.1.2 = (compacted arr snap log).length := by
      rw [bind_result] at moved
      obtain ⟨cleared, -, moved⟩ := bind_eq_ok.mp moved
      exact congrArg (fun r => r.1.2) (Except.ok.inj moved)
    apply costs_bind (backwardScan_costs walked (same ▸ fits))
    intro out' _
    exact costs_bind (clearMarks_costs _ _ _ _ _) fun _ _ => costs_pure _

end Compaction

/-! ## What an update costs -/

def credit (r : ℚ) : ℚ := 3 + 2 / (r - 1)

def price (r : ℚ) : ℚ := 2 + credit r

theorem credit_nonneg {r : ℚ} (one : 1 < r) : 0 ≤ credit r := by
  have : 0 ≤ 2 / (r - 1) := div_nonneg (by norm_num) (by linarith)
  rw [credit]
  linarith

omit [DecidableEq W] in
theorem compaction_paid {r : ℚ} (one : 1 < r) {arr : WeightedEdgeArray W} (below : arr.snapshotDeg ≤ arr.physicalSize)
    (full : arr.physicalSize = arr.cap) (roomy : arr.Roomy r) :
    ((2 * arr.physicalSize + arr.logged : ℕ) : ℚ) ≤ credit r * arr.logged := by
  have positive : 0 < r - 1 := by linarith
  have split : (arr.physicalSize : ℚ) = arr.snapshotDeg + arr.logged := by
    rw [WeightedEdgeArray.logged]
    push_cast [below]
    ring
  have enough : (arr.snapshotDeg : ℚ) ≤ 1 / (r - 1) * arr.logged := by
    rw [one_div_mul_eq_div, le_div_iff₀ positive]
    have roomy : arr.snapshotDeg * r ≤ arr.cap := roomy
    rw [← full, split] at roomy
    linarith
  have shape : credit r * arr.logged = 3 * arr.logged + 2 * (1 / (r - 1) * arr.logged) := by
    rw [credit]
    ring
  push_cast
  rw [split, shape]
  linarith

section Insert

variable {head : WeightedEdgeArray W} {snap log : List (WeightedEdge W)} {stamps : Option (List Int)}
  {chain : List (WeightedEdgeArray W)}

theorem expand_paid (P : Platform W) {expandRate r : ℚ} (one : 1 < r) (least : r ≤ expandRate) (info : GlobalInfo)
    {bitmap : SegmentedBitmap} (clean : bitmap.Clean) {older : List (WeightedEdgeArray W)}
    (laid : Laid head snap log stamps) (retired : Retired older) (unread : head.threadsRead = 0)
    (full : head.physicalSize = head.cap) (counted : head.deg = (compacted head snap log).length) :
    ∃ chain' head' bitmap', (expand P expandRate info bitmap (head :: older)).result =
        .ok (chain', bitmap', info.tick) ∧ bitmap'.Clean ∧
      Stored chain' head' (compacted head snap log) [] info.freshStamps ∧ head'.physicalSize < head'.cap ∧
      head'.Roomy r ∧ (expand P expandRate info bitmap (head :: older)).Costs (2 * head.physicalSize + head.logged) := by
  have rate : 1 < expandRate := one.trans_le least
  let m := P.capacity (max head.deg 0).toNat expandRate (head.size - head.cap + 1)
  have deg : (max head.deg 0).toNat = (compacted head snap log).length := by omega
  have more : (compacted head snap log).length + 9 ≤ m := by
    have := P.capacity_ge (max head.deg 0).toNat (head.size - head.cap + 1) rate
    omega
  have longer : ((compacted head snap log).length : ℚ) * r ≤ m := by
    have bound := P.mul_le_capacity (max head.deg 0).toNat expandRate (head.size - head.cap + 1)
    rw [deg] at bound
    refine (mul_le_mul_of_nonneg_left least (Nat.cast_nonneg _)).trans ?_
    simpa only [m, deg] using bound
  have costs := logCompaction_costs laid info clean (show (compacted head snap log).length ≤ m by omega)
  obtain ⟨newArr, bitmap', compaction, clean', laid', -, size, -, unread', cap⟩ :=
    logCompaction_spec laid info clean (m := m) (fun insertions => by
      rw [compacted, if_pos insertions, List.length_append, ← laid.physicalSize] at more
      omega)
  have physical : newArr.physicalSize = (compacted head snap log).length := by
    simpa using laid'.physicalSize
  refine ⟨newArr :: retire head older, newArr, bitmap', ?_, clean',
    ⟨⟨_, rfl, retire_retired unread retired⟩, laid', size, unread'⟩, by omega, ?_, ?_⟩
  · rw [expand_result]
    simp only [Radix.expand, full, ne_eq, not_true_eq_false, if_false]
    rw [show P.capacity (max head.deg 0).toNat expandRate (head.size - head.cap + 1) = m from rfl, compaction,
      ok_bind]
  · rw [WeightedEdgeArray.Roomy, laid'.snapshotDeg]
    exact longer.trans (by exact_mod_cast cap)
  · rw [expand, if_neg (by simpa using full)]
    exact (costs_bind (n := 0) costs fun _ _ => costs_pure _).mono le_rfl

theorem claimSlot_paid (P : Platform W) {expandRate r : ℚ} (one : 1 < r) (least : r ≤ expandRate)
    (info : GlobalInfo) {bitmap : SegmentedBitmap} (clean : bitmap.Clean) (stored : Stored chain head snap log stamps)
    (counted : head.deg = (compacted head snap log).length) (roomy : head.Roomy r) :
    ∃ chain' head' bitmap' info' snap' log' stamps',
      (claimSlot P expandRate insertRounds info bitmap chain).result =
        .ok (head'.physicalSize, chain', bitmap', info') ∧
      Claimed chain' head' snap' log' stamps' ∧ head'.Roomy r ∧
      ((claimSlot P expandRate insertRounds info bitmap chain).events.length : ℚ) + credit r * head'.logged ≤
        credit r * head.logged := by
  obtain ⟨older, rfl, retired⟩ := stored.chain
  rw [insertRounds, claimSlot]
  by_cases room : head.size < head.cap
  · rw [if_pos room]
    refine ⟨head.claim :: older, head.claim, bitmap, info, snap, log, stamps, ?_,
      ⟨⟨older, rfl, retired⟩, stored.laid.claim, congrArg (· + 1) stored.size, stored.threadsRead,
        stored.size ▸ room⟩, roomy, ?_⟩
    · rw [pure_result, stored.size]
      rfl
    · simp [pure, WeightedEdgeArray.claim, WeightedEdgeArray.logged]
  · have bound := stored.laid.physicalSize_le
    have full : head.physicalSize = head.cap := by
      rw [stored.size] at room
      omega
    obtain ⟨chain', head', bitmap', expanded, clean', stored', room', roomy', costs⟩ :=
      expand_paid P one least info clean stored.laid.claim retired stored.threadsRead full counted
    obtain ⟨chain'', claimed, there⟩ := claimSlot_room P expandRate 1 info.tick bitmap' stored' room'
    have cheap : (claimSlot P expandRate 2 info.tick bitmap' chain').events = [] := by
      obtain ⟨older', rfl, -⟩ := stored'.chain
      rw [claimSlot, if_pos (by rw [stored'.size]; exact room')]
      rfl
    rw [if_neg room, bind_result, bind_events expanded, expanded, ok_bind, claimSlot_result, cheap, List.append_nil]
    refine ⟨chain'', head'.claim, bitmap', info.tick, _, _, _, claimed, there, roomy', ?_⟩
    have empty : head'.claim.logged = 0 := by
      have physical := stored'.laid.physicalSize
      have boundary := stored'.laid.snapshotDeg
      simp only [WeightedEdgeArray.claim, WeightedEdgeArray.logged, physical, boundary, List.length_nil]
      omega
    have paid := compaction_paid one stored.laid.snapshotDeg_le full roomy
    rw [empty, Nat.cast_zero, mul_zero, add_zero]
    exact (Nat.cast_le.mpr costs).trans paid

theorem insert_paid (P : Platform W) {expandRate r : ℚ} (one : 1 < r) (least : r ≤ expandRate) (info : GlobalInfo)
    {bitmap bitmap' : SegmentedBitmap} {info' : GlobalInfo} (clean : bitmap.Clean) {src src' : Vertex W}
    (stored : Stored src.next head snap log stamps) (counted : head.deg = (compacted head snap log).length)
    (roomy : head.Roomy r) {des : Int} (nonneg : 0 ≤ des) (weight : W) (delta : Int)
    (ran : (insert P expandRate info bitmap src des weight delta).result = .ok (src', bitmap', info')) :
    ∃ head' older, src'.next = head' :: older ∧ head'.Roomy r ∧
      ((insert P expandRate info bitmap src des weight delta).events.length : ℚ) + credit r * head'.logged ≤
        credit r * head.logged + price r := by
  obtain ⟨chain₁, head₁, bitmap₁, info₁, snap₁, log₁, stamps₁, claim, claimed, roomy₁, paid⟩ :=
    claimSlot_paid P one least info clean stored counted roomy
  obtain ⟨older, head', rfl, written, stored', -, -, cap⟩ :=
    claimed.write info₁ (e := { weight := weight, idx := des }) nonneg delta
  simp only [bind_eq_ok, Prod.exists, Except.ok.injEq, Prod.mk.injEq] at written
  obtain ⟨next, info₂, stamped, next', entered, rfl, -⟩ := written
  have shape : src'.next = { next' with physicalSize := next'.physicalSize + 1 } :: older := by
    rw [insert, bind_result, claim, ok_bind] at ran
    simp only [bind_result, stampSlot_result, stamped, ok_bind, store_result, entered, pure_result] at ran
    cases ran
    rfl
  have boundary : ({ next' with physicalSize := next'.physicalSize + 1 } : WeightedEdgeArray W).snapshotDeg =
      head₁.snapshotDeg := stored'.laid.snapshotDeg.trans claimed.laid.snapshotDeg.symm
  have longer : ({ next' with physicalSize := next'.physicalSize + 1 } : WeightedEdgeArray W).logged =
      head₁.logged + 1 := by
    have before := claimed.laid.physicalSize
    have after := stored'.laid.physicalSize
    have below := claimed.laid.snapshotDeg
    simp only [List.length_append, List.length_singleton] at after
    simp only [WeightedEdgeArray.logged] at boundary ⊢
    omega
  refine ⟨_, older, shape, ?_, ?_⟩
  · rw [WeightedEdgeArray.Roomy, boundary, cap]
    exact roomy₁
  · rw [insert, bind_events claim, List.length_append, longer, price]
    have together {a b : ℕ} (first : (a : ℚ) + credit r * head₁.logged ≤ credit r * head.logged) (second : b ≤ 2) :
        ((a + b : ℕ) : ℚ) + credit r * (head₁.logged + 1 : ℕ) ≤ credit r * head.logged + (2 + credit r) := by
      have two : (b : ℚ) ≤ (2 : ℕ) := Nat.cast_le.mpr second
      push_cast at two ⊢
      linarith
    apply together paid
    apply costs_bind (m := 1) (n := 1)
    · rw [stampSlot]
      split
      · exact (costs_pure _).mono (Nat.zero_le 1)
      · exact costs_bind (costs_report _) fun _ _ => costs_liftM _
    · intro r _
      exact costs_bind (n := 0) (store_costs _ _ _) fun _ _ => costs_pure _

end Insert

end Tracing

end Radix
