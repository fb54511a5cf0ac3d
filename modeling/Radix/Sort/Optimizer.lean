import Mathlib.Algebra.Order.BigOperators.Ring.Finset
import Mathlib.Tactic.Linarith
import Radix.Lib.Chains
import Radix.Lib.Fallible
import Radix.Sort.Model

/-!
# The optimiser

`OptimalFanout` with its doubles read as rationals. Row `i` of its table holds, for every prefix sum,
the least expected size of the first `i + 1` levels of the tree.
-/

namespace Radix

open Lib

namespace Optimizer

def prob (u : Int) (n : Nat) (desc : Int) : ℚ :=
  if u - desc < n then 0
  else
    (List.range n).foldl (fun res (i : Nat) =>
      res * (((u - n - desc + (i + 1) : Int) : ℚ) / ((u - n + (i + 1) : Int) : ℚ))) 1

structure Cell where
  cost : ℚ
  pre : Int
  deriving DecidableEq

def unset : Cell := ⟨2 ^ 62, -1⟩

def relax (n bitLength : Nat) (above : List Cell) (j : Nat) (cell : Cell) (k : Nat) : Cell :=
  let before := (above.getD k unset).cost
  let u : ℚ := 2 ^ bitLength
  let cost := (1 - ((u - 2 ^ (bitLength - k)) / u) ^ n) * 2 ^ j
  if cell.cost ≤ before + cost then cell
  else
    let cost := (1 - prob (2 ^ bitLength) n (2 ^ (bitLength - k))) * 2 ^ j
    if before + cost < cell.cost then ⟨before + cost, k⟩ else cell

def nextRow (n bitLength : Nat) (above : List Cell) : List Cell :=
  (List.range (bitLength + 1)).map fun j => (List.range (j + 1)).foldl (relax n bitLength above j) unset

def row (n bitLength : Nat) : Nat → List Cell
  | 0 => (List.range (bitLength + 1)).map fun i => ⟨2 ^ i, -1⟩
  | i + 1 => nextRow n bitLength (row n bitLength i)

def readCell (cells : List Cell) (now : Int) : Result Cell :=
  if now < 0 then .error .outOfBounds
  else
    match cells[now.toNat]? with
    | none => .error .outOfBounds
    | some cell => .ok cell

def backtrack (n bitLength : Nat) : Nat → Int → Result (List Int)
  | 0, now => do
      let _ ← readCell (row n bitLength 0) now
      .ok [now]
  | i + 1, now => do
      let cell ← readCell (row n bitLength (i + 1)) now
      let s ← backtrack n bitLength i cell.pre
      .ok (s ++ [now])

def differences (s : List Int) : List Int := List.zipWith (· - ·) s (0 :: s)

def optimalFanout (n bitLength : Nat) : Nat → Result (List Int)
  | 0 => .error .outOfBounds
  | last + 1 => do
      let s ← backtrack n bitLength last bitLength
      .ok (differences s)

/-! ## Hit probabilities -/

theorem prob_eq_prod {u desc n : Nat} (room : n + desc ≤ u) :
    prob u n desc =
      ∏ i ∈ Finset.range n, (((u - n - desc + (i + 1) : Nat) : ℚ) / ((u - n + (i + 1) : Nat) : ℚ)) := by
  have looped (m : Nat) : (List.range m).foldl (fun res (i : Nat) =>
      res * ((((u : Int) - n - desc + (i + 1) : Int) : ℚ) / (((u : Int) - n + (i + 1) : Int) : ℚ))) 1 =
        ∏ i ∈ Finset.range m, (((u - n - desc + (i + 1) : Nat) : ℚ) / ((u - n + (i + 1) : Nat) : ℚ)) := by
    induction m with
    | zero => rfl
    | succ m ih =>
        rw [List.range_succ, List.foldl_append, ih, Finset.prod_range_succ]
        have top : (u : Int) - n - desc + (m + 1) = (u - n - desc + (m + 1) : Nat) := by omega
        have bottom : (u : Int) - n + (m + 1) = (u - n + (m + 1) : Nat) := by omega
        rw [List.foldl_cons, List.foldl_nil, top, bottom]
        rfl
  rw [prob, if_neg (by omega), looped]

theorem prob_of_full {u desc n : Nat} (full : u < n + desc) : prob u n desc = 0 := if_pos (by omega)

theorem prob_nonneg (u n desc : Nat) : 0 ≤ prob u n desc := by
  by_cases room : n + desc ≤ u
  · rw [prob_eq_prod room]
    exact Finset.prod_nonneg fun i _ => by positivity
  · exact (prob_of_full (Nat.not_le.mp room)).ge

theorem prob_le_pow {u desc n : Nat} (positive : 0 < u) (le : desc ≤ u) :
    prob u n desc ≤ (((u : ℚ) - desc) / u) ^ n := by
  have share : (0 : ℚ) ≤ ((u : ℚ) - desc) / u := div_nonneg (sub_nonneg.mpr (Nat.cast_le.mpr le)) (by positivity)
  by_cases room : n + desc ≤ u
  · rw [prob_eq_prod room]
    calc ∏ i ∈ Finset.range n, (((u - n - desc + (i + 1) : Nat) : ℚ) / ((u - n + (i + 1) : Nat) : ℚ))
        ≤ ∏ _i ∈ Finset.range n, ((u : ℚ) - desc) / u := by
          refine Finset.prod_le_prod (fun i _ => by positivity) fun i member => ?_
          have inside := Finset.mem_range.mp member
          have top : ((u - n - desc + (i + 1) : Nat) : ℚ) = (u - n + (i + 1) : Nat) - desc := by
            rw [eq_sub_iff_add_eq, ← Nat.cast_add]
            congr 1
            omega
          have below : ((u - n + (i + 1) : Nat) : ℚ) ≤ u := Nat.cast_le.mpr (by omega)
          have above : (0 : ℚ) < (u - n + (i + 1) : Nat) := Nat.cast_pos.mpr (by omega)
          rw [top, div_le_div_iff₀ above (by positivity)]
          nlinarith [Nat.cast_nonneg (α := ℚ) desc]
      _ = (((u : ℚ) - desc) / u) ^ n := by rw [Finset.prod_const, Finset.card_range]
  · rw [prob_of_full (Nat.not_le.mp room)]
    exact pow_nonneg share n

theorem prob_le_one {u desc n : Nat} (positive : 0 < u) (le : desc ≤ u) : prob u n desc ≤ 1 := by
  refine (prob_le_pow positive le).trans (pow_le_one₀ ?_ ?_)
  · exact div_nonneg (sub_nonneg.mpr (Nat.cast_le.mpr le)) (by positivity)
  · exact (div_le_one (by positivity)).mpr (by simp)

/-- The expected number of slots of a level that ends at the prefix sum `j`, below one that ends at `k`. -/
def levelSize (n bitLength k j : Nat) : ℚ := (1 - prob (2 ^ bitLength) n (2 ^ (bitLength - k))) * 2 ^ j

/-- `2^{s_0} + sum_{i>=1} (1 - prob(2^b, n, 2^{b - s_{i-1}})) * 2^{s_i}` for the prefix sums `s`. -/
def expectedSize (n bitLength : Nat) (s : List Nat) : ℚ :=
  Chains.cost (fun j => 2 ^ j) (levelSize n bitLength) s

theorem prob_cast (n bitLength k : Nat) : prob (2 ^ bitLength) n (2 ^ (bitLength - k)) =
    prob (2 ^ bitLength : Nat) n (2 ^ (bitLength - k) : Nat) := by
  push_cast
  rfl

theorem block_le (bitLength k : Nat) : 2 ^ (bitLength - k) ≤ 2 ^ bitLength :=
  Nat.pow_le_pow_right (by decide) (Nat.sub_le _ _)

theorem estimate_le (n bitLength k j : Nat) :
    (1 - (((2 : ℚ) ^ bitLength - 2 ^ (bitLength - k)) / 2 ^ bitLength) ^ n) * 2 ^ j ≤
      levelSize n bitLength k j := by
  have below := prob_le_pow (n := n) (Nat.two_pow_pos bitLength) (block_le bitLength k)
  rw [← prob_cast] at below
  push_cast at below
  exact mul_le_mul_of_nonneg_right (by linarith) (by positivity)

theorem levelSize_le (n bitLength k j : Nat) : levelSize n bitLength k j ≤ 2 ^ j := by
  have above := prob_nonneg (2 ^ bitLength) n (2 ^ (bitLength - k))
  rw [← prob_cast] at above
  exact mul_le_of_le_one_left (by positivity) (by linarith)

/-! ## The table -/

structure Best (n bitLength : Nat) (above : List Cell) (j m : Nat) (cell : Cell) : Prop where
  least : ∀ k < m, cell.cost ≤ (above.getD k unset).cost + levelSize n bitLength k j
  source : cell = unset ∨
    ∃ k : Nat, k < m ∧ cell.pre = k ∧ cell.cost = (above.getD k unset).cost + levelSize n bitLength k j

theorem Best.relax {n bitLength : Nat} {above : List Cell} {j k : Nat} {cell : Cell}
    (best : Best n bitLength above j k cell) :
    Best n bitLength above j (k + 1) (relax n bitLength above j cell k) := by
  have kept (le : cell.cost ≤ (above.getD k unset).cost + levelSize n bitLength k j) :
      Best n bitLength above j (k + 1) cell := by
    refine ⟨fun m below => ?_, ?_⟩
    · rcases Nat.lt_succ_iff_lt_or_eq.mp below with earlier | rfl
      · exact best.least m earlier
      · exact le
    · rcases best.source with unset | ⟨m, below, same⟩
      · exact .inl unset
      · exact .inr ⟨m, Nat.lt_succ_of_lt below, same⟩
  unfold Optimizer.relax
  dsimp only
  split
  · rename_i skip
    exact kept (skip.trans (add_le_add_right (estimate_le n bitLength k j) _))
  · split
    · rename_i better
      refine ⟨fun m below => ?_, .inr ⟨k, Nat.lt_succ_self k, rfl, rfl⟩⟩
      rcases Nat.lt_succ_iff_lt_or_eq.mp below with earlier | rfl
      · exact better.le.trans (best.least m earlier)
      · exact le_rfl
    · rename_i worse
      exact kept (not_lt.mp worse)

theorem foldl_relax_best (n bitLength : Nat) (above : List Cell) (j m : Nat) :
    Best n bitLength above j m ((List.range m).foldl (relax n bitLength above j) unset) := by
  induction m with
  | zero => exact ⟨fun k below => absurd below (Nat.not_lt_zero k), .inl rfl⟩
  | succ m ih =>
      rw [List.range_succ, List.foldl_append]
      exact ih.relax

def cellAt (n bitLength i j : Nat) : Cell := (row n bitLength i).getD j unset

theorem row_length (n bitLength i : Nat) : (row n bitLength i).length = bitLength + 1 := by
  cases i <;> simp [row, nextRow]

theorem cellAt_zero (n : Nat) {bitLength j : Nat} (bound : j ≤ bitLength) :
    cellAt n bitLength 0 j = ⟨2 ^ j, -1⟩ := by
  have inside : j < bitLength + 1 := Nat.lt_succ_of_le bound
  simp [cellAt, row, List.getD_eq_getElem?_getD, inside]

theorem cellAt_succ (n : Nat) {bitLength j : Nat} (i : Nat) (bound : j ≤ bitLength) :
    Best n bitLength (row n bitLength i) j (j + 1) (cellAt n bitLength (i + 1) j) := by
  have inside : j < bitLength + 1 := Nat.lt_succ_of_le bound
  have same : cellAt n bitLength (i + 1) j =
      (List.range (j + 1)).foldl (relax n bitLength (row n bitLength i) j) unset := by
    simp [cellAt, row, nextRow, List.getD_eq_getElem?_getD, inside]
  rw [same]
  exact foldl_relax_best n bitLength (row n bitLength i) j (j + 1)

theorem cost_cellAt_le (n : Nat) {bitLength j : Nat} (i : Nat) (bound : j ≤ bitLength) :
    (cellAt n bitLength i j).cost ≤ i + 2 ^ j := by
  induction i generalizing j with
  | zero => simp [cellAt_zero n bound]
  | succ i ih =>
      calc (cellAt n bitLength (i + 1) j).cost
          ≤ (cellAt n bitLength i 0).cost + levelSize n bitLength 0 j :=
            (cellAt_succ n i bound).least 0 (Nat.succ_pos j)
        _ ≤ (i + 2 ^ 0) + 2 ^ j := add_le_add (ih (Nat.zero_le _)) (levelSize_le n bitLength 0 j)
        _ = (i + 1 : Nat) + 2 ^ j := by push_cast; ring

theorem source_cellAt (n : Nat) {bitLength j i : Nat} (small : bitLength ≤ 32) (few : i < 2 ^ 31)
    (bound : j ≤ bitLength) : ∃ k : Nat, k ≤ j ∧ (cellAt n bitLength (i + 1) j).pre = k ∧
      (cellAt n bitLength (i + 1) j).cost = (cellAt n bitLength i k).cost + levelSize n bitLength k j := by
  rcases (cellAt_succ n i bound).source with none | ⟨k, below, pre, cost⟩
  · have le := cost_cellAt_le n (i + 1) bound
    have rows : ((i + 1 : Nat) : ℚ) ≤ 2 ^ 31 := by exact_mod_cast few
    have width : (2 : ℚ) ^ j ≤ 2 ^ 32 := pow_le_pow_right₀ (by norm_num) (bound.trans small)
    rw [none, unset] at le
    norm_num at le rows width
    linarith
  · exact ⟨k, Nat.le_of_lt_succ below, pre, cost⟩

theorem bellman (n : Nat) {bitLength : Nat} (small : bitLength ≤ 32) :
    Chains.Bellman (fun j => (2 : ℚ) ^ j) (levelSize n bitLength) (2 ^ 31) bitLength
      (fun i j => (cellAt n bitLength i j).cost) (fun i j => (cellAt n bitLength i j).pre.toNat) where
  base j bound := by rw [cellAt_zero n bound]
  least i _ j bound k le := (cellAt_succ n i bound).least k (Nat.lt_succ_of_le le)
  before i few j bound := by
    obtain ⟨k, le, pre, -⟩ := source_cellAt n small few bound
    rwa [pre, Int.toNat_natCast]
  attained i few j bound := by
    obtain ⟨k, -, pre, cost⟩ := source_cellAt n small few bound
    rw [cost, pre, Int.toNat_natCast]

/-! ## Prefix sums and digit widths -/

theorem sums_sorted (before : Nat) (ws : List Nat) :
    (sums before ws).Pairwise (· ≤ ·) ∧ ∀ s ∈ sums before ws, before ≤ s := by
  induction ws generalizing before with
  | nil => simp [sums]
  | cons w ws ih =>
      obtain ⟨sorted, above⟩ := ih (before + w)
      refine ⟨List.pairwise_cons.mpr ⟨above, sorted⟩, fun s member => ?_⟩
      rcases List.mem_cons.mp member with rfl | later
      · exact Nat.le_add_right before w
      · exact (Nat.le_add_right before w).trans (above s later)

theorem sums_ends (before w : Nat) (ws : List Nat) :
    ∃ front, sums before (w :: ws) = front ++ [before + (w :: ws).sum] := by
  induction ws generalizing before w with
  | nil => exact ⟨[], by simp [sums]⟩
  | cons v ws ih =>
      obtain ⟨front, ends⟩ := ih (before + w) v
      exact ⟨(before + w) :: front, by rw [sums, ends]; simp [Nat.add_assoc]⟩

def widths : Nat → List Nat → List Nat
  | _, [] => []
  | before, s :: rest => (s - before) :: widths s rest

theorem sums_widths {before : Nat} {s : List Nat} (sorted : (before :: s).Pairwise (· ≤ ·)) :
    sums before (widths before s) = s := by
  induction s generalizing before with
  | nil => rfl
  | cons a s ih =>
      obtain ⟨above, sorted⟩ := List.pairwise_cons.mp sorted
      have le : before ≤ a := above a List.mem_cons_self
      rw [widths, sums, Nat.add_sub_cancel' le, ih sorted]

theorem differences_eq {s : List Nat} (sorted : s.Pairwise (· ≤ ·)) :
    differences (s.map Int.ofNat) = (widths 0 s).map Int.ofNat := by
  have from_before (before : Nat) (sorted : (before :: s).Pairwise (· ≤ ·)) :
      List.zipWith (· - ·) (s.map Int.ofNat) (Int.ofNat before :: s.map Int.ofNat) =
        (widths before s).map Int.ofNat := by
    induction s generalizing before with
    | nil => rfl
    | cons a s ih =>
        obtain ⟨above, sorted⟩ := List.pairwise_cons.mp sorted
        have le : before ≤ a := above a List.mem_cons_self
        rw [List.map_cons, List.zipWith_cons_cons, ih (List.pairwise_cons.mp sorted).2 a sorted, widths, List.map_cons]
        exact congrArg (· :: _) (Int.ofNat_sub le).symm
  exact from_before 0 (List.pairwise_cons.mpr ⟨fun _ _ => Nat.zero_le _, sorted⟩)

/-! ## Optimality -/

theorem readCell_row (n : Nat) {bitLength j : Nat} (i : Nat) (bound : j ≤ bitLength) :
    readCell (row n bitLength i) j = .ok (cellAt n bitLength i j) := by
  have inside : j < (row n bitLength i).length := by
    rw [row_length]
    omega
  simp [readCell, cellAt, List.getD_eq_getElem?_getD, inside]

theorem backtrack_eq (n : Nat) {bitLength i j : Nat} (small : bitLength ≤ 32) (few : i ≤ 2 ^ 31)
    (bound : j ≤ bitLength) : backtrack n bitLength i j =
      .ok ((Chains.trace (fun i j => (cellAt n bitLength i j).pre.toNat) i j).map Int.ofNat) := by
  induction i generalizing j with
  | zero =>
      rw [backtrack, readCell_row n 0 bound]
      rfl
  | succ i ih =>
      obtain ⟨k, le, pre, -⟩ := source_cellAt n small few bound
      rw [backtrack, readCell_row n (i + 1) bound, ok_bind, pre, ih (Nat.le_of_succ_le few) (le.trans bound), ok_bind,
        Chains.trace, pre, Int.toNat_natCast, List.map_append]
      rfl

theorem optimalFanout_cost (n : Nat) {bitLength last : Nat} (small : bitLength ≤ 32) (few : last ≤ 2 ^ 31) :
    ∃ a : List Nat, optimalFanout n bitLength (last + 1) = .ok (a.map Int.ofNat) ∧ a.length = last + 1 ∧
      a.sum = bitLength ∧ expectedSize n bitLength (sums 0 a) = (cellAt n bitLength last bitLength).cost := by
  have table := bellman n small
  let s := Chains.trace (fun i j => (cellAt n bitLength i j).pre.toNat) last bitLength
  obtain ⟨sorted, -⟩ := table.trace_sorted few le_rfl
  have same : sums 0 (widths 0 s) = s :=
    sums_widths (List.pairwise_cons.mpr ⟨fun _ _ => Nat.zero_le _, sorted⟩)
  have length : (widths 0 s).length = last + 1 := by
    rw [← sums_length 0, same, Chains.trace_length]
  refine ⟨widths 0 s, ?_, length, ?_, ?_⟩
  · rw [optimalFanout, backtrack_eq n small few le_rfl, ok_bind, differences_eq sorted]
  · obtain ⟨w, rest, cons⟩ := List.exists_cons_of_length_eq_add_one length
    obtain ⟨front, ends⟩ := sums_ends 0 w rest
    obtain ⟨chain, traced⟩ := Chains.trace_ends (fun i j => (cellAt n bitLength i j).pre.toNat) last bitLength
    rw [← cons, same] at ends
    have total := (List.append_inj_right' (ends.symm.trans traced) rfl)
    simpa using total
  · rw [expectedSize, same, table.cost_trace few le_rfl]

theorem cost_le_expectedSize (n : Nat) {bitLength last : Nat} (small : bitLength ≤ 32) (few : last ≤ 2 ^ 31)
    {ws : List Nat} (levels : ws.length = last + 1) (total : ws.sum = bitLength) :
    (cellAt n bitLength last bitLength).cost ≤ expectedSize n bitLength (sums 0 ws) := by
  obtain ⟨w, rest, rfl⟩ := List.exists_cons_of_length_eq_add_one levels
  obtain ⟨front, ends⟩ := sums_ends 0 w rest
  rw [Nat.zero_add, total] at ends
  have sorted := (sums_sorted 0 (w :: rest)).1
  have front_length : front.length = last := by
    have length := sums_length 0 (w :: rest)
    rw [ends, List.length_append, List.length_singleton, levels] at length
    exact Nat.succ_injective length
  rw [ends] at sorted
  rw [expectedSize, ends]
  exact (bellman n small).le_cost few le_rfl front_length sorted

/-- `OptimalFanout` returns widths of the least expected size. -/
theorem optimalFanout_optimal (n : Nat) {bitLength l : Nat} (small : bitLength ≤ 32) (layers : 1 ≤ l)
    (int : l < 2 ^ 31) : ∃ a : List Nat, optimalFanout n bitLength l = .ok (a.map Int.ofNat) ∧
      a.length = l ∧ a.sum = bitLength ∧ ∀ ws : List Nat, ws.length = l → ws.sum = bitLength →
        expectedSize n bitLength (sums 0 a) ≤ expectedSize n bitLength (sums 0 ws) := by
  obtain ⟨last, rfl⟩ := Nat.exists_eq_add_of_le' layers
  have few : last ≤ 2 ^ 31 := (Nat.le_of_lt (Nat.lt_of_succ_lt int))
  obtain ⟨a, returned, length, sum, cost⟩ := optimalFanout_cost n small few
  refine ⟨a, returned, length, sum, fun ws levels total => ?_⟩
  rw [cost]
  exact cost_le_expectedSize n small few levels total

theorem optimalFanout_optimal_pair : ∃ a : List Nat, optimalFanout 2 4 2 = .ok (a.map Int.ofNat) ∧
    a.length = 2 ∧ a.sum = 4 ∧ ∀ ws : List Nat, ws.length = 2 → ws.sum = 4 →
      expectedSize 2 4 (sums 0 a) ≤ expectedSize 2 4 (sums 0 ws) :=
  optimalFanout_optimal 2 (by decide) (by decide) (by decide)

end Optimizer

end Radix
