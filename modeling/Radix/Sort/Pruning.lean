import Radix.Sort.AverageSize

/-!
# Pruned fanouts

`OptimalFanout` compares arrays in which an empty level still costs a slot, and the constructor then
leaves the empty levels out.
-/

namespace Radix

open Lib

namespace Optimizer

/-! ## What an empty level costs -/

theorem levelSize_root {n : Nat} (some : 1 ≤ n) (bitLength j : Nat) : levelSize n bitLength 0 j = 2 ^ j := by
  have full : prob (2 ^ bitLength) n (2 ^ (bitLength - 0)) = 0 := by
    rw [prob_cast]
    exact prob_of_full (by rw [Nat.sub_zero]; omega)
  rw [levelSize, full, sub_zero, one_mul]

theorem one_le_levelSize {n bitLength k : Nat} (some : 1 ≤ n) (le : k ≤ bitLength) :
    1 ≤ levelSize n bitLength k k := by
  have split : (2 : ℚ) ^ bitLength = 2 ^ (bitLength - k) * 2 ^ k := by
    rw [← pow_add, Nat.sub_add_cancel le]
  have missed : prob (2 ^ bitLength) n (2 ^ (bitLength - k)) ≤ 1 - 1 / 2 ^ k := by
    have share : (((2 ^ bitLength : Nat) : ℚ) - (2 ^ (bitLength - k) : Nat)) / (2 ^ bitLength : Nat) =
        1 - 1 / 2 ^ k := by
      push_cast
      rw [split]
      field_simp
    have small : (1 : ℚ) / 2 ^ k ≤ 1 := (div_le_one (by positivity)).mpr (one_le_pow₀ (by norm_num))
    have positive : (0 : ℚ) ≤ 1 / 2 ^ k := by positivity
    rw [prob_cast]
    refine (prob_le_pow (Nat.two_pow_pos bitLength) (block_le bitLength k)).trans ?_
    rw [share]
    exact pow_le_of_le_one (by linarith) (by linarith) (Nat.one_le_iff_ne_zero.mp some)
  calc (1 : ℚ) = 1 / 2 ^ k * 2 ^ k := by field_simp
    _ ≤ levelSize n bitLength k k := mul_le_mul_of_nonneg_right (by linarith) (by positivity)

theorem expectedSize_eq {n : Nat} (some : 1 ≤ n) (bitLength : Nat) {ws : List Nat} (levels : ws ≠ []) :
    expectedSize n bitLength (sums 0 ws) = Chains.linkCost (levelSize n bitLength) 0 (sums 0 ws) := by
  obtain ⟨w, rest, rfl⟩ := List.exists_cons_of_ne_nil levels
  rw [expectedSize, sums, Chains.cost, Chains.linkCost, levelSize_root some]

theorem linkCost_prune {n bitLength : Nat} (some : 1 ≤ n) {before : Nat} {ws : List Nat}
    (inside : before + ws.sum ≤ bitLength) :
    Chains.linkCost (levelSize n bitLength) before (sums before (prune ws)) + ws.length ≤
      Chains.linkCost (levelSize n bitLength) before (sums before ws) + (prune ws).length := by
  induction ws generalizing before with
  | nil => exact le_rfl
  | cons w ws ih =>
      rw [List.sum_cons] at inside
      cases w with
      | zero =>
          have rest := ih (show before + ws.sum ≤ bitLength by omega)
          have level := one_le_levelSize some (show before ≤ bitLength by omega)
          have left : prune (0 :: ws) = prune ws := rfl
          rw [left, List.length_cons]
          simp only [sums, Nat.add_zero, Chains.linkCost]
          push_cast
          linarith
      | succ w =>
          have rest := ih (show before + (w + 1) + ws.sum ≤ bitLength by omega)
          have kept : prune ((w + 1) :: ws) = (w + 1) :: prune ws := rfl
          rw [kept, List.length_cons, List.length_cons, sums, sums, Chains.linkCost, Chains.linkCost]
          push_cast
          linarith

theorem sum_prune (ws : List Nat) : (prune ws).sum = ws.sum := by
  induction ws with
  | nil => rfl
  | cons w ws ih =>
      cases w with
      | zero => exact ih.trans (Nat.zero_add _).symm
      | succ w => exact congrArg (w + 1 + ·) ih

theorem linkCost_padded {n : Nat} (some : 1 ≤ n) (bitLength m : Nat) (ws : List Nat) :
    Chains.linkCost (levelSize n bitLength) 0 (sums 0 (List.replicate m 0 ++ ws)) =
      Chains.linkCost (levelSize n bitLength) 0 (sums 0 ws) + m := by
  induction m with
  | zero => simp
  | succ m ih =>
      rw [List.replicate_succ, List.cons_append, sums, Nat.add_zero, Chains.linkCost, ih, levelSize_root some]
      push_cast
      ring

/-- The pruned array is as good as any array of as many levels, and against shorter ones it loses at
most the slots of the levels that it has more. -/
theorem expectedSize_pruned {n bitLength last : Nat} (some : 1 ≤ n) (positive : 1 ≤ bitLength)
    (small : bitLength ≤ 32) (few : last ≤ 2 ^ 31) {a ws : List Nat} (length : a.length = last + 1)
    (sum : a.sum = bitLength)
    (cost : expectedSize n bitLength (sums 0 a) = (cellAt n bitLength last bitLength).cost)
    (shorter : ws.length ≤ last + 1) (total : ws.sum = bitLength) :
    expectedSize n bitLength (sums 0 (prune a)) ≤
      expectedSize n bitLength (sums 0 ws) + ((prune a).length - ws.length) := by
  have nonempty {vs : List Nat} (same : vs.sum = bitLength) : vs ≠ [] := by
    rintro rfl
    rw [List.sum_nil] at same
    omega
  have pruned_sum : (prune a).sum = bitLength := (sum_prune a).trans sum
  let padded := List.replicate (last + 1 - ws.length) 0 ++ ws
  have padded_sum : padded.sum = bitLength := by simp [padded, total]
  have padded_length : padded.length = last + 1 := by
    simp only [padded, List.length_append, List.length_replicate]
    omega
  have least := cost_le_expectedSize n small few padded_length padded_sum
  have saved := linkCost_prune some (show 0 + a.sum ≤ bitLength by omega)
  rw [← cost, expectedSize_eq some bitLength (nonempty sum), expectedSize_eq some bitLength (nonempty padded_sum),
    linkCost_padded some] at least
  rw [expectedSize_eq some bitLength (nonempty pruned_sum), expectedSize_eq some bitLength (nonempty total)]
  rw [length] at saved
  push_cast [Nat.cast_sub shorter] at least saved ⊢
  linarith

end Optimizer

namespace SORT

variable {W : Type} [Zero W]

def optimal (n bitLength l : Nat) (pruned : Bool) : Result (SORT W) := do
  let s ← Optimizer.optimalFanout n bitLength l
  .ok (ofOptimal (fun _ _ _ => s.map Int.toNat) n bitLength l pruned)

theorem AverageSize.unique {ws : List Nat} {n : Nat} {a b : ℚ} (ha : AverageSize W ws n a)
    (hb : AverageSize W ws n b) : a = b := by
  obtain ⟨size, sized, rfl⟩ := ha
  obtain ⟨size', sized', rfl⟩ := hb
  have same : ∀ S ∈ draws ws.sum n, size S = size' S := by
    intro S drawn
    obtain ⟨⟨t, holding⟩, first⟩ := sized S drawn
    obtain ⟨enough, counted⟩ := first t holding
    obtain ⟨enough', counted'⟩ := (sized' S drawn).2 t holding
    have both := (counted _ (le_max_left enough enough')).symm.trans (counted' _ (le_max_right enough enough'))
    exact Except.ok.inj both
  rw [Finset.sum_congr rfl same]

/-- The pruned tree is on average no larger than the tree of any array of as many levels; against an array
of fewer levels it may lose one slot for each level that it has more. -/
theorem pruned_size (W : Type) [Zero W] {n bitLength l : Nat} (some : 1 ≤ n) (all : n ≤ 2 ^ bitLength)
    (positive : 1 ≤ bitLength) (small : bitLength ≤ 30) (layers : 1 ≤ l) (int : l < 2 ^ 31) :
    ∃ (t : SORT W) (average : ℚ), optimal n bitLength l true = .ok t ∧ AverageSize W t.numBits n average ∧
      t.depth ≤ l ∧ ∀ (ws : List Nat) (other : ℚ), ws.length ≤ l → ws.sum = bitLength → AverageSize W ws n other →
        average ≤ other + (t.depth - ws.length) := by
  obtain ⟨last, rfl⟩ := Nat.exists_eq_add_of_le' layers
  have few : last ≤ 2 ^ 31 := Nat.le_of_lt (Nat.lt_of_succ_lt int)
  obtain ⟨a, returned, length, sum, cost⟩ := Optimizer.optimalFanout_cost n (small.trans (by decide)) few
  have nonempty {vs : List Nat} (same : vs.sum = bitLength) : vs ≠ [] := by
    rintro rfl
    rw [List.sum_nil] at same
    omega
  have averaged {vs : List Nat} (same : vs.sum = bitLength) :
      AverageSize W vs n (Optimizer.expectedSize n bitLength (sums 0 vs)) := by
    rw [← same] at all ⊢
    exact averageSize_expected W (nonempty same) all
  refine ⟨ofFanout (prune a), _, ?_, averaged ((Optimizer.sum_prune a).trans sum), ?_, ?_⟩
  · have widths : (a.map Int.ofNat).map Int.toNat = a := by
      rw [List.map_map]
      exact List.map_id a
    rw [optimal, returned, ok_bind, ofOptimal, if_pos rfl, widths]
  · exact (List.length_filter_le _ _).trans length.le
  · intro ws other shorter total measured
    rw [measured.unique (averaged total)]
    exact Optimizer.expectedSize_pruned some positive (small.trans (by decide)) few length sum cost shorter total

theorem pruned_size_three_levels : ∃ (t : SORT Nat) (average : ℚ), optimal 2 4 3 true = .ok t ∧
    AverageSize Nat t.numBits 2 average ∧ t.depth ≤ 3 ∧ ∀ (ws : List Nat) (other : ℚ), ws.length ≤ 3 → ws.sum = 4 →
      AverageSize Nat ws 2 other → average ≤ other + (t.depth - ws.length) :=
  pruned_size Nat (by decide) (by decide) (by decide) (by decide) (by decide) (by decide)

/-- Two ids of four bits: the optimiser fills all three levels, and two levels are smaller. -/
theorem pruned_size_beaten : ∃ (t : SORT Nat) (average other : ℚ), optimal 2 4 3 true = .ok t ∧
    AverageSize Nat t.numBits 2 average ∧ AverageSize Nat [2, 2] 2 other ∧ other < average := by
  have returned : Optimizer.optimalFanout 2 4 3 = .ok [2, 1, 1] := by decide +kernel
  refine ⟨ofFanout [2, 1, 1], _, _, ?_, averageSize_expected Nat (show [2, 1, 1] ≠ [] by decide) (by decide),
    averageSize_expected Nat (show [2, 2] ≠ [] by decide) (by decide), by decide +kernel⟩
  rw [optimal, returned]
  rfl

end SORT

end Radix
