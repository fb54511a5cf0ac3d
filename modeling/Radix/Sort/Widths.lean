import Mathlib.Data.Nat.Log
import Mathlib.Tactic.IntervalCases
import Mathlib.Tactic.NormNum
import Radix.Sort.Pruning

/-!
# The widths that the optimiser hands to 32-bit shifts

`OptimalFanout` counts slots with `1ll << j`, every node is made with `1 << num_bits[i]`. Only ids of
31 and 32 bits have arrays with a width above 30, and these are the best ones when the ids are dense.
-/

namespace Radix

open Lib

namespace Optimizer

/-! ## More about hit probabilities -/

theorem prob_symm {u desc n : Nat} (le : desc ≤ u) (all : n ≤ u) : prob u n desc = prob u desc n := by
  rw [prob_eq_choose le all, prob_eq_choose all le]
  have both (d m : Nat) : u.choose (m + d) * (m + d).choose m = u.choose m * (u - m).choose d := by
    rw [Nat.choose_mul (Nat.le_add_right m d), Nat.add_sub_cancel_left]
  have same : (u - desc).choose n * u.choose desc = (u - n).choose desc * u.choose n := by
    rw [Nat.mul_comm, ← both n desc, Nat.mul_comm ((u - n).choose desc), ← both desc n, Nat.add_comm n desc,
      Nat.choose_symm_add]
  rw [div_eq_div_iff (by exact_mod_cast (Nat.choose_pos all).ne') (by exact_mod_cast (Nat.choose_pos le).ne')]
  exact_mod_cast same

theorem prob_antitone {u desc desc' n : Nat} (le : desc ≤ desc') (inside : desc' ≤ u) (all : n ≤ u) :
    prob u n desc' ≤ prob u n desc := by
  rw [prob_eq_choose (le.trans inside) all, prob_eq_choose inside all]
  have fewer : (u - desc').choose n ≤ (u - desc).choose n := Nat.choose_le_choose n (by omega)
  exact div_le_div_of_nonneg_right (by exact_mod_cast fewer) (by positivity)

theorem prob_mono {u desc n m : Nat} (le : n ≤ m) (inside : desc ≤ u) (all : m ≤ u) :
    prob u m desc ≤ prob u n desc := by
  rw [prob_symm inside all, prob_symm inside (le.trans all)]
  exact prob_antitone le all inside

theorem prob_le_share {u desc n : Nat} (positive : 0 < u) (inside : desc ≤ u) (all : n ≤ u) :
    prob u n desc ≤ (((u : ℚ) - n) / u) ^ desc := by
  rw [prob_symm inside all]
  exact prob_le_pow positive all

theorem prob_eq_descFactorial {u desc n : Nat} (le : desc ≤ u) (all : n ≤ u) :
    prob u n desc = ((u - n).descFactorial desc : ℚ) / u.descFactorial desc := by
  rw [prob_symm le all, prob_eq_choose all le, Nat.descFactorial_eq_factorial_mul_choose,
    Nat.descFactorial_eq_factorial_mul_choose, Nat.cast_mul, Nat.cast_mul]
  exact (mul_div_mul_left _ _ (Nat.cast_ne_zero.mpr (Nat.factorial_ne_zero desc))).symm

theorem prob_two {u n : Nat} (le : 2 ≤ u) (all : n ≤ u) :
    prob u n (2 : Nat) = (((u - n - 1) * (u - n) : Nat) : ℚ) / ((u - 1) * u : Nat) := by
  rw [prob_eq_descFactorial le all]
  simp only [Nat.descFactorial, Nat.mul_one, Nat.sub_zero]

theorem prob_four {u n : Nat} (le : 4 ≤ u) (all : n ≤ u) : prob u n (4 : Nat) =
    (((u - n - 3) * ((u - n - 2) * ((u - n - 1) * (u - n))) : Nat) : ℚ) /
      ((u - 3) * ((u - 2) * ((u - 1) * u)) : Nat) := by
  rw [prob_eq_descFactorial le all]
  simp only [Nat.descFactorial, Nat.mul_one, Nat.sub_zero]

/-! ## Bounds for whole arrays -/

theorem one_le_level {n bitLength k j : Nat} (some : 1 ≤ n) (le : k ≤ j) (bound : j ≤ bitLength) :
    1 ≤ levelSize n bitLength k j := by
  have below := prob_le_one (n := n) (Nat.two_pow_pos bitLength) (block_le bitLength k)
  rw [← prob_cast] at below
  calc (1 : ℚ) ≤ levelSize n bitLength k k := one_le_levelSize some (le.trans bound)
    _ ≤ levelSize n bitLength k j := by
      apply mul_le_mul_of_nonneg_left
      · exact pow_le_pow_right₀ (by norm_num) le
      · linarith

def Falls (n bitLength low : Nat) (φ : Nat → ℚ) : Prop :=
  ∀ k j, low ≤ k → k ≤ j → j ≤ bitLength → φ k + 1 ≤ levelSize n bitLength k j + φ j

theorem Falls.le_linkCost {n bitLength low : Nat} {φ : Nat → ℚ} (falls : Falls n bitLength low φ) {before : Nat}
    {ws : List Nat} (start : low ≤ before) (inside : before + ws.sum ≤ bitLength) :
    φ before + ws.length ≤
      Chains.linkCost (levelSize n bitLength) before (sums before ws) + φ (before + ws.sum) := by
  induction ws generalizing before with
  | nil => simp [sums, Chains.linkCost]
  | cons w ws ih =>
      rw [List.sum_cons, ← Nat.add_assoc] at inside ⊢
      have level := falls before (before + w) start (Nat.le_add_right _ _) (by omega)
      have rest := ih (start.trans (Nat.le_add_right before w)) inside
      rw [sums, Chains.linkCost, List.length_cons]
      push_cast
      linarith

theorem length_le_linkCost {n bitLength before : Nat} (some : 1 ≤ n) {ws : List Nat}
    (inside : before + ws.sum ≤ bitLength) :
    (ws.length : ℚ) ≤ Chains.linkCost (levelSize n bitLength) before (sums before ws) := by
  have falls : Falls n bitLength 0 fun _ => 0 := by
    intro k j _ le bound
    linarith [one_le_level some le bound]
  have bound := falls.le_linkCost (Nat.zero_le before) inside
  linarith

/-- An array whose first level has between 1 and 30 bits costs more than `t` and a slot for each
further level. -/
theorem narrow_cost {n bitLength : Nat} (some : 1 ≤ n) {t : ℚ} {φ : Nat → ℚ} (falls : Falls n bitLength 1 φ)
    (ends : φ bitLength = 1) (first : ∀ w, 1 ≤ w → w ≤ 30 → t + 1 < 2 ^ w + φ w) {ws : List Nat}
    (narrow : ∀ w ∈ ws, w ≤ 30) (sum : ws.sum = bitLength) (positive : 1 ≤ bitLength) :
    t + ws.length < Chains.linkCost (levelSize n bitLength) 0 (sums 0 ws) + 1 := by
  induction ws with
  | nil => exact absurd sum (by simp; omega)
  | cons w ws ih =>
      cases w with
      | zero =>
          rw [List.sum_cons, Nat.zero_add] at sum
          have rest := ih (fun v member => narrow v (by simp [member])) sum
          rw [sums, Chains.linkCost, levelSize_root some, List.length_cons]
          push_cast
          linarith
      | succ w =>
          rw [List.sum_cons] at sum
          have rest := falls.le_linkCost (Nat.le_add_left 1 w) sum.le
          have root := first (w + 1) (Nat.le_add_left 1 w) (narrow (w + 1) (by simp))
          rw [sum, ends] at rest
          rw [sums, Chains.linkCost, levelSize_root some, List.length_cons, Nat.zero_add]
          push_cast
          linarith

/-! ## Dense ids -/

theorem levelSize_eq (n bitLength k j : Nat) : levelSize n bitLength k j =
    (1 - prob (2 ^ bitLength : Nat) n (2 ^ (bitLength - k) : Nat)) * 2 ^ j := by
  rw [levelSize, prob_cast]

theorem five_sevenths {k i : Nat} (least : 31 ≤ k + i) (small : k + i ≤ 32) (positive : 1 ≤ k) (three : 3 ≤ i) :
    ((5 : ℚ) / 7) ^ 2 ^ i * 2 ^ (k + i) ≤ 2 ^ k - 5 / 4 := by
  by_cases few : i ≤ 6
  · rcases (show k + i = 31 ∨ k + i = 32 by omega) with total | total
    · obtain rfl : k = 31 - i := by omega
      rw [total]
      interval_cases i <;> norm_num
    · obtain rfl : k = 32 - i := by omega
      rw [total]
      interval_cases i <;> norm_num
  · have many : 2 ^ 7 ≤ 2 ^ i := Nat.pow_le_pow_right (by decide) (by omega)
    have tiny : ((5 : ℚ) / 7) ^ 2 ^ i ≤ (5 / 7) ^ 2 ^ 7 := pow_le_pow_of_le_one (by norm_num) (by norm_num) many
    have width : (2 : ℚ) ^ (k + i) ≤ 2 ^ 32 := pow_le_pow_right₀ (by norm_num) small
    have two : (2 : ℚ) ^ 1 ≤ 2 ^ k := pow_le_pow_right₀ (by norm_num) positive
    calc ((5 : ℚ) / 7) ^ 2 ^ i * 2 ^ (k + i) ≤ (5 / 7) ^ 2 ^ 7 * 2 ^ 32 :=
          mul_le_mul tiny width (by positivity) (by positivity)
      _ ≤ 2 ^ 1 - 5 / 4 := by norm_num
      _ ≤ 2 ^ k - 5 / 4 := by linarith

theorem dense_hits {n bitLength k : Nat} (least : 31 ≤ bitLength) (small : bitLength ≤ 32) (positive : 1 ≤ k)
    (below : k + 3 ≤ bitLength) (all : n ≤ 2 ^ bitLength) (dense : 2 * 2 ^ bitLength ≤ 7 * n) :
    prob (2 ^ bitLength : Nat) n (2 ^ (bitLength - k) : Nat) * 2 ^ bitLength ≤ 2 ^ k - 5 / 4 := by
  obtain ⟨i, rfl⟩ := Nat.exists_eq_add_of_le (show k ≤ bitLength by omega)
  rw [Nat.add_sub_cancel_left]
  have share : (((2 ^ (k + i) : Nat) : ℚ) - n) / (2 ^ (k + i) : Nat) ≤ 5 / 7 := by
    rw [div_le_div_iff₀ (by positivity) (by norm_num)]
    have := Nat.cast_le (α := ℚ).mpr dense
    push_cast at this ⊢
    linarith
  have nonneg : (0 : ℚ) ≤ (((2 ^ (k + i) : Nat) : ℚ) - n) / (2 ^ (k + i) : Nat) :=
    div_nonneg (sub_nonneg.mpr (Nat.cast_le.mpr all)) (by positivity)
  have inside : 2 ^ i ≤ 2 ^ (k + i) := Nat.pow_le_pow_right (by decide) (Nat.le_add_left i k)
  have missed : prob (2 ^ (k + i) : Nat) n (2 ^ i : Nat) ≤ (5 / 7) ^ 2 ^ i :=
    (prob_le_share (Nat.two_pow_pos _) inside all).trans (pow_le_pow_left₀ nonneg share _)
  exact (mul_le_mul_of_nonneg_right missed (by positivity)).trans (five_sevenths least small positive (by omega))

theorem short_link {n bitLength k j : Nat} {t ε : ℚ} (some : 1 ≤ n) (le : k ≤ j) (short : j ≤ 30)
    (least : 31 ≤ bitLength) (hits : k ≤ 29 →
      prob (2 ^ bitLength : Nat) n (2 ^ (bitLength - k) : Nat) * 2 ^ bitLength ≤ 2 ^ k - 5 / 4) :
    t - 2 ^ k + 1 + ε + 1 ≤ levelSize n bitLength k j + (t - 2 ^ j + 1 + ε) := by
  rcases le.eq_or_lt with rfl | less
  · linarith [one_le_level some le_rfl (show k ≤ bitLength by omega)]
  · have hits := hits (by omega)
    have nonneg := prob_nonneg (2 ^ bitLength) n (2 ^ (bitLength - k))
    have width : (2 : ℚ) ^ j ≤ 2 ^ bitLength := pow_le_pow_right₀ (by norm_num) (by omega)
    rw [levelSize_eq]
    linarith [mul_le_mul_of_nonneg_left width nonneg]

/-- The number of ids of 31 bits from which on a node for all of them is the best tree. -/
def dense31 : Nat := 628983399

theorem falls_31 {n : Nat} (dense : dense31 ≤ n) (all : n ≤ 2 ^ 31) :
    ∃ φ : Nat → ℚ, Falls n 31 1 φ ∧ φ 31 = 1 ∧ ∀ w, 1 ≤ w → w ≤ 30 → 2 ^ 31 + 1 < 2 ^ w + φ w := by
  unfold dense31 at dense
  have two : prob (2 ^ 31 : Nat) n (2 : Nat) * 2 ^ 31 < 2 ^ 30 - 5 / 4 := by
    have fewest := prob_mono dense (show 2 ≤ 2 ^ 31 by norm_num) all
    rw [prob_two (show 2 ≤ 2 ^ 31 by norm_num) (dense.trans all)] at fewest
    norm_num at fewest ⊢
    linarith
  have four : prob (2 ^ 31 : Nat) n (4 : Nat) * 2 ^ 31 ≤ 2 ^ 29 - 5 / 4 := by
    have fewest := prob_mono dense (show 4 ≤ 2 ^ 31 by norm_num) all
    rw [prob_four (show 4 ≤ 2 ^ 31 by norm_num) (dense.trans all)] at fewest
    norm_num at fewest ⊢
    linarith
  have hits (k : Nat) (positive : 1 ≤ k) (le : k ≤ 30) :
      prob (2 ^ 31 : Nat) n (2 ^ (31 - k) : Nat) * 2 ^ 31 ≤ 2 ^ k - 5 / 4 := by
    rcases (show k ≤ 28 ∨ k = 29 ∨ k = 30 by omega) with low | rfl | rfl
    · exact dense_hits le_rfl (by decide) positive (by omega) all (by omega)
    · exact four
    · exact two.le
  have some : 1 ≤ n := by omega
  refine ⟨fun k => if k ≤ 30 then 2 ^ 31 - 2 ^ k + 1 + 1 / 4 else 1, fun k j positive le bound => ?_, if_neg (by decide), ?_⟩
  · dsimp only
    by_cases short : j ≤ 30
    · rw [if_pos short, if_pos (le.trans short)]
      exact short_link some le short le_rfl fun low => hits k positive (by omega)
    · obtain rfl : j = 31 := by omega
      rw [if_neg (show ¬ 31 ≤ 30 by decide)]
      by_cases deep : k ≤ 30
      · rw [if_pos deep, levelSize_eq]
        linarith [hits k positive deep]
      · rw [if_neg deep]
        linarith [one_le_level some le (le_refl 31)]
  · intro w _ narrow
    dsimp only
    rw [if_pos narrow]
    linarith

/-- The number of ids of 32 bits from which on a node for all prefixes of 31 bits belongs to the best tree. -/
def dense32 : Nat := 1257936972

/-- How often a pair of ids is avoided and a block of four is not, times `u (u - 1) (u - 2) (u - 3)`, when all
but `y` of the `u` ids are drawn. -/
def gap (y : ℚ) : ℚ := y * (y - 1) * ((2 ^ 32 - 2) * (2 ^ 32 - 3) - (y - 2) * (y - 3))

theorem gap_eq {n : Nat} (room : n + 4 ≤ 2 ^ 32) :
    prob (2 ^ 32 : Nat) n (2 : Nat) - prob (2 ^ 32 : Nat) n (4 : Nat) =
      gap ((2 ^ 32 - n : Nat) : ℚ) / (2 ^ 32 * (2 ^ 32 - 1) * (2 ^ 32 - 2) * (2 ^ 32 - 3)) := by
  have small : n ≤ 2 ^ 32 := by omega
  obtain ⟨y, rest⟩ := Nat.exists_eq_add_of_le (show 4 ≤ 2 ^ 32 - n by omega)
  rw [prob_two (by norm_num) small, prob_four (by norm_num) small, rest, gap]
  push_cast [show 4 + y - 3 = y + 1 by omega, show 4 + y - 2 = y + 2 by omega, show 4 + y - 1 = y + 3 by omega]
  norm_num
  ring

theorem gap_antitone {y z : Nat} (half : 3037000500 ≤ y) (le : y ≤ z) : gap z ≤ gap y := by
  induction z, le using Nat.le_induction with
  | base => exact le_rfl
  | succ z le ih =>
      have above : (3037000500 : ℚ) ≤ z := by exact_mod_cast half.trans le
      have half : ((2 : ℚ) ^ 32 - 2) * (2 ^ 32 - 3) ≤ 2 * ((z - 1) * (z - 2)) := by
        have product := mul_le_mul (show (3037000500 : ℚ) - 1 ≤ z - 1 by linarith)
          (show (3037000500 : ℚ) - 2 ≤ z - 2 by linarith) (by norm_num) (by linarith)
        norm_num at product ⊢
        linarith
      have step : gap ((z + 1 : Nat) : ℚ) =
          gap z - 2 * z * (2 * ((z - 1) * (z - 2)) - (2 ^ 32 - 2) * (2 ^ 32 - 3)) := by
        unfold gap
        push_cast
        ring
      have drop : 0 ≤ 2 * (z : ℚ) * (2 * ((z - 1) * (z - 2)) - (2 ^ 32 - 2) * (2 ^ 32 - 3)) :=
        mul_nonneg (by linarith) (by linarith)
      linarith

theorem dense_pair {n : Nat} (dense : dense32 ≤ n) (half : n ≤ 2 ^ 31) :
    prob (2 ^ 32 : Nat) n (4 : Nat) * 2 ^ 32 < 2 ^ 30 - 1 ∨
      2 ^ 30 < (prob (2 ^ 32 : Nat) n (2 : Nat) - prob (2 ^ 32 : Nat) n (4 : Nat)) * 2 ^ 32 := by
  unfold dense32 at dense
  by_cases early : n ≤ 2 ^ 32 - 3037000500
  · right
    have falls := gap_antitone (show 3037000500 ≤ 2 ^ 32 - n by omega)
      (show 2 ^ 32 - n ≤ 2 ^ 32 - 1257936972 by omega)
    rw [gap_eq (by omega), div_mul_eq_mul_div, lt_div_iff₀ (by norm_num)]
    norm_num [gap] at falls ⊢
    linarith
  · left
    have fewest := prob_mono (show 2 ^ 32 - 3037000500 + 1 ≤ n by omega) (show 4 ≤ 2 ^ 32 by norm_num)
      (half.trans (by norm_num))
    rw [prob_four (by norm_num) (show 2 ^ 32 - 3037000500 + 1 ≤ 2 ^ 32 by norm_num)] at fewest
    norm_num at fewest ⊢
    linarith

theorem falls_deep {n : Nat} (some : 1 ≤ n) {q : Nat → ℚ} (levels : ∀ k j, levelSize n 32 k j = (1 - q k) * 2 ^ j)
    (nonneg : ∀ k, 0 ≤ q k) (hits : ∀ k, 1 ≤ k → k ≤ 29 → q k * 2 ^ 32 ≤ 2 ^ k - 5 / 4) (four : q 30 ≤ 2 / 5)
    (pair : q 30 * 2 ^ 32 < 2 ^ 30 - 1 ∨ 2 ^ 30 < (q 31 - q 30) * 2 ^ 32) :
    ∃ φ : Nat → ℚ, Falls n 32 1 φ ∧ φ 32 = 1 ∧
      ∀ w, 1 ≤ w → w ≤ 30 → min (2 ^ 32) (2 ^ 31 + levelSize n 32 31 32 - 1) + 1 < 2 ^ w + φ w := by
  obtain ⟨t, same⟩ : ∃ t, min ((2 : ℚ) ^ 32) (2 ^ 31 + levelSize n 32 31 32 - 1) = t := ⟨_, rfl⟩
  have one_level : t ≤ 2 ^ 32 := same ▸ min_le_left _ _
  have two_levels : t ≤ 2 ^ 31 + (1 - q 31) * 2 ^ 32 - 1 := by
    rw [← levels]
    exact same ▸ min_le_right _ _
  have room : 0 < 2 ^ 30 + (1 - q 30) * 2 ^ 32 - t - 1 := by
    rcases pair with rare | often
    · linarith
    · linarith
  obtain ⟨ε, positive, quarter, fits⟩ : ∃ ε : ℚ, 0 < ε ∧ ε ≤ 1 / 4 ∧ ε ≤ 2 ^ 30 + (1 - q 30) * 2 ^ 32 - t - 1 :=
    ⟨_, lt_min (by norm_num) room, min_le_left (1 / 4) _, min_le_right _ _⟩
  have deep {k j : Nat} (positive : 1 ≤ k) (low : k ≤ 29) (bound : j ≤ 32) : q k * 2 ^ j ≤ 2 ^ k - 5 / 4 := by
    have width : (2 : ℚ) ^ j ≤ 2 ^ 32 := pow_le_pow_right₀ (by norm_num) bound
    exact (mul_le_mul_of_nonneg_left width (nonneg k)).trans (hits k positive low)
  rw [same]
  refine ⟨fun k => if k ≤ 30 then t - 2 ^ k + 1 + ε else if k ≤ 31 then t + 1 - 2 ^ 31 else 1,
    fun k j positive le bound => ?_, rfl, fun w _ narrow => ?_⟩
  · dsimp only
    rcases le.eq_or_lt with rfl | less
    · linarith [one_le_level some (le_refl k) bound]
    · rw [levels]
      rcases (show j ≤ 30 ∨ j = 31 ∨ j = 32 by omega) with short | rfl | rfl
      · rw [if_pos short, if_pos (show k ≤ 30 by omega)]
        linarith [deep positive (show k ≤ 29 by omega) bound]
      · rw [if_neg (show ¬ 31 ≤ 30 by decide), if_pos (le_refl 31), if_pos (show k ≤ 30 by omega)]
        rcases (show k ≤ 29 ∨ k = 30 by omega) with low | rfl
        · linarith [deep positive low bound]
        · linarith
      · rw [if_neg (show ¬ 32 ≤ 30 by decide), if_neg (show ¬ 32 ≤ 31 by decide)]
        rcases (show k ≤ 29 ∨ k = 30 ∨ k = 31 by omega) with low | rfl | rfl
        · rw [if_pos (show k ≤ 30 by omega)]
          linarith [deep positive low bound]
        · rw [if_pos (le_refl 30)]
          linarith
        · rw [if_neg (show ¬ 31 ≤ 30 by decide), if_pos (le_refl 31)]
          linarith
  · dsimp only
    rw [if_pos narrow]
    linarith

theorem falls_32 {n : Nat} (dense : dense32 ≤ n) (half : n ≤ 2 ^ 31) :
    ∃ φ : Nat → ℚ, Falls n 32 1 φ ∧ φ 32 = 1 ∧
      ∀ w, 1 ≤ w → w ≤ 30 → min (2 ^ 32) (2 ^ 31 + levelSize n 32 31 32 - 1) + 1 < 2 ^ w + φ w := by
  have pair := dense_pair dense half
  unfold dense32 at dense
  have all : n ≤ 2 ^ 32 := half.trans (by norm_num)
  have four : prob (2 ^ 32 : Nat) n (4 : Nat) ≤ 2 / 5 := by
    have fewest := prob_mono dense (show 4 ≤ 2 ^ 32 by norm_num) all
    rw [prob_four (by norm_num) (dense.trans all)] at fewest
    norm_num at fewest ⊢
    linarith
  exact falls_deep (show 1 ≤ n by omega) (levelSize_eq n 32) (fun k => prob_nonneg _ _ _)
    (fun k positive low => dense_hits (by decide) le_rfl positive (by omega) all (by omega)) four pair

/-! ## Wide arrays -/

theorem expectedSize_single {n : Nat} (some : 1 ≤ n) (b : Nat) :
    expectedSize n b (sums 0 (List.replicate 4 0 ++ [b])) = 2 ^ b + 4 := by
  rw [expectedSize_eq some b (by simp), linkCost_padded some]
  simp [sums, Chains.linkCost, levelSize_root some]

theorem expectedSize_pair {n : Nat} (some : 1 ≤ n) {b c : Nat} (le : c ≤ b) :
    expectedSize n b (sums 0 (List.replicate 3 0 ++ [c, b - c])) = 2 ^ c + levelSize n b c b + 3 := by
  rw [expectedSize_eq some b (by simp), linkCost_padded some]
  simp [sums, Chains.linkCost, levelSize_root some, Nat.add_sub_cancel' le]

theorem linkCost_append (link : Nat → Nat → ℚ) (before : Nat) (ws vs : List Nat) :
    Chains.linkCost link before (sums before (ws ++ vs)) =
      Chains.linkCost link before (sums before ws) + Chains.linkCost link (before + ws.sum)
        (sums (before + ws.sum) vs) := by
  induction ws generalizing before with
  | nil => simp [sums, Chains.linkCost]
  | cons w ws ih => simp only [List.cons_append, sums, Chains.linkCost, ih, List.sum_cons, add_assoc]

theorem last_bit {n b k : Nat} (some : 1 ≤ n) {ws : List Nat} (one : ws.sum = 1) (ends : k + 1 = b) :
    levelSize n b k b + ws.length ≤ Chains.linkCost (levelSize n b) k (sums k ws) + 1 := by
  induction ws with
  | nil => cases one
  | cons w ws ih =>
      rw [List.sum_cons] at one
      rw [sums, Chains.linkCost, List.length_cons]
      push_cast
      rcases (show w = 0 ∧ ws.sum = 1 ∨ w = 1 ∧ ws.sum = 0 by omega) with ⟨rfl, rest⟩ | ⟨rfl, rest⟩
      · have level := one_le_level some (le_refl k) (show k ≤ b by omega)
        have bound := ih rest
        rw [Nat.add_zero]
        linarith
      · have levels := length_le_linkCost some (show k + 1 + ws.sum ≤ b by omega)
        rw [ends] at levels ⊢
        linarith

theorem wide_cost {n b : Nat} (some : 1 ≤ n) (small : b ≤ 32) {ws : List Nat} (sum : ws.sum = b) {w : Nat}
    (member : w ∈ ws)
    (wide : 31 ≤ w) :
    2 ^ b + ws.length ≤ expectedSize n b (sums 0 ws) + 1 ∨ b = 32 ∧
      (2 ^ 31 + levelSize n 32 31 32 + ws.length ≤ expectedSize n 32 (sums 0 ws) + 2 ∨
        levelSize n 32 1 32 + ws.length ≤ expectedSize n 32 (sums 0 ws) + 1) := by
  obtain ⟨before, after, rfl⟩ := List.append_of_mem member
  rw [List.sum_append, List.sum_cons] at sum
  have front := length_le_linkCost some (show 0 + before.sum ≤ b by omega)
  have split : expectedSize n b (sums 0 (before ++ w :: after)) =
      Chains.linkCost (levelSize n b) 0 (sums 0 before) + (levelSize n b before.sum (before.sum + w) +
        Chains.linkCost (levelSize n b) (before.sum + w) (sums (before.sum + w) after)) := by
    rw [expectedSize_eq some b (by simp), linkCost_append, Nat.zero_add, sums, Chains.linkCost]
  rw [List.length_append, List.length_cons]
  push_cast
  rcases (show before.sum = 0 ∧ w = b ∧ after.sum = 0 ∨ before.sum = 0 ∧ w = 31 ∧ b = 32 ∧ after.sum = 1 ∨
    before.sum = 1 ∧ w = 31 ∧ b = 32 ∧ after.sum = 0 by omega) with
    ⟨start, rfl, rest⟩ | ⟨start, rfl, rfl, rest⟩ | ⟨start, rfl, rfl, rest⟩
  · left
    have back := length_le_linkCost some (show w + after.sum ≤ w by omega)
    rw [start, Nat.zero_add, levelSize_root some] at split
    linarith
  · right
    refine ⟨rfl, .inl ?_⟩
    have back := last_bit some rest (show 31 + 1 = 32 from rfl)
    rw [start, Nat.zero_add, levelSize_root some] at split
    linarith
  · right
    refine ⟨rfl, .inr ?_⟩
    have back := length_le_linkCost some (show 32 + after.sum ≤ 32 by omega)
    rw [start, show 1 + 31 = 32 from rfl] at split
    linarith

/-! ## The best array -/

structure BestOfFive (n b : Nat) (a : List Nat) : Prop where
  length : a.length = 5
  sum : a.sum = b
  least : ∀ ws : List Nat, ws.length = 5 → ws.sum = b → expectedSize n b (sums 0 a) ≤ expectedSize n b (sums 0 ws)

namespace BestOfFive

variable {n b : Nat} {a : List Nat}

theorem le_single (best : BestOfFive n b a) (some : 1 ≤ n) : expectedSize n b (sums 0 a) ≤ 2 ^ b + 4 := by
  rw [← expectedSize_single some]
  apply best.least
  · rfl
  · simp

theorem le_pair (best : BestOfFive n b a) (some : 1 ≤ n) {c : Nat} (le : c ≤ b) :
    expectedSize n b (sums 0 a) ≤ 2 ^ c + levelSize n b c b + 3 := by
  rw [← expectedSize_pair some le]
  apply best.least
  · rfl
  · simp [Nat.add_sub_cancel' le]

/-- No array of narrow levels is as good as `t` and a slot for each further level. -/
theorem wide (best : BestOfFive n b a) (some : 1 ≤ n) (positive : 1 ≤ b) {t : ℚ}
    (falls : ∃ φ : Nat → ℚ, Falls n b 1 φ ∧ φ b = 1 ∧ ∀ w, 1 ≤ w → w ≤ 30 → t + 1 < 2 ^ w + φ w)
    (cheap : expectedSize n b (sums 0 a) ≤ t + 4) : ¬ ∀ w ∈ a, w ≤ 30 := by
  intro narrow
  obtain ⟨φ, falls, ends, first⟩ := falls
  have cost := narrow_cost some falls ends first narrow best.sum positive
  rw [← expectedSize_eq some b (List.ne_nil_of_length_pos (by rw [best.length]; decide)), best.length] at cost
  push_cast at cost
  linarith

theorem wide_31 (best : BestOfFive n 31 a) (dense : dense31 ≤ n) (all : n ≤ 2 ^ 31) : ¬ ∀ w ∈ a, w ≤ 30 := by
  have some : 1 ≤ n := le_trans (by decide) dense
  exact best.wide some (by decide) (falls_31 dense all) (best.le_single some)

theorem wide_32 (best : BestOfFive n 32 a) (dense : dense32 ≤ n) (half : n ≤ 2 ^ 31) : ¬ ∀ w ∈ a, w ≤ 30 := by
  have some : 1 ≤ n := le_trans (by decide) dense
  refine best.wide some (by decide) (falls_32 dense half) ?_
  rw [← min_add_add_right]
  apply le_min
  · exact best.le_single some
  · linarith [best.le_pair some (show 31 ≤ 32 by decide)]

theorem narrow_31 (best : BestOfFive n 31 a) (some : 1 ≤ n) (sparse : n < dense31) : ∀ w ∈ a, w ≤ 30 := by
  unfold dense31 at sparse
  intro w member
  by_contra wide
  have often : 2 ^ 30 - 1 < prob (2 ^ 31 : Nat) n (2 : Nat) * 2 ^ 31 := by
    have most := prob_mono (Nat.le_of_lt_succ sparse) (show 2 ≤ 2 ^ 31 by norm_num) (by norm_num)
    rw [prob_two (by norm_num) (show 628983398 ≤ 2 ^ 31 by norm_num)] at most
    norm_num at most ⊢
    linarith
  have pair := best.le_pair some (show 30 ≤ 31 by decide)
  have deepest : levelSize n 31 30 31 = (1 - prob (2 ^ 31 : Nat) n (2 : Nat)) * 2 ^ 31 := levelSize_eq n 31 30 31
  rcases wide_cost some (by decide) best.sum member (by omega) with cost | ⟨other, -⟩
  · rw [best.length] at cost
    rw [deepest] at pair
    push_cast at cost
    linarith
  · cases other

theorem sparse_four (some : 1 ≤ n) (sparse : n < dense32) :
    prob (2 ^ 32 : Nat) n (2 ^ 31 : Nat) * 2 ^ 32 + 2 ^ 30 < prob (2 ^ 32 : Nat) n (4 : Nat) * 2 ^ 32 + 1 := by
  unfold dense32 at sparse
  have halves : prob (2 ^ 32 : Nat) n (2 ^ 31 : Nat) ≤ (1 / 2) ^ n := by
    have missed := prob_le_pow (n := n) (show 0 < 2 ^ 32 by norm_num) (show 2 ^ 31 ≤ 2 ^ 32 by norm_num)
    have share : ((((2 ^ 32 : Nat) : ℚ) - (2 ^ 31 : Nat)) / (2 ^ 32 : Nat)) = 1 / 2 := by norm_num
    rwa [share] at missed
  by_cases few : n ≤ 16
  · have most := prob_mono few (show 4 ≤ 2 ^ 32 by norm_num) (by norm_num)
    rw [prob_four (by norm_num) (show 16 ≤ 2 ^ 32 by norm_num)] at most
    have half : ((1 : ℚ) / 2) ^ n ≤ (1 / 2) ^ 1 := pow_le_pow_of_le_one (by norm_num) (by norm_num) some
    have missed := halves.trans half
    norm_num at most missed ⊢
    linarith
  · have most := prob_mono (Nat.le_of_lt_succ sparse) (show 4 ≤ 2 ^ 32 by norm_num) (by norm_num)
    rw [prob_four (by norm_num) (show 1257936971 ≤ 2 ^ 32 by norm_num)] at most
    have tiny : ((1 : ℚ) / 2) ^ n ≤ (1 / 2) ^ 17 := pow_le_pow_of_le_one (by norm_num) (by norm_num) (by omega)
    have missed := halves.trans tiny
    norm_num at most missed ⊢
    linarith

theorem narrow_32 (best : BestOfFive n 32 a) (some : 1 ≤ n) (sparse : n < dense32) : ∀ w ∈ a, w ≤ 30 := by
  intro w member
  by_contra wide
  have four := sparse_four some sparse
  unfold dense32 at sparse
  have often : (prob (2 ^ 32 : Nat) n (2 : Nat) - prob (2 ^ 32 : Nat) n (4 : Nat)) * 2 ^ 32 < 2 ^ 30 := by
    have falls := gap_antitone (show 3037000500 ≤ 2 ^ 32 - 1257936971 by norm_num)
      (show 2 ^ 32 - 1257936971 ≤ 2 ^ 32 - n by omega)
    rw [gap_eq (by omega), div_mul_eq_mul_div, div_lt_iff₀ (by norm_num)]
    norm_num [gap] at falls ⊢
    linarith
  have nonneg := prob_nonneg (2 ^ 32) n (2 ^ 31)
  have pair := best.le_pair some (show 30 ≤ 32 by decide)
  have second : levelSize n 32 30 32 = (1 - prob (2 ^ 32 : Nat) n (4 : Nat)) * 2 ^ 32 := levelSize_eq n 32 30 32
  have deepest : levelSize n 32 31 32 = (1 - prob (2 ^ 32 : Nat) n (2 : Nat)) * 2 ^ 32 := levelSize_eq n 32 31 32
  have first : levelSize n 32 1 32 = (1 - prob (2 ^ 32 : Nat) n (2 ^ 31 : Nat)) * 2 ^ 32 := levelSize_eq n 32 1 32
  have cost := wide_cost some (le_refl 32) best.sum member (by omega)
  rw [best.length, first, deepest] at cost
  rw [second] at pair
  generalize prob (2 ^ 32 : Nat) n (2 : Nat) = q at often cost
  generalize prob (2 ^ 32 : Nat) n (4 : Nat) = r at often four pair
  generalize prob (2 ^ 32 : Nat) n (2 ^ 31 : Nat) = s at four nonneg cost
  push_cast at cost
  rcases cost with single | ⟨-, two | first⟩
  · linarith
  · linarith
  · linarith

end BestOfFive

end Optimizer

namespace SORT

variable {W : Type} [Zero W]

def layers (bitLength : Nat) : Nat :=
  let l := Nat.clog 2 bitLength
  if l = 0 then 1 else l

def forRange (n bitLength : Nat) : Result (SORT W) := optimal n bitLength (layers bitLength) true

/-- `1 << bits` for 32-bit operands; it is undefined to shift further than by 31. -/
def shiftOne (bits : Nat) : Option Int := if bits < 32 then some (1#32 <<< bits).toInt else none

structure Exact (t : SORT W) : Prop where
  widths : ∀ w ∈ t.numBits, w ≤ 30
  shifts : ∀ w ∈ t.numBits, shiftOne w = some (2 ^ w)
  slots : ∀ id i, i < t.depth → ∃ size, shiftOne (t.numBits.getD i 0) = some size ∧ (t.digit id i : Int) < size

theorem shiftOne_exact {w : Nat} (narrow : w ≤ 30) : shiftOne w = some (2 ^ w) := by
  rw [shiftOne, if_pos (by omega)]
  interval_cases w <;> rfl

theorem Shaped.exact_iff {t : SORT W} {ws : List Nat} (shaped : t.Shaped ws) : t.Exact ↔ ∀ w ∈ ws, w ≤ 30 := by
  constructor
  · intro exact
    rw [← shaped.numBits]
    exact exact.widths
  · intro narrow
    rw [← shaped.numBits] at narrow
    refine ⟨narrow, fun w member => shiftOne_exact (narrow w member), fun id i inside => ?_⟩
    rw [shaped.depth] at inside
    have split : ws = ws.take i ++ ws[i] :: ws.drop (i + 1) := by
      rw [← List.drop_eq_getElem_cons inside, List.take_append_drop]
    have taken : (ws.take i).length = i := List.length_take_of_le inside.le
    obtain ⟨-, bits, digit⟩ := Shaped.level (split ▸ shaped) id
    rw [taken] at bits digit
    have member : ws[i] ∈ t.numBits := shaped.numBits ▸ List.getElem_mem inside
    refine ⟨2 ^ ws[i], by rw [bits, shiftOne_exact (narrow _ member)], ?_⟩
    rw [digit]
    exact_mod_cast Nat.mod_lt _ (Nat.two_pow_pos ws[i])

theorem forRange_eq (n : Nat) {b : Nat} (small : b ≤ 32) : ∃ a : List Nat,
    (forRange n b : Result (SORT W)) = .ok (ofFanout (prune a)) ∧ a.sum = b ∧
      (16 < b → Optimizer.BestOfFive n b a) := by
  have positive : 1 ≤ layers b := by
    unfold layers
    dsimp only
    split
    · exact le_rfl
    · omega
  have few : layers b < 2 ^ 31 := by
    have deepest : layers b ≤ 32 := by
      unfold layers
      interval_cases b <;> decide
    omega
  obtain ⟨a, returned, length, sum, least⟩ := Optimizer.optimalFanout_optimal n small positive few
  have widths : (a.map Int.ofNat).map Int.toNat = a := by
    rw [List.map_map]
    exact List.map_id a
  refine ⟨a, ?_, sum, fun deep => ?_⟩
  · rw [forRange, optimal, returned, ok_bind, ofOptimal, if_pos rfl, widths]
  · have five : layers b = 5 := by
      unfold layers
      interval_cases b <;> decide
    rw [five] at length least
    exact ⟨length, sum, least⟩

/-- The nodes of the tree for ids of up to 30 bits have the right sizes, and so have those for more bits as
long as the ids are sparse. Among dense ids the optimiser asks for a level of 31 or 32 bits, which is more
than a shifted `int` holds. -/
theorem node_sizes_iff (W : Type) [Zero W] {n b : Nat} (some : 1 ≤ n) (int : n < 2 ^ 31) (bits : 1 ≤ b ∧ b ≤ 32) :
    ∃ t : SORT W, forRange n b = .ok t ∧
      (t.Exact ↔ b ≤ 30 ∨ b = 31 ∧ n < 628983399 ∨ b = 32 ∧ n < 1257936972) := by
  obtain ⟨a, made, sum, best⟩ := forRange_eq (W := W) n bits.2
  have pruned : (∀ w ∈ prune a, w ≤ 30) ↔ ∀ w ∈ a, w ≤ 30 := by
    simp only [prune, List.mem_filter, decide_eq_true_eq]
    exact ⟨fun narrow w member => by by_cases zero : w = 0 <;> simp_all, fun narrow w member => narrow w member.1⟩
  refine ⟨_, made, ?_⟩
  rw [(ofFanout_shaped (prune a)).exact_iff, pruned]
  rcases (show b ≤ 30 ∨ b = 31 ∨ b = 32 by omega) with low | rfl | rfl
  · refine iff_of_true (fun w member => ?_) (.inl low)
    exact (List.le_sum_of_mem member).trans (sum.le.trans low)
  · have best := best (by decide)
    constructor
    · intro narrow
      exact .inr (.inl ⟨rfl, Nat.lt_of_not_le fun dense => best.wide_31 dense int.le narrow⟩)
    · rintro (low | ⟨-, sparse⟩ | ⟨other, -⟩)
      · exact absurd low (by decide)
      · exact best.narrow_31 some sparse
      · cases other
  · have best := best (by decide)
    constructor
    · intro narrow
      exact .inr (.inr ⟨rfl, Nat.lt_of_not_le fun dense => best.wide_32 dense int.le narrow⟩)
    · rintro (low | ⟨other, -⟩ | ⟨-, sparse⟩)
      · exact absurd low (by decide)
      · cases other
      · exact best.narrow_32 some sparse

theorem node_sizes_iff_million : ∃ t : SORT Nat, forRange 1000000 32 = .ok t ∧ t.Exact := by
  obtain ⟨t, made, exact⟩ := node_sizes_iff Nat (show 1 ≤ 1000000 by decide) (by decide)
      (show 1 ≤ 32 ∧ 32 ≤ 32 by decide)
  exact ⟨t, made, exact.mpr (by decide)⟩

/-- Two thousand million vertices with ids of 32 bits get a level of more than 30 bits. -/
theorem inexact_dense : ∃ t : SORT Nat, forRange 2000000000 32 = .ok t ∧ ¬ t.Exact := by
  obtain ⟨a, made, -, best⟩ := forRange_eq (W := Nat) 2000000000 (le_refl 32)
  refine ⟨_, made, fun exact => (best (by decide)).wide_32 (by decide) (by decide) fun w member => ?_⟩
  have narrow := (ofFanout_shaped (prune a)).exact_iff.mp exact
  by_cases zero : w = 0
  · omega
  · exact narrow w (List.mem_filter.mpr ⟨member, by simpa using zero⟩)

end SORT

end Radix
