import Mathlib.Data.Nat.Choose.Basic
import Mathlib.Data.Nat.Factorial.BigOperators
import Radix.Lib.Census
import Radix.Lib.Draws
import Radix.Sort.Optimizer
import Radix.Sort.Transform

/-!
# The average size of a tree

What the optimiser minimises is the average of `Size` over all sets of ids of one size.
-/

namespace Radix

open Lib

namespace Optimizer

theorem prob_eq_choose {u desc n : Nat} (le : desc ≤ u) (all : n ≤ u) :
    prob u n desc = ((u - desc).choose n : ℚ) / u.choose n := by
  by_cases room : n + desc ≤ u
  · have ascending (m : Nat) : ((∏ i ∈ Finset.range n, (m + (i + 1)) : Nat) : ℚ) =
        (n.factorial : ℚ) * ((m + n).choose n : ℚ) := by
      rw [← Nat.cast_mul, ← Nat.ascFactorial_eq_factorial_mul_choose, Nat.ascFactorial_eq_prod_range]
      refine congrArg Nat.cast (Finset.prod_congr rfl fun i _ => by omega)
    have top := ascending (u - n - desc)
    have bottom := ascending (u - n)
    rw [show u - n - desc + n = u - desc by omega, Nat.cast_prod] at top
    rw [Nat.sub_add_cancel all, Nat.cast_prod] at bottom
    rw [prob_eq_prod room, Finset.prod_div_distrib, top, bottom]
    exact mul_div_mul_left _ _ (Nat.cast_ne_zero.mpr n.factorial_ne_zero)
  · rw [prob_of_full (Nat.not_le.mp room), Nat.choose_eq_zero_of_lt (by omega), Nat.cast_zero, zero_div]

end Optimizer

namespace SORT

def draws (B n : Nat) : Finset (Finset Nat) := (Finset.range (2 ^ B)).powersetCard n

theorem block_card {B m q : Nat} (le : m ≤ B) (inside : q < 2 ^ (B - m)) :
    ((Finset.range (2 ^ B)).filter (· / 2 ^ m = q)).card = 2 ^ m := by
  have shifted : (Finset.range (2 ^ B)).filter (· / 2 ^ m = q) =
      (Finset.range (2 ^ m)).image (q * 2 ^ m + ·) := by
    ext x
    simp only [Finset.mem_filter, Finset.mem_range, Finset.mem_image]
    constructor
    · rintro ⟨-, rfl⟩
      exact ⟨x % 2 ^ m, Nat.mod_lt _ (Nat.two_pow_pos m), Nat.div_add_mod' x (2 ^ m)⟩
    · rintro ⟨r, small, rfl⟩
      refine ⟨?_, ?_⟩
      · calc q * 2 ^ m + r < (q + 1) * 2 ^ m := by rw [Nat.add_mul]; omega
          _ ≤ 2 ^ (B - m) * 2 ^ m := Nat.mul_le_mul_right _ inside
          _ = 2 ^ B := by rw [← Nat.pow_add, Nat.sub_add_cancel le]
      · rw [Nat.mul_comm, Nat.mul_add_div (Nat.two_pow_pos m), Nat.div_eq_of_lt small, Nat.add_zero]
  rw [shifted, Finset.card_image_of_injective _ fun a b same => Nat.add_left_cancel same, Finset.card_range]

theorem average_prefixes {B m n : Nat} (le : m ≤ B) (all : n ≤ 2 ^ B) :
    ((∑ S ∈ draws B n, (S.image (· / 2 ^ m)).card : Nat) : ℚ) / (2 ^ B).choose n =
      2 ^ (B - m) * (1 - Optimizer.prob (2 ^ B : Nat) n (2 ^ m : Nat)) := by
  have maps (x : Nat) (member : x ∈ Finset.range (2 ^ B)) : x / 2 ^ m ∈ Finset.range (2 ^ (B - m)) := by
    rw [Finset.mem_range] at member ⊢
    rw [Nat.div_lt_iff_lt_mul (Nat.two_pow_pos m), ← Nat.pow_add, Nat.sub_add_cancel le]
    exact member
  have counted := sum_card_image maps (fun q member => block_card le (Finset.mem_range.mp member)) n
  simp only [Finset.card_range] at counted
  have positive : (0 : ℚ) < (2 ^ B).choose n := Nat.cast_pos.mpr (Nat.choose_pos all)
  have counted : ((∑ S ∈ draws B n, (S.image (· / 2 ^ m)).card : Nat) : ℚ) +
      2 ^ (B - m) * (2 ^ B - 2 ^ m).choose n = 2 ^ (B - m) * (2 ^ B).choose n := by exact_mod_cast counted
  rw [Optimizer.prob_eq_choose (Nat.pow_le_pow_right (by decide) le) all, eq_sub_of_add_eq counted]
  field_simp

/-- The levels below the prefix sum `before` have on average the sizes that the optimiser assumes. -/
theorem average_nodes {B n : Nat} (all : n ≤ 2 ^ B) {before : Nat} {ws : List Nat} (sum : before + ws.sum = B) :
    ((∑ S ∈ draws B n, Trie.nodes (2 ^ ·) ws S : Nat) : ℚ) / (2 ^ B).choose n =
      Chains.linkCost (Optimizer.levelSize n B) before (sums before ws) := by
  induction ws generalizing before with
  | nil => simp [Trie.nodes, sums, Chains.linkCost]
  | cons w ws ih =>
      have level := average_prefixes (B := B) (m := (w :: ws).sum) (n := n) (by omega) all
      have rest := ih (show before + w + ws.sum = B by rw [← sum, List.sum_cons, Nat.add_assoc])
      have size : Optimizer.levelSize n B before (before + w) = 2 ^ w *
          (2 ^ (B - (w :: ws).sum) *
            (1 - Optimizer.prob (2 ^ B : Nat) n (2 ^ (w :: ws).sum : Nat))) := by
        rw [Optimizer.levelSize, Optimizer.prob_cast, show B - before = (w :: ws).sum by omega,
          show B - (w :: ws).sum = before by omega, pow_add]
        ring
      simp only [Trie.nodes, sums, Chains.linkCost]
      rw [Finset.sum_add_distrib, ← Finset.mul_sum, Nat.cast_add, add_div, rest, size, ← level]
      push_cast
      ring

variable {W : Type} [Zero W]

def Holding (ws : List Nat) (S : Finset Nat) (t : SORT W) : Prop :=
  ∃ (calls : List (GlobalInfo × Call)) (answers : List Answer),
    (∀ c ∈ calls, c.2.id < 2 ^ ws.sum) ∧ (∀ id, id ∈ S ↔ id ∈ insertions calls) ∧
      (ofFanout ws).runCalls calls = .ok (answers, t) ∧ t.root ≠ .empty

/-- The average of `Size` over all sets of `n` ids below `2 ^ ws.sum`. -/
def AverageSize (W : Type) [Zero W] (ws : List Nat) (n : Nat) (average : ℚ) : Prop :=
  ∃ size : Finset Nat → Nat,
    (∀ S ∈ draws ws.sum n, (∃ t : SORT W, Holding ws S t) ∧
      ∀ t : SORT W, Holding ws S t → ∃ enough, ∀ rounds ≥ enough, t.size rounds = .ok (size S)) ∧
    average = ((∑ S ∈ draws ws.sum n, size S : Nat) : ℚ) / (2 ^ ws.sum).choose n

theorem exists_holding {ws : List Nat} (levels : ws ≠ []) {S : Finset Nat} (inRange : ∀ id ∈ S, id < 2 ^ ws.sum) :
    ∃ t : SORT W, Holding ws S t := by
  let inserts := S.toList.map fun id => ((⟨0, false⟩, .retrieveVertex id true) : GlobalInfo × Call)
  obtain ⟨answers, t, ran, dict, -⟩ := (ofFanout_dictionary (W := W) levels).runCalls inserts
  obtain ⟨root, queried, dict', rooted⟩ := dict.query_rooted ⟨0, false⟩ 0
  have asked : t.runCalls [(⟨0, false⟩, .retrieveVertex 0 false)] =
      .ok ([.vertex (record (position ws.sum (enteredBy ws.sum [] inserts) 0))], { t with root := root }) := by
    rw [SORT.runCalls, SORT.call, queried]
    rfl
  refine ⟨{ t with root := root }, inserts ++ [(⟨0, false⟩, .retrieveVertex 0 false)], _, ?_, ?_,
    runCalls_append ran asked, ?_⟩
  · intro c member
    rcases List.mem_append.mp member with inserted | query
    · obtain ⟨id, inside, rfl⟩ := List.mem_map.mp inserted
      exact inRange id (Finset.mem_toList.mp inside)
    · obtain rfl := List.mem_singleton.mp query
      exact Nat.two_pow_pos _
  · intro id
    rw [insertions_append]
    simp [insertions, inserts]
  · obtain ⟨w, rest, rfl⟩ := List.exists_cons_of_ne_nil levels
    obtain ⟨c, rfl⟩ := rooted.node
    exact fun null => by cases null

theorem Holding.size {w : Nat} {ws : List Nat} {S : Finset Nat} {t : SORT W} (holding : Holding (w :: ws) S t) :
    ∃ enough, ∀ rounds ≥ enough, t.size rounds = .ok (2 ^ w + Trie.nodes (2 ^ ·) ws S) := by
  obtain ⟨calls, answers, inRange, inserted, ran, root⟩ := holding
  obtain ⟨_, s, ran', dict, -⟩ := (ofFanout_dictionary (W := W) (List.cons_ne_nil w ws)).runCalls calls
  obtain rfl : t = s := (Prod.mk.inj (Except.ok.inj (ran.symm.trans ran'))).2
  rw [enteredBy_inRange inRange] at dict
  have rooted := dict.root.resolve_left fun none => root none.1
  have stored (id : Nat) : id ∈ S ↔ id < 2 ^ (w :: ws).sum ∧ t.root.find (cut (w :: ws) id) ≠ .empty := by
    have bounded := firstInserted_inRange inRange
    have member : id ∈ S ↔ id ∈ firstInserted calls := by rw [inserted, firstInserted, List.mem_eraseDups]
    rw [dict.found, ne_eq, record_eq_empty, member]
    constructor
    · intro inside
      refine ⟨bounded id inside, ?_⟩
      rw [position_none_inRange bounded (bounded id inside)]
      exact fun absent => absent inside
    · rintro ⟨here, found⟩
      rw [position_none_inRange bounded here] at found
      exact not_not.mp found
  refine ⟨Trie.weigh (fun _ => 1) (w :: ws) t.shape, fun rounds enough => ?_⟩
  rw [size_spec dict.shaped dict.levels rooted enough, shape, Trie.weigh_map, Trie.weigh_rooted _ rooted stored]

theorem averageSize_expected (W : Type) [Zero W] {ws : List Nat} (levels : ws ≠ []) {n : Nat} (all : n ≤ 2 ^ ws.sum) :
    AverageSize W ws n (Optimizer.expectedSize n ws.sum (sums 0 ws)) := by
  obtain ⟨w, rest, rfl⟩ := List.exists_cons_of_ne_nil levels
  refine ⟨fun S => 2 ^ w + Trie.nodes (2 ^ ·) rest S, fun S drawn => ⟨?_, fun t holding => holding.size⟩, ?_⟩
  · exact exists_holding levels fun id member => Finset.mem_range.mp ((Finset.mem_powersetCard.mp drawn).1 member)
  · have below := average_nodes all (show w + rest.sum = (w :: rest).sum from List.sum_cons.symm)
    have positive : (0 : ℚ) < (2 ^ (w :: rest).sum).choose n := Nat.cast_pos.mpr (Nat.choose_pos all)
    have root : ∑ _S ∈ draws (w :: rest).sum n, 2 ^ w = (2 ^ (w :: rest).sum).choose n * 2 ^ w := by
      rw [Finset.sum_const, draws, Finset.card_powersetCard, Finset.card_range, smul_eq_mul]
    rw [Finset.sum_add_distrib, root, Nat.cast_add, add_div, below, Optimizer.expectedSize, sums, Nat.zero_add,
      Chains.cost]
    push_cast
    field_simp

/-- A tree with these digit widths, filled with `n` ids drawn at random, has on average the size that
`OptimalFanout` minimises. -/
theorem average_size (W : Type) [Zero W] {bitLength l n : Nat} (layers : 1 ≤ l) (all : n ≤ 2 ^ bitLength)
    {numBits : List Nat} (length : numBits.length = l) (sum : numBits.sum = bitLength) :
    AverageSize W numBits n (Optimizer.expectedSize n bitLength (sums 0 numBits)) := by
  have levels : numBits ≠ [] := List.ne_nil_of_length_pos (length ▸ layers)
  rw [← sum] at all ⊢
  exact averageSize_expected W levels all

theorem average_size_gaps : AverageSize Nat [0, 2, 0, 1] 5 (Optimizer.expectedSize 5 3 (sums 0 [0, 2, 0, 1])) :=
  average_size Nat (l := 4) (by decide) (by decide) rfl rfl

end SORT

end Radix
