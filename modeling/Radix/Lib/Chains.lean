import Mathlib.Algebra.Order.Monoid.Defs
import Mathlib.Data.List.Basic
import Mathlib.Tactic.Ring

/-!
# Cheapest chains

A chain is a list of numbers that do not decrease. It costs a price for its first number and one for
each link, and a table filled layer by layer finds the least cost of the chains of each length.
-/

namespace Radix.Lib.Chains

variable {R : Type*} [AddCommMonoid R]

def linkCost (link : ℕ → ℕ → R) : ℕ → List ℕ → R
  | _, [] => 0
  | k, j :: rest => link k j + linkCost link j rest

def cost (first : ℕ → R) (link : ℕ → ℕ → R) : List ℕ → R
  | [] => 0
  | k :: rest => first k + linkCost link k rest

variable (first : ℕ → R) (link : ℕ → ℕ → R)

theorem linkCost_snoc (start : ℕ) (chain : List ℕ) (k j : ℕ) :
    linkCost link start (chain ++ [k, j]) = linkCost link start (chain ++ [k]) + link k j := by
  induction chain generalizing start with
  | nil => simp [linkCost]
  | cons m chain ih => simp only [List.cons_append, linkCost, ih, add_assoc]

theorem cost_snoc (chain : List ℕ) (k j : ℕ) :
    cost first link (chain ++ [k, j]) = cost first link (chain ++ [k]) + link k j := by
  cases chain with
  | nil => simp [cost, linkCost]
  | cons m chain => simp only [List.cons_append, cost, linkCost_snoc, add_assoc]

def trace (pre : ℕ → ℕ → ℕ) : ℕ → ℕ → List ℕ
  | 0, j => [j]
  | i + 1, j => trace pre i (pre (i + 1) j) ++ [j]

theorem trace_length (pre : ℕ → ℕ → ℕ) (i j : ℕ) : (trace pre i j).length = i + 1 := by
  induction i generalizing j with
  | zero => rfl
  | succ i ih => simp [trace, ih]

theorem trace_ends (pre : ℕ → ℕ → ℕ) (i j : ℕ) : ∃ chain, trace pre i j = chain ++ [j] := by
  cases i with
  | zero => exact ⟨[], rfl⟩
  | succ i => exact ⟨_, rfl⟩

variable [LinearOrder R]

/-- A table of least costs with its predecessors, for `m` layers above the first and numbers up to `b`. -/
structure Bellman (m b : ℕ) (g : ℕ → ℕ → R) (pre : ℕ → ℕ → ℕ) : Prop where
  base : ∀ j ≤ b, g 0 j = first j
  least : ∀ i < m, ∀ j ≤ b, ∀ k ≤ j, g (i + 1) j ≤ g i k + link k j
  before : ∀ i < m, ∀ j ≤ b, pre (i + 1) j ≤ j
  attained : ∀ i < m, ∀ j ≤ b, g (i + 1) j = g i (pre (i + 1) j) + link (pre (i + 1) j) j

namespace Bellman

variable {first link} {m b : ℕ} {g : ℕ → ℕ → R} {pre : ℕ → ℕ → ℕ}

theorem le_cost [IsOrderedAddMonoid R] (bellman : Bellman first link m b g pre) {i j : ℕ} (layer : i ≤ m)
    (bound : j ≤ b) {chain : List ℕ} (length : chain.length = i) (sorted : (chain ++ [j]).Pairwise (· ≤ ·)) :
    g i j ≤ cost first link (chain ++ [j]) := by
  induction i generalizing j chain with
  | zero =>
      obtain rfl := List.length_eq_zero_iff.mp length
      rw [bellman.base j bound]
      simp [cost, linkCost]
  | succ i ih =>
      rcases chain.eq_nil_or_concat' with rfl | ⟨front, k, rfl⟩
      · cases length
      · rw [List.length_append, List.length_singleton, Nat.succ_inj] at length
        obtain ⟨sorted_front, -, last⟩ := List.pairwise_append.mp sorted
        have le : k ≤ j := last k (by simp) j (by simp)
        rw [List.append_assoc, List.singleton_append, cost_snoc]
        calc g (i + 1) j
            ≤ g i k + link k j := bellman.least i layer j bound k le
          _ ≤ cost first link (front ++ [k]) + link k j :=
            add_le_add_left (ih (Nat.le_of_succ_le layer) (le.trans bound) length sorted_front) _

theorem cost_trace (bellman : Bellman first link m b g pre) {i j : ℕ} (layer : i ≤ m) (bound : j ≤ b) :
    cost first link (trace pre i j) = g i j := by
  induction i generalizing j with
  | zero =>
      rw [bellman.base j bound]
      simp [trace, cost, linkCost]
  | succ i ih =>
      have before := bellman.before i layer j bound
      obtain ⟨chain, ends⟩ := trace_ends pre i (pre (i + 1) j)
      have back := ih (Nat.le_of_succ_le layer) (before.trans bound)
      rw [ends] at back
      rw [bellman.attained i layer j bound, trace, ends, List.append_assoc, List.singleton_append, cost_snoc, back]

theorem trace_sorted (bellman : Bellman first link m b g pre) {i j : ℕ} (layer : i ≤ m) (bound : j ≤ b) :
    (trace pre i j).Pairwise (· ≤ ·) ∧ ∀ k ∈ trace pre i j, k ≤ j := by
  induction i generalizing j with
  | zero => simp [trace]
  | succ i ih =>
      have before := bellman.before i layer j bound
      obtain ⟨sorted, below⟩ := ih (Nat.le_of_succ_le layer) (before.trans bound)
      have below' (k : ℕ) (member : k ∈ trace pre i (pre (i + 1) j)) : k ≤ j := (below k member).trans before
      refine ⟨List.pairwise_append.mpr ⟨sorted, List.pairwise_singleton _ _, ?_⟩, ?_⟩
      · simpa using below'
      · simpa [trace, or_imp, forall_and] using below'

end Bellman

end Radix.Lib.Chains
