import Mathlib.Algebra.BigOperators.Group.Finset.Basic
import Mathlib.Algebra.BigOperators.Ring.Finset
import Mathlib.Algebra.Order.BigOperators.Group.Finset
import Radix.Lib.Trie

/-!
# Counting the nodes of a trie

A trie over the digits of some numbers has one node on a level for each different prefix that the
numbers have there.
-/

namespace Radix.Lib.Trie

universe u

variable {α : Type u}

def nodes (f : ℕ → ℕ) : List ℕ → Finset ℕ → ℕ
  | [], _ => 0
  | w :: ws, S => f w * (S.image (· / 2 ^ (w :: ws).sum)).card + nodes f ws S

theorem nodes_empty (f : ℕ → ℕ) (ws : List ℕ) : nodes f ws ∅ = 0 := by
  induction ws with
  | nil => rfl
  | cons w ws ih => simp [nodes, ih]

theorem nodes_eq_sum (f : ℕ → ℕ) (ws : List ℕ) (S : Finset ℕ) : nodes f ws S =
    ∑ i ∈ Finset.range ws.length, f (ws.getD i 0) * (S.image (· / 2 ^ (ws.drop i).sum)).card := by
  induction ws with
  | nil => rfl
  | cons w ws ih =>
      rw [nodes, ih, List.length_cons, Finset.sum_range_succ', Nat.add_comm]
      rfl

theorem card_image_split {S T : Finset ℕ} {m M : ℕ} (le : m ≤ M) (maps : ∀ x ∈ S, x / 2 ^ M ∈ T) :
    (S.image (· / 2 ^ m)).card = ∑ q ∈ T, ((S.filter (· / 2 ^ M = q)).image (· / 2 ^ m)).card := by
  have shorter (x : ℕ) : x / 2 ^ m / 2 ^ (M - m) = x / 2 ^ M := by
    rw [Nat.div_div_eq_div_mul, ← Nat.pow_add, Nat.add_sub_cancel' le]
  have counted := Finset.card_eq_sum_card_fiberwise (s := S.image (· / 2 ^ m)) (t := T) (f := (· / 2 ^ (M - m)))
    (fun y member => by
      obtain ⟨x, inside, rfl⟩ := Finset.mem_image.mp member
      change x / 2 ^ m / 2 ^ (M - m) ∈ T
      rw [shorter]
      exact maps x inside)
  rw [counted]
  refine Finset.sum_congr rfl fun q _ => congrArg Finset.card ?_
  ext y
  simp only [Finset.mem_filter, Finset.mem_image]
  constructor
  · rintro ⟨⟨x, inside, rfl⟩, short⟩
    exact ⟨x, ⟨inside, (shorter x).symm.trans short⟩, rfl⟩
  · rintro ⟨x, ⟨inside, short⟩, rfl⟩
    exact ⟨⟨x, inside, rfl⟩, (shorter x).trans short⟩

theorem nodes_split (f : ℕ → ℕ) {ws : List ℕ} {S T : Finset ℕ} {M : ℕ} (le : ws.sum ≤ M)
    (maps : ∀ x ∈ S, x / 2 ^ M ∈ T) :
    nodes f ws S = ∑ q ∈ T, nodes f ws (S.filter (· / 2 ^ M = q)) := by
  induction ws with
  | nil => simp [nodes]
  | cons w ws ih =>
      have shorter : ws.sum ≤ M := by
        rw [List.sum_cons] at le
        omega
      simp only [nodes]
      rw [ih shorter, card_image_split le maps, Finset.sum_add_distrib, Finset.mul_sum]

/-- The trie below a node, where the numbers that it stores are those with the prefix `q`. -/
theorem nodes_grown (f : ℕ → ℕ) {v : ℕ} {ws : List ℕ} {t : Trie α} (grown : t.Grown (v :: ws)) {S : Finset ℕ} {q : ℕ}
    (below : ∀ x ∈ S, x / 2 ^ (v :: ws).sum = q)
    (stored : ∀ x, x / 2 ^ (v :: ws).sum = q → t.find (cut (v :: ws) x) ≠ .empty → x ∈ S) :
    nodes f (v :: ws) S = f v + nodes f ws S := by
  obtain ⟨ds, a, fit, found⟩ := grown.exists_leaf
  have member : join q (v :: ws) ds ∈ S :=
    stored _ (join_div fit q) (by rw [cut_join fit, found]; exact fun none => by cases none)
  have single : S.image (· / 2 ^ (v :: ws).sum) = {q} :=
    Finset.eq_singleton_iff_unique_mem.mpr ⟨Finset.mem_image.mpr ⟨_, member, join_div fit q⟩, fun y inside => by
      obtain ⟨x, at_x, rfl⟩ := Finset.mem_image.mp inside
      exact below x at_x⟩
  rw [nodes, single, Finset.card_singleton, Nat.mul_one]

/-- The children of a node, where the numbers below it are those with the prefix `p`. -/
theorem weigh_children (f : ℕ → ℕ) {w : ℕ} {ws : List ℕ} {c : ℕ → Trie α}
    (grown : ∀ d, c d = .empty ∨ d < 2 ^ w ∧ Grown ws (c d)) {S : Finset ℕ} {p : ℕ}
    (below : ∀ x ∈ S, x / 2 ^ (w + ws.sum) = p)
    (stored : ∀ x, x / 2 ^ (w + ws.sum) = p → ((node c).find (cut (w :: ws) x) ≠ .empty ↔ x ∈ S)) :
    ((List.range (2 ^ w)).map fun d => weigh f ws (c d)).sum = nodes f ws S := by
  induction ws generalizing w c S p with
  | nil => simp [nodes]
  | cons v ws ih =>
      let M := (v :: ws).sum
      have high (x : ℕ) : x / 2 ^ (w + M) = x / 2 ^ M / 2 ^ w := by
        rw [Nat.div_div_eq_div_mul, ← Nat.pow_add, Nat.add_comm]
      have prefixes (x : ℕ) (member : x ∈ S) :
          x / 2 ^ M ∈ (Finset.range (2 ^ w)).image (p * 2 ^ w + ·) := by
        refine Finset.mem_image.mpr ⟨x / 2 ^ M % 2 ^ w, Finset.mem_range.mpr (Nat.mod_lt _ (Nat.two_pow_pos w)), ?_⟩
        rw [← below x member, high]
        exact Nat.div_add_mod' _ _
      have child {x d : ℕ} (digit : d < 2 ^ w) (at_d : x / 2 ^ M = p * 2 ^ w + d) :
          x / 2 ^ (w + M) = p ∧ (node c).find (cut (w :: v :: ws) x) = (c d).find (cut (v :: ws) x) := by
        have low : x / 2 ^ M % 2 ^ w = d := by rw [at_d, Nat.mul_add_mod', Nat.mod_eq_of_lt digit]
        refine ⟨?_, ?_⟩
        · rw [high, at_d, Nat.mul_comm, Nat.mul_add_div (Nat.two_pow_pos w), Nat.div_eq_of_lt digit, Nat.add_zero]
        · rw [cut_cons, find_node]
          exact congrArg (fun e => (c e).find (cut (v :: ws) x)) low
      rw [nodes_split f le_rfl prefixes, Finset.sum_image (fun a _ b _ same => Nat.add_left_cancel same)]
      change ∑ d ∈ Finset.range (2 ^ w), weigh f (v :: ws) (c d) = _
      refine Finset.sum_congr rfl fun d digit => ?_
      have digit := Finset.mem_range.mp digit
      rcases grown d with none | ⟨-, subtrie⟩
      · have nobody : S.filter (· / 2 ^ (v :: ws).sum = p * 2 ^ w + d) = ∅ := by
          refine Finset.filter_eq_empty_iff.mpr fun x member at_d => ?_
          obtain ⟨under, found⟩ := child digit at_d
          refine (stored x under).mpr member ?_
          rw [found, none, find_empty]
        rw [none, weigh_empty, nobody, nodes_empty]
      · have inside (x : ℕ) (at_d : x / 2 ^ (v :: ws).sum = p * 2 ^ w + d) :
            (c d).find (cut (v :: ws) x) ≠ .empty ↔ x ∈ S.filter (· / 2 ^ (v :: ws).sum = p * 2 ^ w + d) := by
          obtain ⟨under, found⟩ := child digit at_d
          rw [← found, stored x under, Finset.mem_filter, and_iff_left at_d]
        rw [nodes_grown f subtrie (fun x member => (Finset.mem_filter.mp member).2)
          fun x at_d found => (inside x at_d).mp found]
        obtain ⟨e, node, -, all⟩ := subtrie
        rw [node] at inside ⊢
        rw [weigh_node, ih all (fun x member => (Finset.mem_filter.mp member).2) inside]
        rfl

theorem weigh_rooted (f : ℕ → ℕ) {w : ℕ} {ws : List ℕ} {t : Trie α} (rooted : t.Rooted (w :: ws)) {S : Finset ℕ}
    (stored : ∀ x, x ∈ S ↔ x < 2 ^ (w :: ws).sum ∧ t.find (cut (w :: ws) x) ≠ .empty) :
    weigh f (w :: ws) t = f w + nodes f ws S := by
  obtain ⟨c, rfl, all⟩ := rooted
  have low (x : ℕ) : x / 2 ^ (w + ws.sum) = 0 ↔ x < 2 ^ (w :: ws).sum := by
    rw [List.sum_cons, Nat.div_eq_zero_iff, or_iff_right (Nat.two_pow_pos _).ne']
  rw [weigh_node, weigh_children f all (p := 0)]
  · exact fun x member => (low x).mpr ((stored x).mp member).1
  · exact fun x under => by rw [stored, and_iff_right ((low x).mp under)]

end Radix.Lib.Trie
