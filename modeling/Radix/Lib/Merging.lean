import Mathlib.Data.List.Basic
import Mathlib.Order.Lattice

/-!
# Common elements of two lists

Counted with one pointer into the second list, which never moves back.
-/

namespace Radix.Lib

variable {α : Type*} [LinearOrder α]

def common : List α → List α → Nat
  | [], _ => 0
  | x :: xs, ys =>
      let rest := ys.dropWhile (· < x)
      common xs rest + if rest.head? = some x then 1 else 0

theorem common_le (xs ys : List α) : common xs ys ≤ xs.countP (· ∈ ys) := by
  suffices within : ∀ zs : List α, zs ⊆ ys → common xs zs ≤ xs.countP (· ∈ ys) from within ys fun _ => id
  induction xs with
  | nil => exact fun _ _ => Nat.zero_le _
  | cons x xs ih =>
      intro zs inside
      have fewer : zs.dropWhile (· < x) ⊆ ys := fun y member => inside ((List.dropWhile_suffix _).subset member)
      rw [common, List.countP_cons]
      apply Nat.add_le_add (ih _ fewer)
      split
      · rename_i found
        have member : x ∈ ys := fewer (List.mem_of_head? found)
        simp [member]
      · exact Nat.zero_le _

theorem mem_dropWhile_lt {ys : List α} {x y : α} (above : x ≤ y) :
    y ∈ ys.dropWhile (· < x) ↔ y ∈ ys := by
  induction ys with
  | nil => rfl
  | cons z ys ih =>
      rw [List.dropWhile_cons]
      split
      · rename_i below
        have other : y ≠ z := by
          rintro rfl
          exact not_lt_of_ge above (by simpa using below)
        rw [ih, List.mem_cons, or_iff_right other]
      · rfl

theorem head?_dropWhile_lt {ys : List α} (sorted : ys.Pairwise (· ≤ ·)) (x : α) :
    (ys.dropWhile (· < x)).head? = some x ↔ x ∈ ys := by
  rw [← mem_dropWhile_lt le_rfl]
  have sorted' : (ys.dropWhile (· < x)).Pairwise (· ≤ ·) := sorted.sublist (List.dropWhile_sublist _)
  cases rest : ys.dropWhile (· < x) with
  | nil => simp
  | cons z zs =>
      have above : x ≤ z := by
        have stopped := List.head?_dropWhile_not (fun y => decide (y < x)) ys
        rw [rest] at stopped
        simpa using stopped
      rw [rest] at sorted'
      constructor
      · intro same
        exact List.mem_of_head? same
      · intro member
        rcases List.mem_cons.mp member with rfl | later
        · rfl
        · rw [List.head?_cons, le_antisymm (List.rel_of_pairwise_cons sorted' later) above]

theorem common_eq {xs ys : List α} (sorted : xs.Pairwise (· ≤ ·)) (sorted' : ys.Pairwise (· ≤ ·)) :
    common xs ys = xs.countP (· ∈ ys) := by
  induction xs generalizing ys with
  | nil => rfl
  | cons x xs ih =>
      have same : xs.countP (· ∈ ys.dropWhile (· < x)) = xs.countP (· ∈ ys) :=
        List.countP_congr fun y member => by
          simpa using mem_dropWhile_lt (List.rel_of_pairwise_cons sorted member)
      rw [common, ih sorted.of_cons (sorted'.sublist (List.dropWhile_sublist _)), same, List.countP_cons]
      simp only [head?_dropWhile_lt sorted', decide_eq_true_eq]

theorem takeWhile_eq_filter {ys : List α} (sorted : ys.Pairwise (· ≤ ·)) (x : α) :
    ys.takeWhile (· ≤ x) = ys.filter (· ≤ x) := by
  induction ys with
  | nil => rfl
  | cons y ys ih =>
      rw [List.takeWhile_cons, List.filter_cons]
      split
      · rw [ih sorted.of_cons]
      · rename_i above
        symm
        rw [List.filter_eq_nil_iff]
        intro z member below
        have least := List.rel_of_pairwise_cons sorted member
        simp only [decide_eq_true_eq] at above below
        exact above (least.trans below)

theorem takeWhile_sublist_filter {β : Type*} (p : β → Bool) (ys : List β) : (ys.takeWhile p).Sublist (ys.filter p) := by
  induction ys with
  | nil => exact .slnil
  | cons y ys ih =>
      rw [List.takeWhile_cons, List.filter_cons]
      split
      · exact ih.cons_cons y
      · exact List.nil_sublist _

end Radix.Lib
