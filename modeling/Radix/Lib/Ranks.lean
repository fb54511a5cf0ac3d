import Mathlib.Algebra.BigOperators.Field
import Mathlib.Algebra.BigOperators.Group.Finset.Sigma
import Mathlib.Algebra.BigOperators.Ring.Finset
import Mathlib.Data.Set.Function
import Mathlib.Logic.Function.Iterate
import Mathlib.Tactic.FieldSimp
import Mathlib.Tactic.Ring

/-!
# Ranks of the vertices of a graph

In every step a vertex shares its score among its successors, and the vertices without successors share theirs
among all. The scores keep their sum.
-/

namespace Radix.Lib.Ranks

universe u v

variable {V : Type u} {K : Type v} [Field K] (d : K) (s : Finset V) (Edge : V → V → Prop) [DecidableRel Edge]

def outDegree (u : V) : Nat := (s.filter (Edge u)).card

/-- What a vertex gets of the scores: a share from each predecessor, and a share of those without successors. -/
def income (score : V → K) (v : V) : K :=
  ∑ u ∈ s.filter fun u => Edge u v, score u / outDegree s Edge u +
    (∑ u ∈ s.filter fun u => outDegree s Edge u = 0, score u) / s.card

def rankStep (score : V → K) (v : V) : K := (1 - d) / s.card + d * income s Edge score v

def rank (k : Nat) : V → K := (rankStep d s Edge)^[k] fun _ => 1 / s.card

variable {d s Edge}

theorem sum_shared [CharZero K] (score : V → K) :
    ∑ v ∈ s, ∑ u ∈ s.filter fun u => Edge u v, score u / outDegree s Edge u =
      ∑ u ∈ s.filter fun u => outDegree s Edge u ≠ 0, score u := by
  have swapped : ∑ v ∈ s, ∑ u ∈ s.filter (fun u => Edge u v), score u / outDegree s Edge u =
      ∑ u ∈ s, ∑ v ∈ s.filter (Edge u), score u / outDegree s Edge u := by
    apply Finset.sum_comm'
    intro v u
    simp only [Finset.mem_filter]
    tauto
  rw [swapped, Finset.sum_filter]
  apply Finset.sum_congr rfl
  intro u _
  rw [Finset.sum_const, nsmul_eq_mul]
  change (outDegree s Edge u : K) * _ = _
  split
  · rename_i some
    have nonzero : (outDegree s Edge u : K) ≠ 0 := Nat.cast_ne_zero.mpr some
    exact mul_div_cancel₀ (score u) nonzero
  · rename_i none
    rw [not_not.mp none]
    simp

theorem sum_rankStep [CharZero K] (some : s.Nonempty) (score : V → K) :
    ∑ v ∈ s, rankStep d s Edge score v = 1 - d + d * ∑ u ∈ s, score u := by
  have nonzero : (s.card : K) ≠ 0 := Nat.cast_ne_zero.mpr some.card_ne_zero
  have parts : ∑ u ∈ s.filter (fun u => outDegree s Edge u ≠ 0), score u +
      ∑ u ∈ s.filter (fun u => outDegree s Edge u = 0), score u = ∑ u ∈ s, score u := by
    rw [add_comm]
    exact Finset.sum_filter_add_sum_filter_not s _ score
  calc ∑ v ∈ s, rankStep d s Edge score v
      = s.card * ((1 - d) / s.card) + d * (∑ v ∈ s, ∑ u ∈ s.filter fun u => Edge u v, score u / outDegree s Edge u +
          s.card * ((∑ u ∈ s.filter fun u => outDegree s Edge u = 0, score u) / s.card)) := by
        simp only [rankStep, income, Finset.sum_add_distrib, Finset.sum_const, nsmul_eq_mul, ← Finset.mul_sum]
    _ = 1 - d + d * ∑ u ∈ s, score u := by
        rw [mul_div_cancel₀ _ nonzero, mul_div_cancel₀ _ nonzero, sum_shared, parts]

theorem sum_rank [CharZero K] (some : s.Nonempty) (k : Nat) : ∑ v ∈ s, rank d s Edge k v = 1 := by
  have nonzero : (s.card : K) ≠ 0 := Nat.cast_ne_zero.mpr some.card_ne_zero
  induction k with
  | zero => simp [rank, nonzero]
  | succ k ih =>
      rw [rank, Function.iterate_succ_apply']
      change ∑ v ∈ s, rankStep d s Edge (rank d s Edge k) v = 1
      rw [sum_rankStep some, ih]
      ring

omit [Field K] in
theorem iterate_eqOn {f g : (V → K) → V → K} {t : Set V} (respects : ∀ x y, Set.EqOn x y t → Set.EqOn (f x) (f y) t)
    (x : V → K) {k : Nat} (agree : ∀ j < k, Set.EqOn (f (g^[j] x)) (g (g^[j] x)) t) :
    Set.EqOn (f^[k] x) (g^[k] x) t := by
  induction k with
  | zero => exact Set.eqOn_refl x t
  | succ k ih =>
      rw [Function.iterate_succ_apply', Function.iterate_succ_apply']
      exact (respects _ _ (ih fun j less => agree j (Nat.lt_succ_of_lt less))).trans (agree k (Nat.lt_succ_self k))

/-! ## Symmetries -/

structure Symmetry (s : Finset V) (Edge : V → V → Prop) (p : V → V) : Prop where
  bijective : Set.BijOn p s s
  edge : ∀ u ∈ s, ∀ v ∈ s, (Edge (p u) (p v) ↔ Edge u v)

variable {p : V → V}

omit [DecidableRel Edge] in
theorem Symmetry.mem (symmetry : Symmetry s Edge p) {v : V} (inside : v ∈ s) : p v ∈ s :=
  Finset.mem_coe.mp (symmetry.bijective.mapsTo (Finset.mem_coe.mpr inside))

omit [DecidableRel Edge] in
theorem Symmetry.sum_filter {M : Type*} [AddCommMonoid M] (symmetry : Symmetry s Edge p) (P : V → Prop)
    [DecidablePred P] (f : V → M) : ∑ u ∈ s.filter (fun u => P (p u)), f (p u) = ∑ u ∈ s.filter P, f u := by
  apply Finset.sum_nbij p
  · intro u member
    obtain ⟨inside, holds⟩ := Finset.mem_filter.mp member
    exact Finset.mem_filter.mpr ⟨symmetry.mem inside, holds⟩
  · intro u member v member' same
    have inside (x : V) (member : x ∈ (s.filter fun u => P (p u) : Finset V)) : x ∈ (s : Set V) :=
      Finset.mem_coe.mpr (Finset.mem_filter.mp member).1
    exact symmetry.bijective.injOn (inside u (Finset.mem_coe.mp member)) (inside v (Finset.mem_coe.mp member')) same
  · intro v member
    obtain ⟨inside, holds⟩ := Finset.mem_filter.mp (Finset.mem_coe.mp member)
    obtain ⟨u, there, rfl⟩ := symmetry.bijective.surjOn (Finset.mem_coe.mpr inside)
    exact ⟨u, Finset.mem_coe.mpr (Finset.mem_filter.mpr ⟨Finset.mem_coe.mp there, holds⟩), rfl⟩
  · exact fun _ _ => rfl

theorem Symmetry.outDegree (symmetry : Symmetry s Edge p) {u : V} (inside : u ∈ s) :
    outDegree s Edge (p u) = outDegree s Edge u := by
  have mapped : s.filter (fun v => Edge (p u) (p v)) = s.filter (Edge u) :=
    Finset.filter_congr fun v member => symmetry.edge u inside v member
  rw [Ranks.outDegree, Ranks.outDegree, Finset.card_eq_sum_ones, Finset.card_eq_sum_ones, ← mapped]
  exact (symmetry.sum_filter (Edge (p u)) fun _ => 1).symm

theorem Symmetry.income (symmetry : Symmetry s Edge p) {score : V → K} (same : ∀ u ∈ s, score (p u) = score u) {v : V}
    (inside : v ∈ s) : income s Edge score (p v) = income s Edge score v := by
  have mapped : s.filter (fun u => Edge (p u) (p v)) = s.filter fun u => Edge u v :=
    Finset.filter_congr fun u member => symmetry.edge u member v inside
  rw [Ranks.income, Ranks.income, ← symmetry.sum_filter (fun u => Edge u (p v)), mapped]
  congr 1
  apply Finset.sum_congr rfl
  intro u member
  have known := (Finset.mem_filter.mp member).1
  rw [same u known, symmetry.outDegree known]

theorem Symmetry.rank (symmetry : Symmetry s Edge p) (k : Nat) : ∀ v ∈ s, rank d s Edge k (p v) = rank d s Edge k v := by
  induction k with
  | zero => exact fun _ _ => rfl
  | succ k ih =>
      intro v inside
      have next (x : V) : Ranks.rank d s Edge (k + 1) x = rankStep d s Edge (Ranks.rank d s Edge k) x := by
        rw [Ranks.rank, Function.iterate_succ_apply']
        rfl
      rw [next, next, rankStep, rankStep, symmetry.income ih inside]

end Radix.Lib.Ranks
