import Mathlib.Algebra.Order.Floor.Semiring
import Mathlib.Algebra.Order.Field.Basic
import Mathlib.Algebra.BigOperators.Group.Finset.Basic
import Mathlib.Algebra.Order.BigOperators.Group.Finset
import Mathlib.Order.Bounds.Defs
import Mathlib.Tactic.Linarith

/-!
# Tentative distances in a weighted graph

A tentative distance is the weight of some walk from the source, or a bound that no short walk reaches.
Relaxing an edge keeps it so, and once every edge is relaxed the distances are the least ones.
-/

namespace Radix.Lib.Distances

universe u v

variable {V : Type u} {K : Type v} [Field K] [LinearOrder K] [IsStrictOrderedRing K]

inductive Walk (Edge : V → V → K → Prop) (source : V) : V → K → Prop
  | start : Walk Edge source source 0
  | extend {u v : V} {d w : K} : Walk Edge source u d → Edge u v w → Walk Edge source v (d + w)

def Least (Edge : V → V → K → Prop) (source : V) (bound : K) (v : V) (d : K) : Prop :=
  IsLeast {d | Walk Edge source v d} d ∨ (∀ d, ¬ Walk Edge source v d) ∧ d = bound

def Relaxed (Edge : V → V → K → Prop) (dist : V → K) (u : V) : Prop := ∀ v w, Edge u v w → dist v ≤ dist u + w

structure Tentative (Edge : V → V → K → Prop) (source : V) (bound : K) (dist : V → K) : Prop where
  zero : dist source = 0
  le : ∀ v, dist v ≤ bound
  walk : ∀ v, dist v = bound ∨ Walk Edge source v (dist v)

section Walks

variable {Edge : V → V → K → Prop} {source : V}

theorem Walk.nonneg (positive : ∀ u v w, Edge u v w → 0 < w) {v : V} {d : K} (walk : Walk Edge source v d) : 0 ≤ d := by
  induction walk with
  | start => exact le_refl 0
  | extend _ edge ih => exact add_nonneg ih (positive _ _ _ edge).le

end Walks

namespace Tentative

variable {Edge : V → V → K → Prop} {source : V} {bound : K} {dist : V → K}

omit [IsStrictOrderedRing K] in
theorem start [DecidableEq V] (Edge : V → V → K → Prop) (source : V) {bound : K} (positive : 0 < bound) :
    Tentative Edge source bound (Function.update (fun _ => bound) source 0) := by
  constructor
  · exact Function.update_self ..
  · intro v
    by_cases same : v = source
    · rw [same, Function.update_self]
      exact positive.le
    · rw [Function.update_of_ne same]
  · intro v
    by_cases same : v = source
    · right
      rw [same, Function.update_self]
      exact .start
    · left
      rw [Function.update_of_ne same]

variable (positive : ∀ u v w, Edge u v w → 0 < w)

include positive

theorem nonneg (tentative : Tentative Edge source bound dist) (v : V) : 0 ≤ dist v := by
  rcases tentative.walk v with unreached | walk
  · have start := tentative.le source
    rwa [tentative.zero, ← unreached] at start
  · exact walk.nonneg positive

theorem relax [DecidableEq V] (tentative : Tentative Edge source bound dist) {u v : V} {w : K} (edge : Edge u v w)
    (better : dist u + w < dist v) : Tentative Edge source bound (Function.update dist v (dist u + w)) := by
  have weight := positive u v w edge
  have lower := tentative.nonneg positive u
  have other : source ≠ v := by
    intro same
    rw [← same, tentative.zero] at better
    linarith
  have reached : Walk Edge source u (dist u) := by
    apply (tentative.walk u).resolve_left
    intro unreached
    have upper := tentative.le v
    linarith
  constructor
  · rw [Function.update_of_ne other]
    exact tentative.zero
  · intro x
    by_cases same : x = v
    · rw [same, Function.update_self]
      exact better.le.trans (tentative.le v)
    · rw [Function.update_of_ne same]
      exact tentative.le x
  · intro x
    by_cases same : x = v
    · rw [same, Function.update_self]
      exact .inr (reached.extend edge)
    · rw [Function.update_of_ne same]
      exact tentative.walk x

variable (relaxed : ∀ u, dist u < bound → Relaxed Edge dist u)

include relaxed

theorem le_walk (tentative : Tentative Edge source bound dist) {v : V} {d : K} (walk : Walk Edge source v d)
    (short : d < bound) : dist v ≤ d := by
  induction walk with
  | start => exact tentative.zero.le
  | @extend u v d w walk edge ih =>
      have weight := positive u v w edge
      have before := ih (by linarith)
      have step := relaxed u (by linarith) v w edge
      linarith

theorem le_card_mul (tentative : Tentative Edge source bound dist) {s : Finset V}
    (closed : ∀ u v w, Edge u v w → u ∈ s) {top : K} (light : ∀ u v w, Edge u v w → w ≤ top) (nonneg : 0 ≤ top)
    (k : Nat) :
    ∀ v, dist v < bound → (s.filter fun x => dist x < dist v).card = k → dist v ≤ k * top := by
  induction k using Nat.strong_induction_on with
  | h k ih =>
      intro v short count
      obtain ⟨total, walk, equal⟩ : ∃ total, Walk Edge source v total ∧ total = dist v :=
        ⟨_, (tentative.walk v).resolve_left short.ne, rfl⟩
      cases walk with
      | start =>
          rw [← equal]
          positivity
      | @extend u _ d w walk edge =>
          have weight := positive u v w edge
          have before := tentative.le_walk positive relaxed walk (by linarith)
          have step := relaxed u (by linarith) v w edge
          have fewer : (s.filter fun x => dist x < dist u).card < k := by
            rw [← count]
            apply Finset.card_lt_card
            rw [Finset.ssubset_iff_of_subset]
            · exact ⟨u, Finset.mem_filter.mpr ⟨closed u v w edge, by linarith⟩, by simp⟩
            · intro x member
              obtain ⟨inside, nearer⟩ := Finset.mem_filter.mp member
              exact Finset.mem_filter.mpr ⟨inside, by linarith⟩
          have earlier := ih _ fewer u (by linarith) rfl
          have last := light u v w edge
          have more : ((s.filter fun x => dist x < dist u).card : K) + 1 ≤ k := by exact_mod_cast fewer
          calc dist v ≤ dist u + w := step
            _ ≤ ((s.filter fun x => dist x < dist u).card + 1) * top := by linarith
            _ ≤ k * top := mul_le_mul_of_nonneg_right more nonneg

theorem lt_of_walk (tentative : Tentative Edge source bound dist) {s : Finset V}
    (closed : ∀ u v w, Edge u v w → u ∈ s) {top : K} (light : ∀ u v w, Edge u v w → w ≤ top) (nonneg : 0 ≤ top)
    (large : s.card * top < bound) {v : V} {d : K} (walk : Walk Edge source v d) : dist v < bound := by
  induction walk with
  | start =>
      rw [tentative.zero]
      exact (by positivity : 0 ≤ s.card * top).trans_lt large
  | @extend u v d w _ edge ih =>
      have before := tentative.le_card_mul positive relaxed closed light nonneg _ u ih rfl
      have fewer : (s.filter fun x => dist x < dist u).card < s.card :=
        Finset.card_lt_card (Finset.filter_ssubset.mpr ⟨u, closed u v w edge, lt_irrefl _⟩)
      have more : ((s.filter fun x => dist x < dist u).card : K) + 1 ≤ s.card := by exact_mod_cast fewer
      have last := light u v w edge
      calc dist v ≤ dist u + w := relaxed u ih v w edge
        _ ≤ ((s.filter fun x => dist x < dist u).card + 1) * top := by linarith
        _ ≤ s.card * top := mul_le_mul_of_nonneg_right more nonneg
        _ < bound := large

theorem least (tentative : Tentative Edge source bound dist) {s : Finset V}
    (closed : ∀ u v w, Edge u v w → u ∈ s) {top : K} (light : ∀ u v w, Edge u v w → w ≤ top) (nonneg : 0 ≤ top)
    (large : s.card * top < bound) (v : V) : Least Edge source bound v (dist v) := by
  by_cases reached : ∃ d, Walk Edge source v d
  · left
    obtain ⟨d, walk⟩ := reached
    have short := tentative.lt_of_walk positive relaxed closed light nonneg large walk
    refine ⟨(tentative.walk v).resolve_left short.ne, fun total walk' => ?_⟩
    rcases lt_or_ge total bound with below | above
    · exact tentative.le_walk positive relaxed walk' below
    · exact short.le.trans above
  · right
    rw [not_exists] at reached
    exact ⟨reached, (tentative.walk v).resolve_right (reached _)⟩

end Tentative

end Radix.Lib.Distances
