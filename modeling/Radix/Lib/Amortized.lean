import Mathlib.Algebra.BigOperators.Group.List.Basic
import Mathlib.Algebra.Order.Ring.Defs
import Mathlib.Tactic.Linarith
import Radix.Lib.Traced

/-!
# Amortized costs

Every step of a run reports no more events than its price and what it takes from a potential.
-/

namespace Radix.Lib.Traced

universe u

variable {ε E S O : Type u} {R : Type*} [CommRing R] [LinearOrder R] [IsStrictOrderedRing R]

theorem foldlM_amortized {step : S → O → Traced ε E S} {holds : S → List O → Prop} {potential : S → R}
    {price : O → R}
    (pays : ∀ s o rest, holds s (o :: rest) → ∃ s', (step s o).result = .ok s' ∧ holds s' rest ∧
      ((step s o).events.length : R) + potential s' ≤ potential s + price o)
    {s : S} {os : List O} (start : holds s os) :
    ∃ s', (os.foldlM step s).result = .ok s' ∧ holds s' [] ∧
      ((os.foldlM step s).events.length : R) + potential s' ≤ potential s + (os.map price).sum := by
  induction os generalizing s with
  | nil => exact ⟨s, rfl, start, by simp [pure]⟩
  | cons o os ih =>
      obtain ⟨t, taken, after, paid⟩ := pays s o os start
      obtain ⟨s', ran, held, total⟩ := ih after
      refine ⟨s', by rw [List.foldlM_cons, bind_result, taken, ok_bind, ran], held, ?_⟩
      rw [List.foldlM_cons, bind_events taken, List.length_append, List.map_cons, List.sum_cons]
      push_cast
      linarith

end Radix.Lib.Traced
