import Mathlib.Data.Finset.Powerset
import Mathlib.Algebra.BigOperators.Ring.Finset
import Mathlib.Algebra.BigOperators.Group.Finset.Sigma
import Mathlib.Algebra.Group.Action.Defs

/-!
# Blocks hit by a draw

All sets of `n` elements are drawn from a set that a map cuts into blocks of one size. Together they
hit a block as often as there are sets that do not avoid it.
-/

namespace Radix.Lib

variable {α β : Type*} [DecidableEq β]

theorem filter_avoids (U : Finset α) (f : α → β) (q : β) (n : ℕ) :
    (U.powersetCard n).filter (fun S => q ∉ S.image f) = (U.filter (f · ≠ q)).powersetCard n := by
  ext S
  simp only [Finset.mem_filter, Finset.mem_powersetCard, Finset.mem_image, not_exists, not_and,
    Finset.subset_iff]
  constructor
  · rintro ⟨⟨inside, size⟩, avoids⟩
    exact ⟨fun x member => ⟨inside member, avoids x member⟩, size⟩
  · rintro ⟨inside, size⟩
    exact ⟨⟨fun x member => (inside member).1, size⟩, fun x member => (inside member).2⟩

theorem card_avoids (U : Finset α) (f : α → β) (q : β) {d : ℕ} (block : (U.filter (f · = q)).card = d) (n : ℕ) :
    ((U.powersetCard n).filter (fun S => q ∉ S.image f)).card = (U.card - d).choose n := by
  have rest : (U.filter (f · ≠ q)).card = U.card - d := by
    rw [← Finset.card_filter_add_card_filter_not (s := U) (f · = q), block, Nat.add_sub_cancel_left]
  rw [filter_avoids, Finset.card_powersetCard, rest]

theorem sum_card_image {U : Finset α} {f : α → β} {T : Finset β} (maps : ∀ x ∈ U, f x ∈ T) {d : ℕ}
    (blocks : ∀ q ∈ T, (U.filter (f · = q)).card = d) (n : ℕ) :
    ∑ S ∈ U.powersetCard n, (S.image f).card + T.card * (U.card - d).choose n = T.card * U.card.choose n := by
  have hits (S : Finset α) (member : S ∈ U.powersetCard n) :
      (S.image f).card = ∑ q ∈ T, if q ∈ S.image f then 1 else 0 := by
    have inside : S.image f ⊆ T := by
      intro q hit
      obtain ⟨x, at_x, rfl⟩ := Finset.mem_image.mp hit
      exact maps x ((Finset.mem_powersetCard.mp member).1 at_x)
    rw [Finset.sum_ite_mem, Finset.inter_eq_right.mpr inside, Finset.card_eq_sum_ones]
  calc ∑ S ∈ U.powersetCard n, (S.image f).card + T.card * (U.card - d).choose n
      = ∑ q ∈ T, (((U.powersetCard n).filter (fun S => q ∈ S.image f)).card +
          ((U.powersetCard n).filter (fun S => q ∉ S.image f)).card) := by
        rw [Finset.sum_congr rfl hits, Finset.sum_comm, Finset.sum_add_distrib]
        congr 1
        · exact Finset.sum_congr rfl fun q _ => (Finset.card_filter _ _).symm
        · rw [Finset.sum_congr rfl fun q member => card_avoids U f q (blocks q member) n, Finset.sum_const,
            smul_eq_mul]
    _ = T.card * U.card.choose n := by
        rw [Finset.sum_congr rfl fun q _ => Finset.card_filter_add_card_filter_not _, Finset.sum_const,
          Finset.card_powersetCard, smul_eq_mul]

end Radix.Lib
