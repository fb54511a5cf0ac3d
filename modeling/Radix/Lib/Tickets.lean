import Mathlib.Data.List.Nodup
import Mathlib.Data.List.Perm.Basic
import Mathlib.Order.Nat

/-!
# Tickets

A counter hands out tickets `0, 1, …`, and a ticket is given back later. The number of tickets given
back is `served`; if the lowest ticket always goes first, the next one is the ticket `served`.
-/

namespace Radix.Lib

universe u v

variable {T : Type u}

theorem once_update [DecidableEq T] {K : Type v} {held : T → Option K} {t : T} {k : K}
    (once : ∀ u v l, held u = some l → held v = some l → u = v) (fresh : ∀ u, held u ≠ some k) (u v : T)
    (l : K) (holds : Function.update held t (some k) u = some l)
    (holds' : Function.update held t (some k) v = some l) : u = v := by
  by_cases left : u = t <;> by_cases right : v = t
  · exact left.trans right.symm
  · subst left
    rw [Function.update_self] at holds
    rw [Function.update_of_ne right] at holds'
    exact absurd (holds'.trans holds.symm) (fresh v)
  · subst right
    rw [Function.update_self] at holds'
    rw [Function.update_of_ne left] at holds
    exact absurd (holds.trans holds'.symm) (fresh u)
  · rw [Function.update_of_ne left] at holds
    rw [Function.update_of_ne right] at holds'
    exact once u v l holds holds'

/-- The tickets held are those from `served` up to `drawn`, each by one holder. -/
structure Outstanding (held : T → Option ℕ) (served drawn : ℕ) : Prop where
  le : served ≤ drawn
  bounds : ∀ t k, held t = some k → served ≤ k ∧ k < drawn
  once : ∀ t u k, held t = some k → held u = some k → t = u
  every : ∀ k, served ≤ k → k < drawn → ∃ t, held t = some k

namespace Outstanding

variable {held : T → Option ℕ} {served drawn : ℕ} {t : T} {k : ℕ}

theorem none : Outstanding (fun _ : T => .none) 0 0 where
  le := le_rfl
  bounds _ _ holds := nomatch holds
  once _ _ _ holds := nomatch holds
  every _ _ below := absurd below (Nat.not_lt_zero _)

variable [DecidableEq T]

theorem draw (out : Outstanding held served drawn) (free : held t = .none) :
    Outstanding (Function.update held t (some drawn)) served (drawn + 1) where
  le := out.le.trans (Nat.le_succ drawn)
  bounds u k holds := by
    by_cases here : u = t
    · subst here
      rw [Function.update_self] at holds
      cases holds
      exact ⟨out.le, Nat.lt_succ_self _⟩
    · rw [Function.update_of_ne here] at holds
      obtain ⟨low, high⟩ := out.bounds u k holds
      exact ⟨low, high.trans (Nat.lt_succ_self _)⟩
  -- the new ticket lies above all others
  once := once_update out.once fun u same => (out.bounds u drawn same).2.false
  every k low high := by
    cases Nat.lt_succ_iff_lt_or_eq.mp high with
    | inl old =>
        obtain ⟨u, holds⟩ := out.every k low old
        have other : u ≠ t := by
          rintro rfl
          rw [free] at holds
          cases holds
        exact ⟨u, (Function.update_of_ne other _ held).trans holds⟩
    | inr new =>
        subst new
        exact ⟨t, Function.update_self ..⟩

theorem lowest (out : Outstanding held served drawn) (holds : held t = some k)
    (least : ∀ u, u ≠ t → ∀ l, held u = some l → k < l) : k = served := by
  obtain ⟨low, high⟩ := out.bounds t k holds
  obtain ⟨u, next⟩ := out.every served le_rfl (low.trans_lt high)
  by_cases here : u = t
  · subst here
    exact Option.some.inj (holds.symm.trans next)
  · exact absurd (least u here served next) (Nat.not_lt.mpr low)

theorem serve (out : Outstanding held served drawn) (holds : held t = some served) :
    Outstanding (Function.update held t .none) (served + 1) drawn where
  le := (out.bounds t served holds).2
  bounds u k holds' := by
    by_cases here : u = t
    · subst here
      rw [Function.update_self] at holds'
      cases holds'
    · rw [Function.update_of_ne here] at holds'
      obtain ⟨low, high⟩ := out.bounds u k holds'
      have other : served ≠ k := by
        rintro rfl
        exact here (out.once u t served holds' holds)
      exact ⟨low.lt_of_ne other, high⟩
  once u v k first second := by
    have old (w : T) (holds' : Function.update held t .none w = some k) : held w = some k := by
      by_cases here : w = t
      · subst here
        rw [Function.update_self] at holds'
        cases holds'
      · rwa [Function.update_of_ne here] at holds'
    exact out.once u v k (old u first) (old v second)
  every k low high := by
    obtain ⟨u, holds'⟩ := out.every k ((Nat.le_succ _).trans low) high
    have other : u ≠ t := by
      rintro rfl
      have same := Option.some.inj (holds.symm.trans holds')
      exact absurd low (by rw [same]; exact Nat.not_succ_le_self k)
    exact ⟨u, (Function.update_of_ne other _ held).trans holds'⟩

end Outstanding

structure Redeemed (held : T → Option ℕ) (redeemed : List ℕ) (drawn : ℕ) : Prop where
  nodup : redeemed.Nodup
  below : ∀ k ∈ redeemed, k < drawn
  bounds : ∀ t k, held t = some k → k < drawn ∧ k ∉ redeemed
  once : ∀ t u k, held t = some k → held u = some k → t = u
  every : ∀ k < drawn, k ∈ redeemed ∨ ∃ t, held t = some k

namespace Redeemed

variable {held : T → Option ℕ} {redeemed : List ℕ} {drawn : ℕ} {t : T} {k : ℕ}

theorem none : Redeemed (fun _ : T => .none) [] 0 where
  nodup := List.nodup_nil
  below _ member := nomatch member
  bounds _ _ holds := nomatch holds
  once _ _ _ holds := nomatch holds
  every _ below := absurd below (Nat.not_lt_zero _)

theorem perm_range (all : Redeemed held redeemed drawn) (idle : ∀ t, held t = .none) :
    redeemed.Perm (List.range drawn) := by
  apply (List.perm_ext_iff_of_nodup all.nodup List.nodup_range).mpr
  intro k
  rw [List.mem_range]
  constructor
  · exact all.below k
  · intro below
    cases all.every k below with
    | inl member => exact member
    | inr holder =>
        obtain ⟨t, holds⟩ := holder
        rw [idle t] at holds
        contradiction

variable [DecidableEq T]

theorem draw (all : Redeemed held redeemed drawn) (free : held t = .none) :
    Redeemed (Function.update held t (some drawn)) redeemed (drawn + 1) where
  nodup := all.nodup
  below k member := (all.below k member).trans (Nat.lt_succ_self _)
  bounds u k holds := by
    by_cases here : u = t
    · subst here
      rw [Function.update_self] at holds
      cases holds
      exact ⟨Nat.lt_succ_self _, fun member => (all.below drawn member).false⟩
    · rw [Function.update_of_ne here] at holds
      obtain ⟨high, new⟩ := all.bounds u k holds
      exact ⟨high.trans (Nat.lt_succ_self _), new⟩
  once := once_update all.once fun u same => (all.bounds u drawn same).1.false
  every k below := by
    cases Nat.lt_succ_iff_lt_or_eq.mp below with
    | inl old =>
        cases all.every k old with
        | inl member => exact .inl member
        | inr holder =>
            obtain ⟨u, holds⟩ := holder
            have other : u ≠ t := by
              rintro rfl
              rw [free] at holds
              contradiction
            exact .inr ⟨u, (Function.update_of_ne other _ held).trans holds⟩
    | inr new =>
        subst new
        exact .inr ⟨t, Function.update_self ..⟩

theorem redeem (all : Redeemed held redeemed drawn) (holds : held t = some k) :
    Redeemed (Function.update held t .none) (redeemed ++ [k]) drawn := by
  have old {u : T} {l : ℕ} (holds' : Function.update held t .none u = some l) :
      u ≠ t ∧ held u = some l := by
    have other : u ≠ t := by
      rintro rfl
      rw [Function.update_self] at holds'
      contradiction
    rw [Function.update_of_ne other] at holds'
    exact ⟨other, holds'⟩
  obtain ⟨high, new⟩ := all.bounds t k holds
  refine ⟨?_, fun l member => ?_, fun u l holds' => ?_, fun u v l first second => ?_, fun l below => ?_⟩
  · rw [← List.concat_eq_append]
    exact all.nodup.concat new
  · rw [List.mem_append, List.mem_singleton] at member
    cases member with
    | inl before => exact all.below l before
    | inr same => exact same ▸ high
  · obtain ⟨other, before⟩ := old holds'
    obtain ⟨below, absent⟩ := all.bounds u l before
    refine ⟨below, fun member => ?_⟩
    rw [List.mem_append, List.mem_singleton] at member
    cases member with
    | inl earlier => exact absent earlier
    | inr same => exact other (all.once u t k (same ▸ before) holds)
  · exact all.once u v l (old first).2 (old second).2
  · cases all.every l below with
    | inl member => exact .inl (List.mem_append_left _ member)
    | inr holder =>
        obtain ⟨u, before⟩ := holder
        by_cases here : u = t
        · subst here
          obtain rfl : k = l := Option.some.inj (holds.symm.trans before)
          exact .inl (List.mem_append_right _ List.mem_cons_self)
        · exact .inr ⟨u, (Function.update_of_ne here _ held).trans before⟩

end Redeemed

end Radix.Lib
