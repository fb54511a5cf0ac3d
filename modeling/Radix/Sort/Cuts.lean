import Mathlib.Data.Set.Function
import Radix.Sort.Widths

/-!
# The digits of a 64-bit id

The loops over the levels cut an id with a mask and a shift on `uint64_t`; `Transform` puts the digits
together again with a product and a sum.
-/

namespace Radix

open Lib

namespace SORT

/-- `((id & ((1ull << num_now) - 1)) >> (sum_bits[depth - 1] - sum_bits[i]))`, for a 64-bit id. -/
def digit64 (sumBits : List Nat) (depth : Nat) (id : BitVec 64) (i : Nat) : BitVec 64 :=
  let numNow := sumBits.getD (depth - 1) 0 - sumBefore sumBits i
  (id &&& (1#64 <<< numNow - 1#64)) >>> (sumBits.getD (depth - 1) 0 - sumBits.getD i 0)

def digits64 (ws : List Nat) (id : BitVec 64) : List (BitVec 64) :=
  (List.range ws.length).map (digit64 (sums 0 ws) ws.length id)

def extend64 (before : BitVec 64) (bits : Nat) (j : BitVec 64) : BitVec 64 :=
  before * (1#32 <<< bits).signExtend 64 + j

def join64 (before : BitVec 64) : List Nat → List (BitVec 64) → BitVec 64
  | w :: ws, d :: ds => join64 (extend64 before w d) ws ds
  | _, _ => before

def Digits64 (ws : List Nat) (ds : List (BitVec 64)) : Prop :=
  List.Forall₂ (fun w d => ∃ size, shiftOne w = some size ∧ (d.toNat : Int) < size) ws ds

/-! ## The arithmetic on words -/

theorem mask64 {n : Nat} (narrow : n ≤ 63) : (1#64 <<< n - 1#64).toNat = 2 ^ n - 1 := by
  have small : 2 ^ n < 2 ^ 64 := Nat.pow_lt_pow_right (by decide) (by omega)
  have positive : 1 ≤ 2 ^ n := Nat.one_le_two_pow
  have shifted : (1#64 <<< n).toNat = 2 ^ n := by
    rw [BitVec.toNat_shiftLeft, Nat.shiftLeft_eq, show (1#64).toNat = 1 from rfl, Nat.one_mul,
      Nat.mod_eq_of_lt small]
  rw [BitVec.toNat_sub_of_le, shifted]
  · rfl
  · rw [BitVec.le_def, shifted]
    exact positive

theorem digit64_toNat {ws : List Nat} (narrow : ws.sum ≤ 63) (id : BitVec 64) {i : Nat} (inside : i < ws.length) :
    (digit64 (sums 0 ws) ws.length id i).toNat = digitOf (sums 0 ws) ws.length id.toNat i := by
  have all : (sums 0 ws).getD (ws.length - 1) 0 = ws.sum := by
    rw [sums_getD _ _ (by omega), Nat.sub_add_cancel (by omega), List.take_length, Nat.zero_add]
  rw [digit64, digitOf, all, BitVec.toNat_ushiftRight, BitVec.toNat_and, mask64 (by omega)]

theorem digits64_toNat {ws : List Nat} (narrow : ws.sum ≤ 63) (id : BitVec 64) :
    (digits64 ws id).map BitVec.toNat = cut ws id.toNat := by
  refine List.ext_getElem (by simp [digits64]) fun i left right => ?_
  have inside : i < ws.length := by simpa [digits64] using left
  have split : ws = ws.take i ++ ws[i] :: ws.drop (i + 1) := by
    rw [← List.drop_eq_getElem_cons inside, List.take_append_drop]
  have taken : (ws.take i).length = i := List.length_take_of_le inside.le
  have digit : digitOf (sums 0 ws) ws.length id.toNat i = id.toNat / 2 ^ (ws.drop (i + 1)).sum % 2 ^ ws[i] := by
    have cutting := digitOf_eq (ws.take i) ws[i] (ws.drop (i + 1)) id.toNat
    rwa [← split, taken] at cutting
  have at_i := cut_getD ws id.toNat i
  rw [List.getD_eq_getElem?_getD, List.getD_eq_getElem?_getD, List.getElem?_eq_getElem right,
    List.getElem?_eq_getElem inside, Option.getD_some, Option.getD_some] at at_i
  simp only [digits64, List.getElem_map, List.getElem_range]
  rw [digit64_toNat narrow id inside, digit, at_i]

theorem shift32 {w : Nat} (narrow : w ≤ 30) : ((1#32 <<< w).signExtend 64).toNat = 2 ^ w := by
  interval_cases w <;> rfl

theorem extend64_toNat {before d : BitVec 64} {w : Nat} (narrow : w ≤ 30)
    (room : before.toNat * 2 ^ w + d.toNat < 2 ^ 64) :
    (extend64 before w d).toNat = before.toNat * 2 ^ w + d.toNat := by
  rw [extend64, BitVec.toNat_add, BitVec.toNat_mul, shift32 narrow, Nat.mod_add_mod, Nat.mod_eq_of_lt room]

/-- The product and the sum stay below `2 ^ 64`, so the recurrence is that on numbers. -/
theorem join64_toNat {ws : List Nat} (narrow : ∀ w ∈ ws, w ≤ 30) {ds : List (BitVec 64)}
    (fit : Fit ws (ds.map BitVec.toNat)) {before : BitVec 64} (room : (before.toNat + 1) * 2 ^ ws.sum ≤ 2 ^ 64) :
    (join64 before ws ds).toNat = join before.toNat ws (ds.map BitVec.toNat) := by
  induction ws generalizing ds before with
  | nil =>
      cases ds with
      | nil => rfl
      | cons _ _ => cases fit
  | cons w ws ih =>
      cases ds with
      | nil => cases fit
      | cons d ds =>
          rw [List.map_cons] at fit
          obtain _ | ⟨digit, rest⟩ := fit
          rw [List.sum_cons, Nat.pow_add, ← Nat.mul_assoc] at room
          have more : before.toNat * 2 ^ w + d.toNat + 1 ≤ (before.toNat + 1) * 2 ^ w := by
            rw [Nat.add_mul]
            omega
          have below : (before.toNat * 2 ^ w + d.toNat + 1) * 2 ^ ws.sum ≤ 2 ^ 64 :=
            (Nat.mul_le_mul_right _ more).trans room
          have word : before.toNat * 2 ^ w + d.toNat < 2 ^ 64 :=
            (Nat.le_mul_of_pos_right _ (Nat.two_pow_pos _)).trans below
          have extended := extend64_toNat (narrow w (by simp)) word
          rw [join64, ih (fun v member => narrow v (by simp [member])) rest (by rwa [extended]), extended]
          rfl

theorem digits64_iff {ws : List Nat} (narrow : ∀ w ∈ ws, w ≤ 30) {ds : List (BitVec 64)} :
    Digits64 ws ds ↔ Fit ws (ds.map BitVec.toNat) := by
  rw [Digits64, Fit, List.forall₂_map_right_iff]
  induction ws generalizing ds with
  | nil => simp
  | cons w ws ih =>
      have bound (d : BitVec 64) : (∃ size, shiftOne w = some size ∧ (d.toNat : Int) < size) ↔ d.toNat < 2 ^ w := by
        rw [shiftOne_exact (narrow w (by simp))]
        simp only [Option.some.injEq, exists_eq_left']
        exact_mod_cast Iff.rfl
      cases ds with
      | nil => simp
      | cons d ds =>
          rw [List.forall₂_cons, List.forall₂_cons, bound, ih fun v member => narrow v (by simp [member])]

/-! ## The bijection -/

/-- Every digit of every 64-bit id lies within the children array of its level, and the ids below `2 ^ B`
correspond one to one to the sequences of such digits, by the recurrence of `Transform`. -/
theorem digits64_bijective {ws : List Nat} (sum : 1 ≤ ws.sum ∧ ws.sum ≤ 63) (narrow : ∀ w ∈ ws, w ≤ 30) :
    (∀ id, Digits64 ws (digits64 ws id)) ∧
      Set.BijOn (digits64 ws) {id | id.toNat < 2 ^ ws.sum} {ds | Digits64 ws ds} ∧
      Set.InvOn (join64 0#64 ws) (digits64 ws) {id | id.toNat < 2 ^ ws.sum} {ds | Digits64 ws ds} := by
  have room : ((0#64).toNat + 1) * 2 ^ ws.sum ≤ 2 ^ 64 := by
    rw [show (0#64).toNat + 1 = 1 from rfl, Nat.one_mul]
    exact Nat.pow_le_pow_right (by decide) (by omega)
  have within (id : BitVec 64) : Digits64 ws (digits64 ws id) := by
    rw [digits64_iff narrow, digits64_toNat sum.2]
    exact cut_fit ws id.toNat
  have joined {ds : List (BitVec 64)} (digits : Digits64 ws ds) :
      (join64 0#64 ws ds).toNat = join 0 ws (ds.map BitVec.toNat) :=
    join64_toNat narrow ((digits64_iff narrow).mp digits) room
  have inverse : Set.InvOn (join64 0#64 ws) (digits64 ws) {id | id.toNat < 2 ^ ws.sum} {ds | Digits64 ws ds} := by
    constructor
    · intro id small
      apply BitVec.eq_of_toNat_eq
      rw [joined (within id), digits64_toNat sum.2, join_cut, Nat.zero_mul, Nat.zero_add, Nat.mod_eq_of_lt small]
    · intro ds digits
      have same : (digits64 ws (join64 0#64 ws ds)).map BitVec.toNat = ds.map BitVec.toNat := by
        rw [digits64_toNat sum.2, joined digits, cut_join ((digits64_iff narrow).mp digits)]
      exact List.map_injective_iff.mpr (fun _ _ => BitVec.eq_of_toNat_eq) same
  refine ⟨within, inverse.bijOn (fun id _ => within id) fun ds digits => ?_, inverse⟩
  have below := join_lt ((digits64_iff narrow).mp digits) 0
  rwa [Nat.zero_add, Nat.one_mul, ← joined digits] at below

/-- Three levels, one of them without bits. -/
theorem digits64_bijective_gap : (∀ id, Digits64 [2, 0, 30] (digits64 [2, 0, 30] id)) ∧
    Set.BijOn (digits64 [2, 0, 30]) {id | id.toNat < 2 ^ 32} {ds | Digits64 [2, 0, 30] ds} ∧
    Set.InvOn (join64 0#64 [2, 0, 30]) (digits64 [2, 0, 30]) {id | id.toNat < 2 ^ 32}
      {ds | Digits64 [2, 0, 30] ds} :=
  digits64_bijective (by decide) (by decide)

end SORT

end Radix
