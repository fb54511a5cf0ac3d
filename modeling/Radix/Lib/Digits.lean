import Mathlib.Algebra.BigOperators.Group.List.Basic
import Mathlib.Data.Nat.ModEq
import Mathlib.Tactic.Ring

/-!
# Cutting a number into digits of given bit widths

`cut ws x` are the digits of `x`, most significant first, the `i`-th `ws[i]` bits wide; `join`
reads them back by the recurrence `prefix * 2 ^ w + digit`. Bits above the sum of the widths are
not part of any digit.
-/

namespace Radix.Lib

def cut : List Nat → Nat → List Nat
  | [], _ => []
  | w :: ws, x => x / 2 ^ ws.sum % 2 ^ w :: cut ws x

def join (acc : Nat) : List Nat → List Nat → Nat
  | w :: ws, d :: ds => join (acc * 2 ^ w + d) ws ds
  | _, _ => acc

def Fit : List Nat → List Nat → Prop := List.Forall₂ fun w d => d < 2 ^ w

@[simp] theorem cut_nil (x : Nat) : cut [] x = [] := rfl

@[simp] theorem cut_cons (w : Nat) (ws : List Nat) (x : Nat) :
    cut (w :: ws) x = x / 2 ^ ws.sum % 2 ^ w :: cut ws x := rfl

@[simp] theorem cut_length (ws : List Nat) (x : Nat) : (cut ws x).length = ws.length := by
  induction ws with
  | nil => rfl
  | cons w ws ih => simp [ih]

theorem cut_fit (ws : List Nat) (x : Nat) : Fit ws (cut ws x) := by
  induction ws with
  | nil => exact .nil
  | cons w ws ih => exact .cons (Nat.mod_lt _ (Nat.two_pow_pos w)) ih

theorem fit_snoc {ws es : List Nat} {w : Nat} :
    Fit (ws ++ [w]) es ↔ ∃ ds d, es = ds ++ [d] ∧ Fit ws ds ∧ d < 2 ^ w := by
  constructor
  · intro fit
    induction ws generalizing es with
    | nil =>
        obtain _ | ⟨digit, ⟨⟩⟩ := fit
        exact ⟨[], _, rfl, .nil, digit⟩
    | cons v ws ih =>
        obtain _ | ⟨head, tail⟩ := fit
        obtain ⟨ds, d, rfl, fit, digit⟩ := ih tail
        exact ⟨_ :: ds, d, rfl, .cons head fit, digit⟩
  · rintro ⟨ds, d, rfl, fit, digit⟩
    induction fit with
    | nil => exact .cons digit .nil
    | cons head _ ih => exact .cons head ih

theorem cut_getD (ws : List Nat) (x i : Nat) :
    (cut ws x).getD i 0 = x / 2 ^ (ws.drop (i + 1)).sum % 2 ^ ws.getD i 0 := by
  induction ws generalizing i with
  | nil => simp [Nat.mod_one]
  | cons w ws ih => cases i with
    | zero => rfl
    | succ i => exact ih i

theorem cut_eq_iff (ws : List Nat) (x y : Nat) :
    cut ws x = cut ws y ↔ x ≡ y [MOD 2 ^ ws.sum] := by
  induction ws with
  | nil => simp [Nat.modEq_one]
  | cons w ws ih =>
      have split (z : Nat) : z % 2 ^ (w + ws.sum) =
          z % 2 ^ ws.sum + 2 ^ ws.sum * (z / 2 ^ ws.sum % 2 ^ w) := by
        rw [Nat.add_comm, Nat.pow_add, Nat.mod_mul]
      rw [cut_cons, cut_cons, List.cons.injEq, ih, List.sum_cons]
      unfold Nat.ModEq
      rw [split x, split y]
      constructor
      · rintro ⟨digit, rest⟩
        rw [digit, rest]
      · intro equal
        have low := congrArg (· % 2 ^ ws.sum) equal
        simp only [Nat.add_mul_mod_self_left, Nat.mod_mod] at low
        have high : 2 ^ ws.sum * (x / 2 ^ ws.sum % 2 ^ w) =
            2 ^ ws.sum * (y / 2 ^ ws.sum % 2 ^ w) := by omega
        exact ⟨Nat.eq_of_mul_eq_mul_left (Nat.two_pow_pos _) high, low⟩

theorem cut_injective {ws : List Nat} {x y : Nat} (hx : x < 2 ^ ws.sum) (hy : y < 2 ^ ws.sum)
    (same : cut ws x = cut ws y) : x = y :=
  Nat.ModEq.eq_of_lt_of_lt ((cut_eq_iff ws x y).mp same) hx hy

theorem join_cut (acc : Nat) (ws : List Nat) (x : Nat) :
    join acc ws (cut ws x) = acc * 2 ^ ws.sum + x % 2 ^ ws.sum := by
  induction ws generalizing acc with
  | nil => simp [join, Nat.mod_one]
  | cons w ws ih =>
      rw [cut_cons, join, ih, List.sum_cons, Nat.add_comm w, Nat.pow_add, Nat.mod_mul]
      ring

theorem join_snoc {ws ds : List Nat} (fit : Fit ws ds) (acc w d : Nat) :
    join acc (ws ++ [w]) (ds ++ [d]) = join acc ws ds * 2 ^ w + d := by
  induction fit generalizing acc with
  | nil => rfl
  | cons _ _ ih => exact ih _

theorem join_lt {ws ds : List Nat} (fit : Fit ws ds) (acc : Nat) :
    join acc ws ds < (acc + 1) * 2 ^ ws.sum := by
  induction fit generalizing acc with
  | nil => simp [join]
  | @cons w d ws ds digit _ ih =>
      refine (ih _).trans_le ?_
      rw [List.sum_cons, Nat.pow_add, ← Nat.mul_assoc]
      exact Nat.mul_le_mul_right _ (by rw [Nat.add_mul]; omega)

theorem join_div {ws ds : List Nat} (fit : Fit ws ds) (acc : Nat) :
    join acc ws ds / 2 ^ ws.sum = acc := by
  have below := join_lt fit acc
  have above : acc * 2 ^ ws.sum ≤ join acc ws ds := by
    clear below
    induction fit generalizing acc with
    | nil => simp [join]
    | @cons w d ws ds _ _ ih =>
        refine le_trans ?_ (ih _)
        rw [List.sum_cons, Nat.pow_add, ← Nat.mul_assoc]
        exact Nat.mul_le_mul_right _ (Nat.le_add_right _ _)
  rw [Nat.mul_comm] at below above
  exact Nat.div_eq_of_lt_le (by rwa [Nat.mul_comm]) (by rwa [Nat.mul_comm])

theorem cut_join {ws ds : List Nat} (fit : Fit ws ds) (acc : Nat) : cut ws (join acc ws ds) = ds := by
  induction fit generalizing acc with
  | nil => rfl
  | @cons w d ws ds digit rest ih =>
      rw [join, cut_cons, ih, join_div rest, Nat.mul_comm, Nat.mul_add_mod,
        Nat.mod_eq_of_lt digit]

end Radix.Lib
