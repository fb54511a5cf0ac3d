import Mathlib.Algebra.Ring.Int.Defs
import Mathlib.Data.List.Nodup
import Mathlib.Logic.Function.Basic

/-!
# Rosters

A roster is a list of distinct agents, each with a state of its own. What the list makes of their
states changes in one place when one agent moves.
-/

namespace Radix.Lib.Roster

universe u v w

variable {T : Type u} {L : Type v} {α : Type w} [DecidableEq T] {roster : List T} {states : T → L}
  {t : T} {l : L}

theorem map_move_absent (f : L → T → α) (absent : t ∉ roster) :
    (roster.map fun u => f (Function.update states t l u) u) = roster.map fun u => f (states u) u := by
  apply List.map_congr_left
  intro u member
  have other : u ≠ t := fun same => absent (same ▸ member)
  rw [Function.update_of_ne other]

theorem map_move_same (f : L → T → α) (same : f l t = f (states t) t) :
    (roster.map fun u => f (Function.update states t l u) u) = roster.map fun u => f (states u) u := by
  apply List.map_congr_left
  intro u _
  by_cases here : u = t
  · subst here
    rw [Function.update_self, same]
  · rw [Function.update_of_ne here]

theorem map_move (f : L → T → α) (nodup : roster.Nodup) {k : Nat} (at_k : roster[k]? = some t) :
    (roster.map fun u => f (Function.update states t l u) u) =
      (roster.map fun u => f (states u) u).set k (f l t) := by
  apply List.ext_getElem?
  intro j
  rw [List.getElem?_map, List.getElem?_set, List.getElem?_map, List.length_map]
  by_cases here : k = j
  · subst here
    have inside := (List.getElem?_eq_some_iff.mp at_k).1
    rw [at_k, if_pos rfl, if_pos inside, Option.map_some, Function.update_self]
  · rw [if_neg here]
    cases at_j : roster[j]? with
    | none => rfl
    | some u =>
        have other : u ≠ t := by
          rintro rfl
          have inside := (List.getElem?_eq_some_iff.mp at_k).1
          exact here ((List.getElem?_inj inside nodup).mp (at_k.trans at_j.symm))
        simp [Function.update_of_ne other]

theorem countP_move_same (p : L → Bool) (same : p l = p (states t)) :
    (roster.countP fun u => p (Function.update states t l u)) = roster.countP fun u => p (states u) := by
  apply List.countP_congr
  intro u _
  by_cases here : u = t
  · subst here
    rw [Function.update_self, same]
  · rw [Function.update_of_ne here]

theorem countP_move (p : L → Bool) (nodup : roster.Nodup) (member : t ∈ roster)
    (before : p (states t) = false) (after : p l = true) :
    (roster.countP fun u => p (Function.update states t l u)) =
      (roster.countP fun u => p (states u)) + 1 := by
  induction roster with
  | nil => cases member
  | cons u roster ih =>
      obtain ⟨absent, nodup⟩ := List.nodup_cons.mp nodup
      rw [List.countP_cons, List.countP_cons]
      cases List.mem_cons.mp member with
      | inl here =>
          subst here
          have rest : (roster.countP fun u => p (Function.update states t l u)) =
              roster.countP fun u => p (states u) := by
            apply List.countP_congr
            intro w inside
            have other : w ≠ t := fun same => absent (same ▸ inside)
            rw [Function.update_of_ne other]
          rw [rest, Function.update_self, before, after]
          rfl
      | inr there =>
          have other : u ≠ t := fun same => absent (same ▸ there)
          rw [Function.update_of_ne other, ih nodup there]
          omega

theorem sum_move (f : L → T → Int) (nodup : roster.Nodup) (member : t ∈ roster) :
    (roster.map fun u => f (Function.update states t l u) u).sum =
      (roster.map fun u => f (states u) u).sum + (f l t - f (states t) t) := by
  induction roster with
  | nil => cases member
  | cons u roster ih =>
      obtain ⟨absent, nodup⟩ := List.nodup_cons.mp nodup
      rw [List.map_cons, List.sum_cons, List.map_cons, List.sum_cons]
      cases List.mem_cons.mp member with
      | inl here =>
          subst here
          rw [map_move_absent f absent, Function.update_self]
          omega
      | inr there =>
          have other : u ≠ t := fun same => absent (same ▸ there)
          rw [Function.update_of_ne other, ih nodup there]
          omega

theorem set_middle (front middle back : List α) {k : Nat} (inside : k < middle.length) (a : α) :
    (front ++ middle ++ back).set (front.length + k) a = front ++ middle.set k a ++ back := by
  rw [List.append_assoc, List.set_append_right _ _ (Nat.le_add_right _ _), Nat.add_sub_cancel_left,
    List.set_append_left _ _ inside, List.append_assoc]

end Radix.Lib.Roster
