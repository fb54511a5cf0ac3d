import Mathlib.Data.Finset.Card
import Mathlib.Logic.Relation
import Mathlib.Order.Basic

/-!
# Labels of the components of a graph

Every vertex points to a label that is not above it. Hooking lets a root point to a lower label, jumping lets a
vertex point past its label, and neither joins what no chain of edges joins.
-/

namespace Radix.Lib

universe u

variable {V : Type u} [LinearOrder V]

structure Labelling (Edge : V → V → Prop) (label : V → V) : Prop where
  le : ∀ v, label v ≤ v
  joined : ∀ v, Relation.EqvGen Edge v (label v)

def Flat (s : Finset V) (label : V → V) : Prop := ∀ v ∈ s, label (label v) = label v

def roots (s : Finset V) (label : V → V) : Nat := (s.filter fun v => label v = v).card

namespace Labelling

variable {Edge : V → V → Prop} {label : V → V}

theorem start (Edge : V → V → Prop) : Labelling Edge fun v => v := ⟨fun v => le_refl v, fun v => .refl v⟩

theorem point (labelling : Labelling Edge label) {v w : V} (le : w ≤ v) (joined : Relation.EqvGen Edge v w) :
    Labelling Edge (Function.update label v w) := by
  constructor
  · intro x
    by_cases same : x = v
    · rwa [same, Function.update_self]
    · rw [Function.update_of_ne same]
      exact labelling.le x
  · intro x
    by_cases same : x = v
    · rwa [same, Function.update_self]
    · rw [Function.update_of_ne same]
      exact labelling.joined x

theorem across (labelling : Labelling Edge label) {u v : V} (edge : Edge u v) :
    Relation.EqvGen Edge (label u) (label v) := by
  apply Relation.EqvGen.trans _ u
  · exact .symm _ _ (labelling.joined u)
  · exact .trans _ v _ (.rel _ _ edge) (labelling.joined v)

theorem hook (labelling : Labelling Edge label) {u v : V} (edge : Edge u v) :
    Labelling Edge (Function.update label (max (label u) (label v)) (min (label u) (label v))) := by
  have joined := labelling.across edge
  rcases le_total (label u) (label v) with below | above
  · rw [max_eq_right below, min_eq_left below]
    exact labelling.point below (.symm _ _ joined)
  · rw [max_eq_left above, min_eq_right above]
    exact labelling.point above joined

theorem jump (labelling : Labelling Edge label) (v : V) :
    Labelling Edge (Function.update label v (label (label v))) := by
  apply labelling.point
  · exact (labelling.le (label v)).trans (labelling.le v)
  · exact .trans _ _ _ (labelling.joined v) (labelling.joined (label v))

theorem same_iff (labelling : Labelling Edge label) (settled : ∀ u v, Edge u v → label u = label v) (u v : V) :
    label u = label v ↔ Relation.EqvGen Edge u v := by
  constructor
  · intro same
    apply Relation.EqvGen.trans _ (label u) _ (labelling.joined u)
    rw [same]
    exact .symm _ _ (labelling.joined v)
  · intro chain
    induction chain with
    | rel u v edge => exact settled u v edge
    | refl u => rfl
    | symm u v _ ih => exact ih.symm
    | trans u v w _ _ first second => exact first.trans second

theorem roots_hook {s : Finset V} {v w : V} (member : v ∈ s) (root : label v = v) (other : w ≠ v) :
    roots s (Function.update label v w) < roots s label := by
  apply Finset.card_lt_card
  rw [Finset.ssubset_iff_of_subset]
  · exact ⟨v, by simp [member, root], by simp [other]⟩
  · intro x rooted
    obtain ⟨inside, kept⟩ := Finset.mem_filter.mp rooted
    refine Finset.mem_filter.mpr ⟨inside, ?_⟩
    by_cases same : x = v
    · rwa [same]
    · rwa [Function.update_of_ne same] at kept

theorem roots_jump (labelling : Labelling Edge label) {s : Finset V} {v : V} (past : label v ≠ label (label v)) :
    roots s (Function.update label v (label (label v))) = roots s label := by
  unfold roots
  congr 1
  apply Finset.filter_congr
  intro x _
  by_cases same : x = v
  · subst same
    rw [Function.update_self]
    constructor
    · intro returned
      apply le_antisymm (labelling.le x)
      exact returned.symm.le.trans (labelling.le (label x))
    · intro root
      rw [root, root]
  · rw [Function.update_of_ne same]

end Labelling

end Radix.Lib
