import Mathlib.Data.List.Basic

/-!
# A memory of cells

Cells are allocated one after the other and keep their addresses; a deleted cell stays behind empty.
-/

namespace Radix.Lib

universe u

abbrev Address := Nat

abbrev Memory (α : Type u) := List (Option α)

namespace Memory

variable {α : Type u} {m : Memory α} {a b : Address} {v w : α}

def load (m : Memory α) (a : Address) : Option α := m[a]?.join

def store (m : Memory α) (a : Address) (v : α) : Memory α := m.set a (some v)

def delete (m : Memory α) (a : Address) : Memory α := m.set a none

def alloc (m : Memory α) (v : α) : Memory α × Address := (m ++ [some v], m.length)

theorem lt_of_load (loaded : m.load a = some v) : a < m.length := by
  by_contra outside
  rw [load, List.getElem?_eq_none (Nat.not_lt.mp outside)] at loaded
  cases loaded

theorem load_store_same (loaded : m.load a = some v) : (m.store a w).load a = some w := by
  simp [load, store, lt_of_load loaded]

theorem load_store_other (other : b ≠ a) : (m.store a w).load b = m.load b := by
  simp [load, store, Ne.symm other]

theorem load_delete_other (other : b ≠ a) : (m.delete a).load b = m.load b := by
  simp [load, delete, Ne.symm other]

theorem load_alloc_same (m : Memory α) (v : α) : (m.alloc v).1.load (m.alloc v).2 = some v := by
  simp [load, alloc]

theorem load_alloc_old (loaded : m.load a = some w) : (m.alloc v).1.load a = some w := by
  rw [load, alloc, List.getElem?_append_left (lt_of_load loaded)]
  exact loaded

theorem alloc_fresh (loaded : m.load a = some w) : a ≠ (m.alloc v).2 := Nat.ne_of_lt (lt_of_load loaded)

end Memory

end Radix.Lib
