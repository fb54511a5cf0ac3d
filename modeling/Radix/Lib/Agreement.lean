import Radix.Lib.Fallible

/-!
# Two computations side by side
-/

namespace Radix.Lib

universe u v w

inductive Agree {ε : Type u} {α : Type v} {β : Type w} (related : α → β → Prop) : Except ε α → Except ε β → Prop
  | error (e : ε) : Agree related (.error e) (.error e)
  | ok {a : α} {b : β} : related a b → Agree related (.ok a) (.ok b)

namespace Agree

variable {ε : Type u} {α γ : Type v} {β δ : Type w} {related : α → β → Prop} {next : γ → δ → Prop}

theorem bind {x : Except ε α} {y : Except ε β} {f : α → Except ε γ} {g : β → Except ε δ} (agree : Agree related x y)
    (each : ∀ a b, related a b → Agree next (f a) (g b)) : Agree next (x >>= f) (y >>= g) := by
  cases agree with
  | error e => exact .error e
  | ok here => exact each _ _ here

theorem common (x : Except ε α) : Agree (fun a b => a = b) x x := by
  cases x with
  | error e => exact .error e
  | ok a => exact .ok rfl

theorem eq {x y : Except ε α} (agree : Agree (fun a b => a = b) x y) : x = y := by
  cases agree with
  | error e => rfl
  | ok same => exact congrArg _ same

theorem ok_of {x : Except ε α} {b : β} (agree : Agree related x (.ok b)) : ∃ a, x = .ok a ∧ related a b := by
  cases agree with
  | ok here => exact ⟨_, rfl, here⟩

theorem foldlM {O : Type*} {step : α → O → Except ε α} {step' : β → O → Except ε β} {os : List O}
    (each : ∀ o ∈ os, ∀ a b, related a b → Agree related (step a o) (step' b o)) {a : α} {b : β} (start : related a b) :
    Agree related (os.foldlM step a) (os.foldlM step' b) := by
  induction os generalizing a b with
  | nil => exact .ok start
  | cons o os ih =>
      rw [List.foldlM_cons, List.foldlM_cons]
      apply (each o List.mem_cons_self a b start).bind
      intro a' b' here
      exact ih (fun p member => each p (List.mem_cons_of_mem o member)) here

end Agree

def Same {A σ τ : Type*} (related : σ → τ → Prop) (a : A × σ) (b : A × τ) : Prop := a.1 = b.1 ∧ related a.2 b.2

end Radix.Lib
