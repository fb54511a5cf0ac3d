import Radix.Lib.Fallible

/-!
# Fallible computations that report what they do

A traced computation has a result, or fails, and yields the events up to then. Forgetting the events
leaves the plain computation.
-/

namespace Radix.Lib

universe u

structure Traced (ε E α : Type u) where
  events : List E
  result : Except ε α

namespace Traced

variable {ε E α β S O : Type u}

instance : Monad (Traced ε E) where
  pure a := ⟨[], .ok a⟩
  bind x f := match x.result with
    | .error e => ⟨x.events, .error e⟩
    | .ok a => ⟨x.events ++ (f a).events, (f a).result⟩

instance : MonadLift (Except ε) (Traced ε E) where
  monadLift r := ⟨[], r⟩

def report (events : List E) : Traced ε E PUnit := ⟨events, .ok ⟨⟩⟩

def fail (e : ε) : Traced ε E α := ⟨[], .error e⟩

section Results

@[simp] theorem pure_result (a : α) : (pure a : Traced ε E α).result = .ok a := rfl

@[simp] theorem liftM_result (r : Except ε α) : (liftM r : Traced ε E α).result = r := rfl

@[simp] theorem report_result (events : List E) : (report events : Traced ε E PUnit).result = .ok ⟨⟩ := rfl

@[simp] theorem fail_result (e : ε) : (fail e : Traced ε E α).result = .error e := rfl

@[simp] theorem bind_result (x : Traced ε E α) (f : α → Traced ε E β) :
    (x >>= f).result = x.result >>= fun a => (f a).result := by
  cases x with
  | mk events result => cases result <;> rfl

theorem foldlM_result {step : S → O → Traced ε E S} {plain : S → O → Except ε S}
    (same : ∀ s o, (step s o).result = plain s o) (s : S) (os : List O) :
    (os.foldlM step s).result = os.foldlM plain s := by
  induction os generalizing s with
  | nil => rfl
  | cons o os ih => simp only [List.foldlM_cons, bind_result, same, ih]

end Results

/-! ## What holds of every event -/

structure Within (P : E → Prop) (x : Traced ε E α) : Prop where
  all : ∀ e ∈ x.events, P e

section Within

variable {P : E → Prop}

theorem within_pure (a : α) : (pure a : Traced ε E α).Within P := ⟨fun _ member => nomatch member⟩

theorem within_liftM (r : Except ε α) : (liftM r : Traced ε E α).Within P := ⟨fun _ member => nomatch member⟩

theorem within_fail (e : ε) : (fail e : Traced ε E α).Within P := ⟨fun _ member => nomatch member⟩

theorem within_report {events : List E} (all : ∀ e ∈ events, P e) :
    (report events : Traced ε E PUnit).Within P := ⟨all⟩

theorem within_bind {x : Traced ε E α} {f : α → Traced ε E β} (first : x.Within P)
    (rest : ∀ a, x.result = .ok a → (f a).Within P) : (x >>= f).Within P := by
  refine ⟨fun e member => ?_⟩
  cases x with
  | mk events result =>
      cases result with
      | error fault => exact first.all e member
      | ok a =>
          rcases List.mem_append.mp member with earlier | later
          · exact first.all e earlier
          · exact (rest a rfl).all e later

theorem within_lift_bind {r : Except ε α} {f : α → Traced ε E β}
    (rest : ∀ a, r = .ok a → (f a).Within P) : (liftM r >>= f : Traced ε E β).Within P :=
  within_bind (within_liftM r) rest

theorem within_foldlM {step : S → O → Traced ε E S} {holds : S → Prop} {os : List O}
    (steps : ∀ o ∈ os, ∀ s, holds s →
      (step s o).Within P ∧ ∀ s', (step s o).result = .ok s' → holds s')
    {s : S} (start : holds s) : (os.foldlM step s).Within P := by
  induction os generalizing s with
  | nil => exact within_pure s
  | cons o os ih =>
      obtain ⟨here, keeps⟩ := steps o (by simp) s start
      rw [List.foldlM_cons]
      exact within_bind here fun t taken => ih (fun p member => steps p (by simp [member])) (keeps t taken)

end Within

/-! ## How many events are reported -/

def Costs (n : Nat) (x : Traced ε E α) : Prop := x.events.length ≤ n

section Costs

theorem costs_pure (a : α) : (pure a : Traced ε E α).Costs 0 := Nat.le_refl 0

theorem costs_liftM (r : Except ε α) : (liftM r : Traced ε E α).Costs 0 := Nat.le_refl 0

theorem costs_report (events : List E) : (report events : Traced ε E PUnit).Costs events.length :=
  Nat.le_refl events.length

theorem Costs.mono {x : Traced ε E α} {m n : Nat} (costs : x.Costs m) (le : m ≤ n) : x.Costs n :=
  Nat.le_trans costs le

theorem bind_events {x : Traced ε E α} {a : α} (ran : x.result = .ok a) (f : α → Traced ε E β) :
    (x >>= f).events = x.events ++ (f a).events := by
  cases x with
  | mk events result =>
      cases ran
      rfl

theorem lift_bind_events {r : Except ε α} {a : α} (ran : r = .ok a) (f : α → Traced ε E β) :
    (liftM r >>= f : Traced ε E β).events = (f a).events := by
  rw [bind_events (by simpa using ran)]
  rfl

theorem costs_bind {x : Traced ε E α} {f : α → Traced ε E β} {m n : Nat} (first : x.Costs m)
    (rest : ∀ a, x.result = .ok a → (f a).Costs n) : (x >>= f).Costs (m + n) := by
  cases x with
  | mk events result =>
      cases result with
      | error e => exact Nat.le_add_right_of_le first
      | ok a =>
          have both : (events ++ (f a).events).length ≤ m + n := by
            rw [List.length_append]
            exact Nat.add_le_add first (rest a rfl)
          exact both

theorem costs_lift_bind {r : Except ε α} {f : α → Traced ε E β} {n : Nat}
    (rest : ∀ a, r = .ok a → (f a).Costs n) : (liftM r >>= f : Traced ε E β).Costs n := by
  have costs := costs_bind (costs_liftM r) rest
  rwa [Nat.zero_add] at costs

end Costs

end Traced

end Radix.Lib
