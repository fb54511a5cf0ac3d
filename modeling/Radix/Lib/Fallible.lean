import Mathlib.Init

/-!
# Runs of operations that may fail

A run folds a fallible step over a list of operations. It simulates a total specification when
every step does, and it then fails nowhere.
-/

namespace Radix.Lib

universe u v w

section Bind

variable {ε : Type u} {α β : Type v}

@[simp] theorem ok_bind (a : α) (f : α → Except ε β) : (Except.ok a >>= f) = f a := rfl

@[simp] theorem error_bind (e : ε) (f : α → Except ε β) : (Except.error e >>= f) = .error e := rfl

theorem bind_ok (x : Except ε α) : (x >>= fun a => .ok a) = x := by cases x <;> rfl

theorem bind_eq_ok {x : Except ε α} {f : α → Except ε β} {b : β} :
    (x >>= f) = .ok b ↔ ∃ a, x = .ok a ∧ f a = .ok b := by
  cases x <;> simp

theorem map_bind {γ : Type v} (x : Except ε α) (f : α → Except ε β) (g : β → γ) :
    (x >>= f).map g = x >>= fun a => (f a).map g := by cases x <;> rfl

theorem bind_map {γ : Type v} (x : Except ε α) (f : α → β) (g : β → Except ε γ) :
    x.map f >>= g = x >>= fun a => g (f a) := by cases x <;> rfl

theorem map_eq_ok {x : Except ε α} {f : α → β} {b : β} :
    x.map f = .ok b ↔ ∃ a, x = .ok a ∧ f a = b := by
  cases x <;> simp [Except.map]

theorem toOption_eq_some {r : Except ε α} {a : α} : r.toOption = some a ↔ r = .ok a := by
  cases r with
  | error => simp [Except.toOption]
  | ok => simp [Except.toOption]

end Bind

section Runs

variable {ε S A : Type u} {O : Type w} (step : S → O → Except ε S) (next : A → O → A)
  (pre : A → O → Prop)

def Admissible : A → List O → Prop
  | _, [] => True
  | a, o :: os => pre a o ∧ Admissible (next a o) os

variable {step next pre}

instance Admissible.decidable [∀ a o, Decidable (pre a o)] : ∀ (a : A) (os : List O), Decidable (Admissible next pre a os)
  | _, [] => .isTrue trivial
  | a, o :: os =>
      have := Admissible.decidable (next a o) os
      inferInstanceAs (Decidable (_ ∧ _))

theorem admissible_append {a : A} {os more : List O} :
    Admissible next pre a (os ++ more) ↔
      Admissible next pre a os ∧ Admissible next pre (os.foldl next a) more := by
  induction os generalizing a with
  | nil => simp [Admissible]
  | cons o os ih => simp [Admissible, ih, and_assoc]

theorem admissible_of_forall {a : A} {os : List O} (all : ∀ o ∈ os, ∀ a, pre a o) :
    Admissible next pre a os := by
  induction os generalizing a with
  | nil => trivial
  | cons o os ih =>
      exact ⟨all o (by simp) a, ih fun p member => all p (by simp [member])⟩

def Along (step : S → O → Except ε S) (pre : S → O → Prop) : S → List O → Prop
  | _, [] => True
  | s, o :: os => pre s o ∧ ∀ s', step s o = .ok s' → Along step pre s' os

theorem along_of_forall {pre : S → O → Prop} (all : ∀ s o, pre s o) (s : S) (os : List O) :
    Along step pre s os := by
  induction os generalizing s with
  | nil => trivial
  | cons o os ih => exact ⟨all s o, fun s' _ => ih s'⟩

theorem along_append {pre : S → O → Prop} {s : S} {os more : List O} :
    Along step pre s (os ++ more) ↔ Along step pre s os ∧
      ∀ s', os.foldlM step s = .ok s' → Along step pre s' more := by
  induction os generalizing s with
  | nil => simp [Along, pure, Except.pure]
  | cons o os ih =>
      simp only [List.cons_append, Along, ih, List.foldlM_cons, bind_eq_ok]
      constructor
      · rintro ⟨here, rest⟩
        exact ⟨⟨here, fun t taken => (rest t taken).1⟩, fun s' ⟨t, taken, ran⟩ => (rest t taken).2 s' ran⟩
      · rintro ⟨⟨here, rest⟩, final⟩
        exact ⟨here, fun t taken => ⟨rest t taken, fun s' ran => final s' ⟨t, taken, ran⟩⟩⟩

theorem along_of_each {pre : S → O → Prop} {s : S} {os : List O}
    (each : ∀ done o s', done ++ [o] <+: os → done.foldlM step s = .ok s' → pre s' o) :
    Along step pre s os := by
  induction os generalizing s with
  | nil => trivial
  | cons o os ih =>
      refine ⟨each [] o s (by simp) rfl, fun s' taken => ih fun done o' t earlier ran => ?_⟩
      refine each (o :: done) o' t ?_ ?_
      · rw [List.cons_append, List.cons_prefix_cons]
        exact ⟨rfl, earlier⟩
      · rw [List.foldlM_cons, taken, ok_bind, ran]

theorem foldlM_along {pre : S → O → Prop} {holds : S → Prop}
    (steps : ∀ s o, holds s → pre s o → ∃ s', step s o = .ok s' ∧ holds s') {s : S} {os : List O}
    (start : holds s) (allowed : Along step pre s os) :
    ∃ s', os.foldlM step s = .ok s' ∧ holds s' := by
  induction os generalizing s with
  | nil => exact ⟨s, rfl, start⟩
  | cons o os ih =>
      obtain ⟨t, taken, held⟩ := steps s o start allowed.1
      obtain ⟨s', rest, final⟩ := ih held (allowed.2 t taken)
      exact ⟨s', by rw [List.foldlM_cons, taken, ok_bind, rest], final⟩

end Runs

section Folds

variable {ε S : Type u} {O : Type w}

theorem foldlM_keeps {step : S → O → Except ε S} {holds : S → Prop}
    (keeps : ∀ s o s', holds s → step s o = .ok s' → holds s') {os : List O} {s s' : S}
    (ran : os.foldlM step s = .ok s') (start : holds s) : holds s' := by
  induction os generalizing s with
  | nil =>
      cases ran
      exact start
  | cons o os ih =>
      rw [List.foldlM_cons, bind_eq_ok] at ran
      obtain ⟨t, taken, rest⟩ := ran
      exact ih rest (keeps s o t start taken)

theorem foldlM_congr {step step' : S → O → Except ε S} {os : List O} (same : ∀ o ∈ os, ∀ s, step s o = step' s o)
    (s : S) : os.foldlM step s = os.foldlM step' s := by
  induction os generalizing s with
  | nil => rfl
  | cons o os ih =>
      rw [List.foldlM_cons, List.foldlM_cons, same o (by simp)]
      congr 1
      funext t
      exact ih (fun p member => same p (by simp [member])) t

theorem foldlM_mono {step step' : S → O → Except ε S} (more : ∀ s o s', step s o = .ok s' → step' s o = .ok s')
    {os : List O} {s s' : S} (ran : os.foldlM step s = .ok s') : os.foldlM step' s = .ok s' := by
  induction os generalizing s with
  | nil => exact ran
  | cons o os ih =>
      rw [List.foldlM_cons, bind_eq_ok] at ran
      obtain ⟨t, taken, rest⟩ := ran
      rw [List.foldlM_cons, more s o t taken, ok_bind, ih rest]

theorem foldlM_map {step : S → O → Except ε S} {f : S → S}
    (commutes : ∀ s o, step (f s) o = (step s o).map f) (s : S) (os : List O) :
    os.foldlM step (f s) = (os.foldlM step s).map f := by
  induction os generalizing s with
  | nil => rfl
  | cons o os ih =>
      rw [List.foldlM_cons, List.foldlM_cons, commutes, bind_map, map_bind]
      congr 1
      funext t
      exact ih t

theorem foldlM_invariant {step : S → O → Except ε S} (os : List O) (holds : List O → S → Prop)
    (keeps : ∀ done o s, done ++ [o] <+: os → holds done s →
      ∃ s', step s o = .ok s' ∧ holds (done ++ [o]) s')
    {s : S} (start : holds [] s) : ∃ s', os.foldlM step s = .ok s' ∧ holds os s' := by
  suffices general : ∀ rest done s, done ++ rest = os → holds done s →
      ∃ s', rest.foldlM step s = .ok s' ∧ holds os s' from general os [] s rfl start
  intro rest
  induction rest with
  | nil =>
      intro done s split held
      exact ⟨s, rfl, by simpa [← split] using held⟩
  | cons o rest ih =>
      intro done s split held
      obtain ⟨t, taken, after⟩ := keeps done o s ⟨rest, by simpa using split⟩ held
      obtain ⟨s', looped, final⟩ := ih (done ++ [o]) t (by simpa using split) after
      exact ⟨s', by rw [List.foldlM_cons, taken, ok_bind, looped], final⟩

theorem foldlM_range {step : S → Nat → Except ε S} (n : Nat) (holds : Nat → S → Prop)
    (keeps : ∀ i < n, ∀ s, holds i s → ∃ s', step s i = .ok s' ∧ holds (i + 1) s')
    {s : S} (start : holds 0 s) : ∃ s', (List.range n).foldlM step s = .ok s' ∧ holds n s' := by
  induction n with
  | zero => exact ⟨s, rfl, start⟩
  | succ n ih =>
      obtain ⟨t, looped, held⟩ := ih fun i less => keeps i (by omega)
      obtain ⟨s', last, final⟩ := keeps n (by omega) t held
      exact ⟨s', by rw [List.range_succ, List.foldlM_append, looped, ok_bind]; simpa using last, final⟩

variable {P Q : Type u}

theorem foldlM_flatMap {f : O → Except ε (List P)} {g : O → List P} {os : List O}
    (each : ∀ o ∈ os, f o = .ok (g o)) (acc : List P) :
    os.foldlM (fun acc o => do
      let more ← f o
      .ok (acc ++ more)) acc = .ok (acc ++ os.flatMap g) := by
  induction os generalizing acc with
  | nil => simp [pure, Except.pure]
  | cons o os ih =>
      rw [List.foldlM_cons, each o (by simp), ok_bind, ok_bind, ih fun p member => each p (by simp [member])]
      simp

theorem foldlM_collect {f : O → Except ε P} {g : O → P} (skip : P → Bool) (entry : P → O → Q)
    (os : List O) (each : ∀ o ∈ os, f o = .ok (g o)) (acc : List Q) :
    os.foldlM (fun acc o => do
      let p ← f o
      .ok (if skip p then acc else acc ++ [entry p o])) acc =
        .ok (acc ++ (os.filter fun o => !skip (g o)).map fun o => entry (g o) o) := by
  induction os generalizing acc with
  | nil => simp [pure, Except.pure]
  | cons o os ih =>
      rw [List.foldlM_cons, each o (by simp), ok_bind, ok_bind, ih fun p member => each p (by simp [member])]
      cases skipped : skip (g o) <;> simp [skipped]

end Folds

end Radix.Lib
