import Mathlib.Data.List.Induction
import Mathlib.Data.List.Nodup
import Mathlib.Order.Nat
import Radix.Lib.Interleaving

/-!
# Calls that seem to happen one after the other

Every call takes effect on a sequential object in one of its steps, and that step fixes what it will answer.
-/

namespace Radix.Lib

universe u v w x y

variable {T : Type w} {A : Type x} {D : Type y}

inductive Legal (allowed : D → T → A → D → Prop) (d : D) : List (T × A) → D → Prop
  | nil : Legal allowed d [] d
  | snoc {history : List (T × A)} {d' d'' : D} {t : T} {a : A} : Legal allowed d history d' →
      allowed d' t a d'' → Legal allowed d (history ++ [(t, a)]) d''

namespace Threads

variable {S : Type u} {L : Type v} [DecidableEq T] {next : T → S → L → Option (S × L)}

structure Linearized (allowed : D → T → A → D → Prop) (answer : T → L → Option A) (first : D)
    (c : Threads S L T) (history : List (T × A)) (d : D) : Prop where
  legal : Legal allowed first history d
  nodup : (history.map Prod.fst).Nodup
  mem : ∀ t a, (t, a) ∈ history ↔ answer t (c.local' t) = some a

structure Effective (allowed : D → T → A → D → Prop) (answer : T → L → Option A) (holds : Threads S L T → D → Prop)
    (next : T → S → L → Option (S × L)) : Prop where
  keeps : ∀ c d t c', holds c d → step next c t = some c' →
    answer t (c'.local' t) = answer t (c.local' t) ∧ holds c' d ∨
    answer t (c.local' t) = none ∧ ∃ a d', answer t (c'.local' t) = some a ∧ allowed d t a d' ∧ holds c' d'

variable {allowed : D → T → A → D → Prop} {answer : T → L → Option A} {holds : Threads S L T → D → Prop}
  {c c' : Threads S L T} {first d : D} {history : List (T × A)} {t : T}

theorem Linearized.step (effective : Effective allowed answer holds next)
    (linearized : Linearized allowed answer first c history d) (held : holds c d)
    (taken : step next c t = some c') :
    ∃ history' d', Linearized allowed answer first c' history' d' ∧ holds c' d' ∧ history <+: history' := by
  have others (u : T) (other : u ≠ t) (a : A) : answer u (c'.local' u) = some a ↔ (u, a) ∈ history := by
    rw [step_other taken other, linearized.mem]
  obtain ⟨same, held'⟩ | ⟨before, a, d', after, allowed', held'⟩ := effective.keeps c d t c' held taken
  · refine ⟨history, d, ⟨linearized.legal, linearized.nodup, fun u b => ?_⟩, held', List.prefix_rfl⟩
    by_cases own : u = t
    · subst own
      rw [same, linearized.mem]
    · rw [others u own]
  · have absent (b : A) : (t, b) ∉ history := by
      rw [linearized.mem, before]
      exact Option.some_ne_none b ∘ Eq.symm
    refine ⟨history ++ [(t, a)], d', ⟨linearized.legal.snoc allowed', ?_, fun u b => ?_⟩, held',
      List.prefix_append history _⟩
    · rw [List.map_append, List.map_singleton, ← List.concat_eq_append]
      apply linearized.nodup.concat
      intro member
      obtain ⟨⟨u, b⟩, inside, rfl⟩ := List.mem_map.mp member
      exact absent b inside
    · rw [List.mem_append, List.mem_singleton, Prod.mk.injEq]
      by_cases own : u = t
      · subst own
        rw [after, Option.some_inj, eq_comm]
        constructor
        · rintro (old | ⟨-, new⟩)
          · exact absurd old (absent b)
          · exact new.symm
        · exact fun new => .inr ⟨rfl, new.symm⟩
      · rw [others u own, or_iff_left fun new => own new.1]

theorem run_linearizes (effective : Effective allowed answer holds next) (held : holds c first)
    (idle : ∀ t, answer t (c.local' t) = none) {schedule : List T} (ran : run next c schedule = some c') :
    ∃ history d, Linearized allowed answer first c' history d ∧ holds c' d ∧
      ∀ earlier later middle, schedule = earlier ++ later → run next c earlier = some middle →
        ∃ front back, history = front ++ back ∧ ∀ t a, (t, a) ∈ front ↔ answer t (middle.local' t) = some a := by
  induction schedule using List.reverseRecOn generalizing c' with
  | nil =>
      cases ran
      have nothing : Linearized allowed answer first c [] first :=
        ⟨.nil, List.nodup_nil, fun t a => by simp [idle]⟩
      refine ⟨[], first, nothing, held, fun earlier later middle split ran => ?_⟩
      obtain ⟨rfl, rfl⟩ := List.append_eq_nil_iff.mp split.symm
      cases ran
      exact ⟨[], [], rfl, nothing.mem⟩
  | append_singleton ts t ih =>
      rw [run_append] at ran
      obtain ⟨c₁, before, last⟩ := Option.bind_eq_some_iff.mp ran
      obtain ⟨c₂, taken, ended⟩ := Option.bind_eq_some_iff.mp last
      cases ended
      obtain ⟨history, d, linearized, held₁, parts⟩ := ih before
      obtain ⟨history', d', linearized', held', extended⟩ := linearized.step effective held₁ taken
      refine ⟨history', d', linearized', held', fun earlier later middle split ran' => ?_⟩
      rcases List.eq_nil_or_concat later with rfl | ⟨later', u, rfl⟩
      · rw [List.append_nil] at split
        subst split
        rw [run_append, before, Option.bind_some, last] at ran'
        cases ran'
        exact ⟨history', [], (List.append_nil _).symm, linearized'.mem⟩
      · rw [List.concat_eq_append, ← List.append_assoc] at split
        obtain ⟨split, -⟩ := List.append_inj' split rfl
        obtain ⟨front, back, rfl, members⟩ := parts earlier later' middle split ran'
        obtain ⟨more, rfl⟩ := extended
        exact ⟨front, back ++ more, List.append_assoc front back more, members⟩

end Threads

end Radix.Lib
