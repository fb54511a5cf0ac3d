import Radix.Lib.Tickets

/-!
# Cells that are filled once, each under its lock

An agent that has found a cell empty takes the lock of the cell, looks again and fills the cell only
if it is still empty. `holds` is the lock that an agent has, `fills` the cell that it has found empty
under that lock.
-/

namespace Radix.Lib

universe u v w

structure Guarded {T : Type u} {K : Type v} {V : Type w} (holds fills : T → Option K) (bit : K → Bool)
    (content : K → Option V) : Prop where
  set : ∀ t k, holds t = some k → bit k = true
  once : ∀ t u k, holds t = some k → holds u = some k → t = u
  within : ∀ t k, fills t = some k → holds t = some k
  empty : ∀ t k, fills t = some k → content k = none

namespace Guarded

variable {T : Type u} {K : Type v} {V : Type w} {holds fills : T → Option K} {bit : K → Bool}
  {content : K → Option V} {t : T} {k : K}

theorem start : Guarded (fun _ : T => none) (fun _ => none) bit content where
  set _ _ held := nomatch held
  once _ _ _ held := nomatch held
  within _ _ filled := nomatch filled
  empty _ _ filled := nomatch filled

theorem alone (guarded : Guarded holds fills bit content) {u : T} (filled : fills t = some k)
    (filled' : fills u = some k) : t = u :=
  guarded.once t u k (guarded.within t k filled) (guarded.within u k filled')

variable [DecidableEq T]

theorem look (guarded : Guarded holds fills bit content) {f : Option K}
    (seen : ∀ k, f = some k → holds t = some k ∧ content k = none) :
    Guarded holds (Function.update fills t f) bit content where
  set := guarded.set
  once := guarded.once
  within u k filled := by
    by_cases here : u = t
    · subst here
      rw [Function.update_self] at filled
      exact (seen k filled).1
    · rw [Function.update_of_ne here] at filled
      exact guarded.within u k filled
  empty u k filled := by
    by_cases here : u = t
    · subst here
      rw [Function.update_self] at filled
      exact (seen k filled).2
    · rw [Function.update_of_ne here] at filled
      exact guarded.empty u k filled

variable [DecidableEq K]

theorem acquire (guarded : Guarded holds fills bit content) (free : holds t = none)
    (clear : bit k = false) :
    Guarded (Function.update holds t (some k)) fills (Function.update bit k true) content where
  set u l held := by
    by_cases same : l = k
    · rw [same, Function.update_self]
    · rw [Function.update_of_ne same]
      by_cases here : u = t
      · subst here
        rw [Function.update_self] at held
        exact absurd (Option.some.inj held).symm same
      · rw [Function.update_of_ne here] at held
        exact guarded.set u l held
  once := by
    -- nobody else has the lock, since its bit was clear
    apply once_update guarded.once
    intro u same
    have := guarded.set u k same
    rw [clear] at this
    contradiction
  within u l filled := by
    have held := guarded.within u l filled
    have here : u ≠ t := by
      rintro rfl
      rw [free] at held
      contradiction
    rwa [Function.update_of_ne here]
  empty := guarded.empty

theorem release (guarded : Guarded holds fills bit content) (held : holds t = some k)
    (idle : fills t = none) :
    Guarded (Function.update holds t none) fills (Function.update bit k false) content where
  set u l held' := by
    have here : u ≠ t := by
      rintro rfl
      rw [Function.update_self] at held'
      contradiction
    rw [Function.update_of_ne here] at held'
    have other : l ≠ k := by
      rintro rfl
      exact here (guarded.once u t l held' held)
    rw [Function.update_of_ne other]
    exact guarded.set u l held'
  once u u' l first second := by
    have old (w : T) (held' : Function.update holds t none w = some l) : holds w = some l := by
      by_cases here : w = t
      · subst here
        rw [Function.update_self] at held'
        contradiction
      · rwa [Function.update_of_ne here] at held'
    exact guarded.once u u' l (old u first) (old u' second)
  within u l filled := by
    have here : u ≠ t := by
      rintro rfl
      rw [idle] at filled
      contradiction
    rw [Function.update_of_ne here]
    exact guarded.within u l filled
  empty := guarded.empty

theorem fill (guarded : Guarded holds fills bit content) (filled : fills t = some k) (v : V) :
    Guarded holds (Function.update fills t none) bit (Function.update content k (some v)) where
  set := guarded.set
  once := guarded.once
  within := (guarded.look (f := none) fun _ impossible => nomatch impossible).within
  empty u l filled' := by
    have here : u ≠ t := by
      rintro rfl
      rw [Function.update_self] at filled'
      contradiction
    rw [Function.update_of_ne here] at filled'
    have other : l ≠ k := by
      rintro rfl
      exact here (guarded.alone filled' filled)
    rw [Function.update_of_ne other]
    exact guarded.empty u l filled'

omit [DecidableEq T] in
theorem kept (guarded : Guarded holds fills bit content) (filled : fills t = some k) (v : V) {l : K}
    {w : V} (there : content l = some w) : Function.update content k (some v) l = some w := by
  have other : l ≠ k := by
    rintro rfl
    rw [guarded.empty t l filled] at there
    contradiction
  rwa [Function.update_of_ne other]

end Guarded

inductive Touches {K : Type v} {V : Type w} [DecidableEq K] (bit : K → Bool) (content : K → Option V)
    (h f : Option K) : (K → Bool) → (K → Option V) → Option K → Option K → Prop
  | look {f' : Option K} : (∀ k, f' = some k → f = some k ∨ h = some k ∧ content k = none) →
      Touches bit content h f bit content h f'
  | acquire {k : K} : h = none → bit k = false →
      Touches bit content h f (Function.update bit k true) content (some k) none
  | release {k : K} : h = some k → f = none →
      Touches bit content h f (Function.update bit k false) content none none
  | fill {k : K} (v : V) : f = some k →
      Touches bit content h f bit (Function.update content k (some v)) h none

variable {T : Type u} {K : Type v} {V : Type w} [DecidableEq T] [DecidableEq K]
  {holds fills : T → Option K} {bit bit' : K → Bool} {content content' : K → Option V} {t : T}
  {h' f' : Option K}

theorem Guarded.touch (guarded : Guarded holds fills bit content)
    (touches : Touches bit content (holds t) (fills t) bit' content' h' f') :
    Guarded (Function.update holds t h') (Function.update fills t f') bit' content' := by
  cases touches with
  | look seen =>
      rw [Function.update_eq_self]
      refine guarded.look fun k same => ?_
      cases seen k same with
      | inl old => exact ⟨guarded.within t k old, guarded.empty t k old⟩
      | inr new => exact new
  | acquire free clear =>
      have idle : fills t = none := by
        by_contra busy
        obtain ⟨k, filled⟩ := Option.ne_none_iff_exists'.mp busy
        rw [guarded.within t k filled] at free
        contradiction
      have same : Function.update fills t none = fills := Function.update_eq_self_iff.mpr idle.symm
      rw [same]
      exact guarded.acquire free clear
  | release held idle =>
      have same : Function.update fills t none = fills := Function.update_eq_self_iff.mpr idle.symm
      rw [same]
      exact guarded.release held idle
  | fill v filled =>
      rw [Function.update_eq_self]
      exact guarded.fill filled v

omit [DecidableEq T] in
theorem Guarded.touch_kept (guarded : Guarded holds fills bit content)
    (touches : Touches bit content (holds t) (fills t) bit' content' h' f') {k : K} {w : V}
    (there : content k = some w) : content' k = some w := by
  cases touches with
  | look | acquire | release => exact there
  | fill v filled => exact guarded.kept filled v there

theorem Touches.owned {f : Option K} (owned : ∀ k, bit k = true → ∃ u, holds u = some k)
    (touches : Touches bit content (holds t) f bit' content' h' f') (k : K) (set : bit' k = true) :
    ∃ u, Function.update holds t h' u = some k := by
  cases touches with
  | look | fill =>
      rw [Function.update_eq_self]
      exact owned k set
  | acquire free clear =>
      rename_i l
      by_cases same : k = l
      · exact ⟨t, by rw [Function.update_self, same]⟩
      · rw [Function.update_of_ne same] at set
        obtain ⟨u, held⟩ := owned k set
        refine ⟨u, ?_⟩
        rw [Function.update_of_ne, held]
        rintro rfl
        rw [free] at held
        contradiction
  | release held idle =>
      rename_i l
      have other : k ≠ l := by
        rintro rfl
        rw [Function.update_self] at set
        contradiction
      rw [Function.update_of_ne other] at set
      obtain ⟨u, held'⟩ := owned k set
      refine ⟨u, ?_⟩
      rw [Function.update_of_ne, held']
      rintro rfl
      exact other (Option.some.inj (held'.symm.trans held))

end Radix.Lib
