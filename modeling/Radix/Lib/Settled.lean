import Radix.Lib.Traced

/-!
# Computations that succeed where their reports are met

A report may state a demand. A computation reaches its result just where every demand is met, and with enough
fuel it is always the same.
-/

namespace Radix.Lib.Traced

universe u

variable {ε E α β S O : Type u} {met : E → Prop} {mid : α → Prop}

/-- The result exists, and has a property, where every demand is met; the computation fails where one is not. -/
def Reaches (met : E → Prop) (post : α → Prop) (x : Traced ε E α) : Prop :=
  (∃ a, x.result = .ok a ∧ post a ∧ ∀ e ∈ x.events, met e) ∨ (∃ f, x.result = .error f) ∧ ∃ e ∈ x.events, ¬ met e

theorem bind_of_ok {x : Traced ε E α} {a : α} (result : x.result = .ok a) (f : α → Traced ε E β) :
    (x >>= f) = ⟨x.events ++ (f a).events, (f a).result⟩ := by
  cases x
  cases result
  rfl

theorem bind_of_error {x : Traced ε E α} {e : ε} (result : x.result = .error e) (f : α → Traced ε E β) :
    (x >>= f) = ⟨x.events, .error e⟩ := by
  cases x
  cases result
  rfl

theorem lift_bind {r : Except ε α} {a : α} (result : r = .ok a) (f : α → Traced ε E β) :
    (liftM r >>= f : Traced ε E β) = f a := bind_of_ok (x := liftM r) result f

section Reaches

variable {post : β → Prop}

theorem reaches_pure {b : β} (holds : post b) : (pure b : Traced ε E β).Reaches met post :=
  .inl ⟨b, rfl, holds, fun _ member => nomatch member⟩

theorem Reaches.mono {post' : β → Prop} {x : Traced ε E β} (reaches : x.Reaches met post)
    (weaker : ∀ b, post b → post' b) : x.Reaches met post' := by
  rcases reaches with ⟨b, result, holds, all⟩ | unmet
  · exact .inl ⟨b, result, weaker b holds, all⟩
  · exact .inr unmet

theorem Reaches.bind {x : Traced ε E α} {f : α → Traced ε E β} (first : x.Reaches met mid)
    (rest : ∀ a, mid a → (f a).Reaches met post) : (x >>= f).Reaches met post := by
  rcases first with ⟨a, result, holds, all⟩ | ⟨⟨e, result⟩, d, member, unmet⟩
  · rw [bind_of_ok result]
    rcases rest a holds with ⟨b, result', holds', all'⟩ | ⟨failed, d, member, unmet⟩
    · refine .inl ⟨b, result', holds', fun e member => ?_⟩
      rcases List.mem_append.mp member with earlier | later
      · exact all e earlier
      · exact all' e later
    · exact .inr ⟨failed, d, List.mem_append_right _ member, unmet⟩
  · rw [bind_of_error result]
    exact .inr ⟨⟨e, rfl⟩, d, member, unmet⟩

theorem reaches_lift_bind {r : Except ε α} {f : α → Traced ε E β} {a : α} (result : r = .ok a)
    (rest : (f a).Reaches met post) : (liftM r >>= f : Traced ε E β).Reaches met post := by
  rw [lift_bind result]
  exact rest

theorem reaches_demand {d : E} {x : Traced ε E β} (followed : met d → x.Reaches met post)
    (refused : ¬ met d → ∃ e, x.result = .error e) : (report [d] >>= fun _ => x : Traced ε E β).Reaches met post := by
  by_cases granted : met d
  · have reported : (report [d] : Traced ε E PUnit).Reaches met fun _ => True := by
      refine .inl ⟨⟨⟩, rfl, trivial, fun e member => ?_⟩
      rwa [List.mem_singleton.mp member]
    exact reported.bind fun _ _ => followed granted
  · obtain ⟨e, failed⟩ := refused granted
    rw [bind_of_ok (report_result [d])]
    exact .inr ⟨⟨e, failed⟩, d, by simp [report], granted⟩

theorem reaches_foldlM {step : S → O → Traced ε E S} (os : List O) (holds : List O → S → Prop)
    (steps : ∀ done o s, done ++ [o] <+: os → holds done s → (step s o).Reaches met (holds (done ++ [o])))
    {s : S} (start : holds [] s) : (os.foldlM step s).Reaches met (holds os) := by
  suffices general : ∀ rest done s, done ++ rest = os → holds done s → (rest.foldlM step s).Reaches met (holds os) from
    general os [] s rfl start
  intro rest
  induction rest with
  | nil =>
      intro done s split held
      apply reaches_pure
      simpa [← split] using held
  | cons o rest ih =>
      intro done s split held
      rw [List.foldlM_cons]
      apply (steps done o s ⟨rest, by simpa using split⟩ held).bind
      intro t after
      exact ih (done ++ [o]) t (by simpa using split) after

theorem Reaches.iff {x : Traced ε E β} (reaches : x.Reaches met post) :
    (∃ b, x.result = .ok b ∧ post b) ↔ ∀ e ∈ x.events, met e := by
  rcases reaches with ⟨b, result, holds, all⟩ | ⟨⟨e, result⟩, d, member, unmet⟩
  · exact ⟨fun _ => all, fun _ => ⟨b, result, holds⟩⟩
  · constructor
    · rintro ⟨b, result', -⟩
      rw [result] at result'
      cases result'
    · intro all
      exact absurd (all d member) unmet

end Reaches

def Settles (met : E → Prop) (post : α → Prop) (F : Nat → Traced ε E α) : Prop :=
  ∃ N x, (∀ fuel, N ≤ fuel → F fuel = x) ∧ x.Reaches met post

section Settles

variable {post : β → Prop}

theorem Reaches.settles {x : Traced ε E β} (reaches : x.Reaches met post) : Settles met post fun _ => x :=
  ⟨0, x, fun _ _ => rfl, reaches⟩

theorem Settles.mono {post' : β → Prop} {F : Nat → Traced ε E β} (settles : Settles met post F)
    (weaker : ∀ b, post b → post' b) : Settles met post' F := by
  obtain ⟨N, x, same, reaches⟩ := settles
  exact ⟨N, x, same, reaches.mono weaker⟩

theorem Settles.bind {F : Nat → Traced ε E α} {G : α → Nat → Traced ε E β} (first : Settles met mid F)
    (rest : ∀ a, mid a → Settles met post (G a)) : Settles met post fun fuel => F fuel >>= fun a => G a fuel := by
  obtain ⟨N, x, same, reaches⟩ := first
  rcases id reaches with ⟨a, result, holds, all⟩ | ⟨⟨e, result⟩, unmet⟩
  · obtain ⟨N', y, same', reaches'⟩ := rest a holds
    refine ⟨max N N', x >>= fun _ => y, fun fuel enough => ?_, ?_⟩
    · dsimp only
      rw [same fuel (Nat.le_trans (Nat.le_max_left _ _) enough), bind_of_ok result, bind_of_ok result,
        same' fuel (Nat.le_trans (Nat.le_max_right _ _) enough)]
    · have first : x.Reaches met fun _ => True := .inl ⟨a, result, trivial, all⟩
      exact first.bind fun _ _ => reaches'
  · refine ⟨N, ⟨x.events, .error e⟩, fun fuel enough => ?_, .inr ⟨⟨e, rfl⟩, unmet⟩⟩
    dsimp only
    rw [same fuel enough, bind_of_error result]

theorem Settles.succ {F : Nat → Traced ε E β} (settles : Settles met post fun fuel => F (fuel + 1)) :
    Settles met post F := by
  obtain ⟨N, x, same, reaches⟩ := settles
  refine ⟨N + 1, x, fun fuel enough => ?_, reaches⟩
  obtain ⟨more, rfl⟩ := Nat.exists_eq_add_of_le' enough
  exact same (more + N) (Nat.le_add_left N more)

end Settles

def Stable (out : ε) (F : Nat → Traced ε E α) (n : Nat) : Prop := (F n).result ≠ .error out → F (n + 1) = F n

section Stable

variable {out : ε} {n : Nat}

theorem stable_const (x : Traced ε E α) : Stable out (fun _ => x) n := fun _ => rfl

theorem Stable.bind {F : Nat → Traced ε E α} {G : α → Nat → Traced ε E β} (first : Stable out F n)
    (rest : ∀ a, Stable out (G a) n) : Stable out (fun fuel => F fuel >>= fun a => G a fuel) n := by
  intro enough
  dsimp only at enough ⊢
  cases result : (F n).result with
  | error e =>
      rw [bind_of_error result] at enough ⊢
      have same : F (n + 1) = F n := by
        apply first
        rw [result]
        exact fun equal => enough (congrArg Except.error (Except.error.inj equal))
      rw [same, bind_of_error result]
  | ok a =>
      rw [bind_of_ok result] at enough ⊢
      rw [first (by rw [result]; simp), bind_of_ok result, rest a enough]

theorem Stable.more {F : Nat → Traced ε E α} (stable : ∀ n, Stable out F n) (enough : (F n).result ≠ .error out)
    {m : Nat} (more : n ≤ m) : F m = F n := by
  induction more with
  | refl => rfl
  | step _ ih => rw [stable _ (ih ▸ enough), ih]

end Stable

end Radix.Lib.Traced
