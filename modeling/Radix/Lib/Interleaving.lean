import Mathlib.Logic.Function.Basic

/-!
# Interleavings of calls over shared state

Any number of calls take turns. A call has a local state, and its next atomic step may read and
change the shared state; a call that waits or has ended has no step.
-/

namespace Radix.Lib

universe u v w

structure Threads (S : Type u) (L : Type v) (T : Type w) where
  shared : S
  local' : T → L

namespace Threads

variable {S : Type u} {L : Type v} {T : Type w} [DecidableEq T]

def step (next : T → S → L → Option (S × L)) (c : Threads S L T) (t : T) : Option (Threads S L T) :=
  (next t c.shared (c.local' t)).map fun r => ⟨r.1, Function.update c.local' t r.2⟩

def run (next : T → S → L → Option (S × L)) : Threads S L T → List T → Option (Threads S L T)
  | c, [] => some c
  | c, t :: ts => (step next c t).bind fun c' => run next c' ts

def Meets (next : T → S → L → Option (S × L)) (condition : Threads S L T → T → Prop) :
    Threads S L T → List T → Prop
  | _, [] => True
  | c, t :: ts => condition c t ∧ ∀ c', step next c t = some c' → Meets next condition c' ts

def trace {A : Type*} (next : T → S → L → Option (S × L)) (shows : Threads S L T → T → Option A) :
    Threads S L T → List T → List A
  | _, [] => []
  | c, t :: ts => (shows c t).toList ++ (step next c t).elim [] fun c' => trace next shows c' ts

variable {next : T → S → L → Option (S × L)} {condition : Threads S L T → T → Prop}
  {c c' : Threads S L T} {t : T}

theorem step_eq_some : step next c t = some c' ↔
    ∃ s l, next t c.shared (c.local' t) = some (s, l) ∧ c' = ⟨s, Function.update c.local' t l⟩ := by
  unfold step
  rw [Option.map_eq_some_iff]
  constructor
  · rintro ⟨⟨s, l⟩, taken, rfl⟩
    exact ⟨s, l, taken, rfl⟩
  · rintro ⟨s, l, taken, rfl⟩
    exact ⟨(s, l), taken, rfl⟩

theorem step_eq_none : step next c t = none ↔ next t c.shared (c.local' t) = none := Option.map_eq_none_iff

theorem step_other (taken : step next c t = some c') {u : T} (other : u ≠ t) : c'.local' u = c.local' u := by
  obtain ⟨s, l, -, rfl⟩ := step_eq_some.mp taken
  exact Function.update_of_ne other l c.local'

theorem exists_update {f : T → L} {l : L} {p : L → Prop} (met : ∃ u, p (f u)) (still : p (f t) → p l) :
    ∃ u, p (Function.update f t l u) := by
  obtain ⟨u, holds⟩ := met
  by_cases here : u = t
  · subst here
    refine ⟨u, ?_⟩
    rw [Function.update_self]
    exact still holds
  · refine ⟨u, ?_⟩
    rwa [Function.update_of_ne here]

theorem of_update {f : T → L} {l : L} {p : T → L → Prop} {u : T} (met : p u (Function.update f t l u)) :
    p t l ∨ p u (f u) := by
  by_cases here : u = t
  · subst here
    rw [Function.update_self] at met
    exact .inl met
  · rw [Function.update_of_ne here] at met
    exact .inr met

theorem run_invariant {holds : Threads S L T → Prop}
    (keeps : ∀ c t c', holds c → condition c t → step next c t = some c' → holds c')
    {schedule : List T} (meets : Meets next condition c schedule)
    (ran : run next c schedule = some c') (start : holds c) : holds c' := by
  induction schedule generalizing c with
  | nil => exact Option.some.inj ran ▸ start
  | cons t ts ih =>
      obtain ⟨c₁, first, rest⟩ := Option.bind_eq_some_iff.mp ran
      exact ih (meets.2 c₁ first) rest (keeps c t c₁ start meets.1 first)

theorem run_history {A : Type*} {shows : Threads S L T → T → Option A}
    {holds : Threads S L T → List A → Prop}
    (keeps : ∀ c t c' seen, holds c seen → condition c t → step next c t = some c' →
      holds c' (seen ++ (shows c t).toList))
    {schedule : List T} (meets : Meets next condition c schedule)
    (ran : run next c schedule = some c') {seen : List A} (start : holds c seen) :
    holds c' (seen ++ trace next shows c schedule) := by
  induction schedule generalizing c seen with
  | nil =>
      cases ran
      rwa [trace, List.append_nil]
  | cons t ts ih =>
      obtain ⟨c₁, first, rest⟩ := Option.bind_eq_some_iff.mp ran
      rw [trace, first, Option.elim_some, ← List.append_assoc]
      exact ih (meets.2 c₁ first) rest (keeps c t c₁ seen start meets.1 first)

theorem Meets.of_trace {A : Type*} {shows : Threads S L T → T → Option A}
    (other : ∀ c t, shows c t = none → condition c t) {schedule : List T}
    (never : trace next shows c schedule = []) : Meets next condition c schedule := by
  induction schedule generalizing c with
  | nil => trivial
  | cons t ts ih =>
      rw [trace, List.append_eq_nil_iff, Option.toList_eq_nil_iff] at never
      refine ⟨other c t never.1, fun c' taken => ih ?_⟩
      rw [taken] at never
      exact never.2

theorem Meets.of_forall (always : ∀ c t, condition c t) {schedule : List T} :
    Meets next condition c schedule := by
  induction schedule generalizing c with
  | nil => trivial
  | cons t ts ih => exact ⟨always c t, fun _ _ => ih⟩

theorem Meets.mono {weaker : Threads S L T → T → Prop} (implies : ∀ c t, condition c t → weaker c t)
    {schedule : List T} (meets : Meets next condition c schedule) : Meets next weaker c schedule := by
  induction schedule generalizing c with
  | nil => trivial
  | cons t ts ih => exact ⟨implies c t meets.1, fun c' taken => ih (meets.2 c' taken)⟩

theorem Meets.strengthen {holds : Threads S L T → Prop} {stronger : Threads S L T → T → Prop}
    (keeps : ∀ c t c', holds c → condition c t → step next c t = some c' → holds c')
    (implies : ∀ c t, holds c → condition c t → stronger c t) {schedule : List T}
    (meets : Meets next condition c schedule) (start : holds c) : Meets next stronger c schedule := by
  induction schedule generalizing c with
  | nil => trivial
  | cons t ts ih =>
      exact ⟨implies c t start meets.1, fun c' taken =>
        ih (meets.2 c' taken) (keeps c t c' start meets.1 taken)⟩

theorem run_append {earlier later : List T} : run next c (earlier ++ later) =
    (run next c earlier).bind fun c' => run next c' later := by
  induction earlier generalizing c with
  | nil => rfl
  | cons t ts ih =>
      rw [List.cons_append, run, run, Option.bind_assoc]
      congr 1
      funext c₁
      exact ih

theorem Meets.append {earlier later : List T} (meets : Meets next condition c (earlier ++ later))
    (ran : run next c earlier = some c') :
    Meets next condition c earlier ∧ Meets next condition c' later := by
  induction earlier generalizing c with
  | nil =>
      cases ran
      exact ⟨trivial, meets⟩
  | cons t ts ih =>
      obtain ⟨c₁, first, rest⟩ := Option.bind_eq_some_iff.mp ran
      refine ⟨⟨meets.1, fun c₂ taken => ?_⟩, (ih (meets.2 c₁ first) rest).2⟩
      obtain rfl : c₁ = c₂ := Option.some.inj (first.symm.trans taken)
      exact (ih (meets.2 c₁ taken) rest).1

theorem run_local_absent {schedule : List T} (absent : t ∉ schedule) (ran : run next c schedule = some c') :
    c'.local' t = c.local' t := by
  induction schedule generalizing c with
  | nil => exact Option.some.inj ran ▸ rfl
  | cons u us ih =>
      obtain ⟨c₁, first, rest⟩ := Option.bind_eq_some_iff.mp ran
      obtain ⟨s, l, -, rfl⟩ := step_eq_some.mp first
      obtain ⟨other, absent⟩ := List.ne_and_not_mem_of_not_mem_cons absent
      exact (ih absent rest).trans (Function.update_of_ne other l c.local')

theorem Meets.within {schedule all : List T} (meets : Meets next condition c schedule)
    (inside : ∀ t ∈ schedule, t ∈ all) :
    Meets next (fun c t => condition c t ∧ t ∈ all) c schedule := by
  induction schedule generalizing c with
  | nil => trivial
  | cons t ts ih =>
      exact ⟨⟨meets.1, inside t List.mem_cons_self⟩, fun c' taken =>
        ih (meets.2 c' taken) fun u member => inside u (List.mem_cons_of_mem t member)⟩

theorem run_ends {ended : T → Prop} {schedule : List T} (ran : run next c schedule = some c')
    (goesOn : ∀ t, ¬ ended t → ∃ u, step next c' u ≠ none ∧ (u = t ∨ c'.local' u ≠ c.local' u))
    (stuck : ∀ t ∈ schedule, step next c' t = none) : ∀ t ∈ schedule, ended t := by
  intro t member
  by_contra unended
  obtain ⟨u, steps, who⟩ := goesOn t unended
  apply steps
  apply stuck u
  by_contra absent
  rcases who with rfl | begun
  · exact absent member
  · exact begun (run_local_absent absent ran)

/-! ## Steps that a call has left -/

theorem Meets.run_count {holds : Threads S L T → Prop} {left : Threads S L T → T → Nat}
    (lowers : ∀ c t c', holds c → condition c t → step next c t = some c' →
      holds c' ∧ left c' t < left c t ∧ ∀ u, u ≠ t → left c' u ≤ left c u)
    {schedule : List T} (meets : Meets next condition c schedule) (ran : run next c schedule = some c')
    (start : holds c) (t : T) : schedule.count t + left c' t ≤ left c t := by
  induction schedule generalizing c with
  | nil =>
      cases ran
      simp
  | cons u us ih =>
      obtain ⟨c₁, taken, rest⟩ := Option.bind_eq_some_iff.mp ran
      obtain ⟨start₁, own, others⟩ := lowers c u c₁ start meets.1 taken
      have bound := ih (meets.2 c₁ taken) rest start₁
      by_cases here : u = t
      · subst here
        rw [List.count_cons_self]
        omega
      · rw [List.count_cons_of_ne here]
        exact Nat.le_trans bound (others t (Ne.symm here))

theorem run_count {left : T → L → Nat} (descends : ∀ t s l s' l', next t s l = some (s', l') → left t l' < left t l)
    {schedule : List T} (ran : run next c schedule = some c') (t : T) :
    schedule.count t + left t (c'.local' t) ≤ left t (c.local' t) := by
  have lowers (c : Threads S L T) (t : T) (c' : Threads S L T) (_ : True) (_ : True) (taken : step next c t = some c') :
      True ∧ left t (c'.local' t) < left t (c.local' t) ∧
        ∀ u, u ≠ t → left u (c'.local' u) ≤ left u (c.local' u) := by
    refine ⟨trivial, ?_, fun u other => Nat.le_of_eq (congrArg (left u) (step_other taken other))⟩
    obtain ⟨s, l, moved, rfl⟩ := step_eq_some.mp taken
    dsimp only
    rw [Function.update_self]
    exact descends t c.shared (c.local' t) s l moved
  exact Meets.run_count lowers (Meets.of_forall fun _ _ => trivial) ran trivial t

theorem run_refines {S' : Type*} {next' : T → S' → L → Option (S' × L)}
    {related : Threads S L T → Threads S' L T → Prop}
    (simulates : ∀ c d t c', related c d → step next c t = some c' →
      related c' d ∨ ∃ d', step next' d t = some d' ∧ related c' d')
    {d : Threads S' L T} (start : related c d) {schedule : List T} (ran : run next c schedule = some c') :
    ∃ schedule' d', schedule'.Sublist schedule ∧ run next' d schedule' = some d' ∧ related c' d' := by
  induction schedule generalizing c d with
  | nil =>
      cases ran
      exact ⟨[], d, List.Sublist.refl _, rfl, start⟩
  | cons t ts ih =>
      obtain ⟨c₁, taken, rest⟩ := Option.bind_eq_some_iff.mp ran
      rcases simulates c d t c₁ start taken with same | ⟨d₁, taken', moved⟩
      · obtain ⟨schedule', d', fewer, ran', last⟩ := ih same rest
        exact ⟨schedule', d', fewer.cons t, ran', last⟩
      · obtain ⟨schedule', d', fewer, ran', last⟩ := ih moved rest
        exact ⟨t :: schedule', d', fewer.cons_cons t, by rw [run, taken', Option.bind_some, ran'], last⟩

end Threads

end Radix.Lib
