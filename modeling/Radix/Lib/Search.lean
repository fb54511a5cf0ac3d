import Mathlib.Logic.Relation
import Mathlib.Order.BooleanAlgebra.Set

/-!
# Searching a graph in sweeps

A search keeps a parent for every vertex that it has visited and extends the visited set in sweeps. A
top-down sweep follows the edges out of its front. A bottom-up sweep lets every unvisited vertex pick a
parent from the front, along whatever the vertex can see of its edges.
-/

namespace Radix.Lib.Search

universe u

variable {V : Type u}

structure Sweep (V : Type u) where
  bottomUp : Bool
  before : V → Option V
  front : Set V
  after : V → Option V

variable (Edge : V → V → Prop) (pick : Set V → V → Option V)

def Sweep.Finds (s : Sweep V) (v : V) : Prop :=
  if s.bottomUp then pick s.front v ≠ none else ∃ f ∈ s.front, Edge f v

def Lifted (sweeps : List (Sweep V)) (v : V) : Prop := ∃ s ∈ sweeps, s.bottomUp ∧ s.before v = none ∧ s.after v ≠ none

structure Sweep.Legal (s : Sweep V) : Prop where
  front : ∀ f ∈ s.front, s.before f ≠ none
  kept : ∀ v p, s.before v = some p → s.after v = some p
  bottomUp : s.bottomUp → ∀ v, s.before v = none → s.after v = pick s.front v
  topDown : ¬ s.bottomUp → ∀ v, s.before v = none → (s.after v ≠ none ↔ ∃ f ∈ s.front, Edge f v) ∧
    ∀ p, s.after v = some p → p ∈ s.front ∧ Edge p v

variable {Edge pick}

theorem Sweep.Legal.finds {s : Sweep V} (legal : s.Legal Edge pick) {v : V} (unvisited : s.before v = none) :
    s.after v ≠ none ↔ s.Finds Edge pick v := by
  unfold Finds
  cases up : s.bottomUp with
  | true => rw [legal.bottomUp up v unvisited, if_pos rfl]
  | false =>
      rw [if_neg (by simp)]
      exact (legal.topDown (by simp [up]) v unvisited).1

theorem Lifted.append {sweeps : List (Sweep V)} {v : V} (lifted : Lifted sweeps v) (more : List (Sweep V)) :
    Lifted (sweeps ++ more) v := by
  obtain ⟨s, member, rest⟩ := lifted
  exact ⟨s, List.mem_append_left more member, rest⟩

/-! ## Levels -/

variable {source : V} {sweeps : List (Sweep V)} {parent : V → Option V} {pending : Set V}

variable (Edge source) in
def nearer : Nat → Set V
  | 0 => ∅
  | d + 1 => {v | v = source ∨ ∃ u ∈ nearer d, Edge u v}

variable (Edge source) in
def level (d : Nat) : Set V := nearer Edge source (d + 1) \ nearer Edge source d

theorem nearer_mono {d e : Nat} (le : d ≤ e) : nearer Edge source d ⊆ nearer Edge source e := by
  induction d generalizing e with
  | zero => exact Set.empty_subset _
  | succ d ih =>
      obtain ⟨e, rfl⟩ := Nat.exists_eq_add_of_le' (Nat.zero_lt_of_lt le)
      rintro v (rfl | ⟨u, near, edge⟩)
      · exact .inl rfl
      · exact .inr ⟨u, ih (Nat.le_of_succ_le_succ le) near, edge⟩

theorem level_zero : level Edge source 0 = {source} := by
  ext v
  constructor
  · rintro ⟨rfl | ⟨u, none, -⟩, -⟩
    · rfl
    · exact none.elim
  · rintro rfl
    exact ⟨.inl rfl, Set.notMem_empty _⟩

theorem mem_nearer_succ {d : Nat} {v : V} :
    v ∈ nearer Edge source (d + 2) ↔ v ∈ nearer Edge source (d + 1) ∨ ∃ u ∈ level Edge source d, Edge u v := by
  constructor
  · rintro (rfl | ⟨u, near, edge⟩)
    · exact .inl (.inl rfl)
    · by_cases nearer' : u ∈ nearer Edge source d
      · exact .inl (.inr ⟨u, nearer', edge⟩)
      · exact .inr ⟨u, ⟨near, nearer'⟩, edge⟩
  · rintro (near | ⟨u, near, edge⟩)
    · exact nearer_mono (Nat.le_succ _) near
    · exact .inr ⟨u, near.1, edge⟩

theorem level_empty {d e : Nat} (le : d ≤ e) (empty : level Edge source d = ∅) : level Edge source e = ∅ := by
  induction e, le using Nat.le_induction with
  | base => exact empty
  | succ e _ ih =>
      rw [level, Set.sdiff_eq_empty]
      intro v near
      rcases mem_nearer_succ.mp near with old | ⟨u, here, -⟩
      · exact old
      · exact absurd (ih ▸ here) (Set.notMem_empty u)

def Turns (sweeps : List (Sweep V)) (d : Nat) : Prop :=
  ∃ first turn rest, sweeps = first ++ turn :: rest ∧ first.length = d ∧ (∀ s ∈ first, ¬ s.bottomUp) ∧ turn.bottomUp

theorem Turns.append {d : Nat} (turns : Turns sweeps d) (more : List (Sweep V)) : Turns (sweeps ++ more) d := by
  obtain ⟨first, turn, rest, rfl, rest'⟩ := turns
  exact ⟨first, turn, rest ++ more, by simp, rest'⟩

theorem Turns.unique {d e : Nat} (turns : Turns sweeps d) (turns' : Turns sweeps e) : d = e := by
  obtain ⟨first, turn, rest, rfl, rfl, down, up⟩ := turns
  obtain ⟨first', turn', rest', same, rfl, down', up'⟩ := turns'
  rcases List.append_eq_append_iff.mp same with ⟨more, rfl, tail⟩ | ⟨more, rfl, tail⟩
  · cases more with
    | nil => simp
    | cons s more =>
        obtain ⟨rfl, -⟩ := List.cons.inj tail
        exact absurd up (down' turn (by simp))
  · cases more with
    | nil => simp
    | cons s more =>
        obtain ⟨rfl, -⟩ := List.cons.inj tail
        exact absurd up' (down turn' (by simp))

variable (Edge source) in
/-- A search whose sweeps were all top-down has visited a ball around the source. -/
structure Descending (sweeps : List (Sweep V)) (parent : V → Option V) (pending : Set V) : Prop where
  down : ∀ s ∈ sweeps, ¬ s.bottomUp
  visited : ∀ v, parent v ≠ none ↔ v ∈ nearer Edge source (sweeps.length + 1)
  pending : pending = level Edge source sweeps.length

variable (Edge source) in
structure Turned (d : Nat) (sweeps : List (Sweep V)) (parent : V → Option V) (pending : Set V) : Prop where
  turns : Turns sweeps d
  turn : ∃ s ∈ sweeps, s.bottomUp ∧ s.front = level Edge source d ∧
    ∀ v, s.before v = none ↔ v ∉ nearer Edge source (d + 1)
  visited : ∀ v ∈ nearer Edge source (d + 1), parent v ≠ none
  pending : ∀ v ∈ pending, v ∉ nearer Edge source (d + 1)
  front : ∀ s ∈ sweeps, s.bottomUp → ∀ v ∈ s.front, v ∉ nearer Edge source d
  unvisited : ∀ s ∈ sweeps, s.bottomUp → ∀ v, s.before v = none → v ∉ nearer Edge source (d + 1)

namespace Descending

theorem start [DecidableEq V] : Descending Edge source [] (fun v => if v = source then some source else none) {source} where
  down s member := by cases member
  visited v := by
    have same : v ∈ nearer Edge source 1 ↔ v = source := by
      constructor
      · rintro (rfl | ⟨u, none, -⟩)
        · rfl
        · exact none.elim
      · exact .inl
    rw [List.length_nil, Nat.zero_add, same]
    simp
  pending := level_zero.symm

theorem front {s : Sweep V} (descending : Descending Edge source sweeps s.before pending) (included : pending ⊆ s.front)
    (known : s.front ⊆ pending ∪ {v | Lifted sweeps v}) : s.front = level Edge source sweeps.length := by
  rw [← descending.pending]
  refine (known.trans (Set.union_subset subset_rfl ?_)).antisymm included
  rintro v ⟨s', member, up, -⟩
  exact absurd up (descending.down s' member)

theorem unvisited (descending : Descending Edge source sweeps parent pending) (v : V) :
    parent v = none ↔ v ∉ nearer Edge source (sweeps.length + 1) := by
  rw [← descending.visited, not_not]

theorem sweepDown {s : Sweep V} (descending : Descending Edge source sweeps s.before pending)
    (front : s.front = level Edge source sweeps.length) (legal : s.Legal Edge pick) (down : ¬ s.bottomUp) :
    Descending Edge source (sweeps ++ [s]) s.after {v | s.before v = none ∧ s.after v ≠ none} := by
  have visited (v : V) : s.after v ≠ none ↔ v ∈ nearer Edge source (sweeps.length + 2) := by
    rw [mem_nearer_succ, ← descending.visited, ← front]
    by_cases before : s.before v = none
    · rw [(legal.topDown down v before).1]
      simp [before]
    · obtain ⟨p, here⟩ := Option.ne_none_iff_exists'.mp before
      simp [here, legal.kept v p here]
  refine ⟨fun s' member => ?_, fun v => ?_, ?_⟩
  · rcases List.mem_append.mp member with old | new
    · exact descending.down s' old
    · rwa [List.mem_singleton.mp new]
  · rw [List.length_append, List.length_singleton]
    exact visited v
  · ext v
    rw [List.length_append, List.length_singleton, level, Set.mem_sdiff, ← descending.unvisited, ← visited]
    exact and_comm

theorem sweepUp {s : Sweep V} (descending : Descending Edge source sweeps s.before pending)
    (front : s.front = level Edge source sweeps.length) (legal : s.Legal Edge pick) (up : s.bottomUp) :
    Turned Edge source sweeps.length (sweeps ++ [s]) s.after {v | s.before v = none ∧ s.after v ≠ none} where
  turns := ⟨sweeps, s, [], rfl, rfl, descending.down, up⟩
  turn := ⟨s, by simp, up, front, descending.unvisited⟩
  visited v near := by
    obtain ⟨p, here⟩ := Option.ne_none_iff_exists'.mp ((descending.visited v).mpr near)
    simp [legal.kept v p here]
  pending v new := (descending.unvisited v).mp new.1
  front s' member up' v here := by
    rcases List.mem_append.mp member with old | new
    · exact absurd up' (descending.down s' old)
    · rw [List.mem_singleton.mp new, front] at here
      exact here.2
  unvisited s' member up' v before := by
    rcases List.mem_append.mp member with old | new
    · exact absurd up' (descending.down s' old)
    · rw [List.mem_singleton.mp new] at before
      exact (descending.unvisited v).mp before

end Descending

theorem Turned.sweep {d : Nat} {s : Sweep V} (turned : Turned Edge source d sweeps s.before pending)
    (known : s.front ⊆ pending ∪ {v | Lifted sweeps v}) (legal : s.Legal Edge pick) :
    Turned Edge source d (sweeps ++ [s]) s.after {v | s.before v = none ∧ s.after v ≠ none} where
  turns := turned.turns.append [s]
  turn := by
    obtain ⟨turn, member, rest⟩ := turned.turn
    exact ⟨turn, by simp [member], rest⟩
  visited v near := by
    obtain ⟨p, here⟩ := Option.ne_none_iff_exists'.mp (turned.visited v near)
    simp [legal.kept v p here]
  pending v new near := turned.visited v near new.1
  front s' member up v here := by
    rcases List.mem_append.mp member with old | new
    · exact turned.front s' old up v here
    · rw [List.mem_singleton.mp new] at here
      intro near
      rcases known here with waiting | ⟨other, member', up', before, -⟩
      · exact turned.pending v waiting (nearer_mono (Nat.le_succ d) near)
      · exact turned.unvisited other member' up' v before (nearer_mono (Nat.le_succ d) near)
  unvisited s' member up v before near := by
    rcases List.mem_append.mp member with old | new
    · exact turned.unvisited s' old up v before near
    · rw [List.mem_singleton.mp new] at before
      exact turned.visited v near before

/-! ## Searches -/

variable [DecidableEq V]

variable (Edge pick) in
/-- The sweeps of a search from the source, the parents after them, and the vertices that the last of them
visited; the next front contains these, and beside them at most vertices of earlier bottom-up sweeps. -/
inductive Trail (source : V) : List (Sweep V) → (V → Option V) → Set V → Prop
  | start : Trail source [] (fun v => if v = source then some source else none) {source}
  | sweep {sweeps : List (Sweep V)} {pending : Set V} (s : Sweep V) : Trail source sweeps s.before pending →
      pending ⊆ s.front → s.front ⊆ pending ∪ {v | Lifted sweeps v} → s.Legal Edge pick →
      Trail source (sweeps ++ [s]) s.after {v | s.before v = none ∧ s.after v ≠ none}

namespace Trail

theorem source_visited (trail : Trail Edge pick source sweeps parent pending) : parent source = some source := by
  induction trail with
  | start => simp
  | sweep s _ _ _ legal ih => exact legal.kept source source ih

theorem final (trail : Trail Edge pick source sweeps parent pending) {s : Sweep V} (member : s ∈ sweeps) :
    s.Legal Edge pick ∧ ∀ v p, s.after v = some p → parent v = some p := by
  induction trail with
  | start => cases member
  | sweep last _ _ _ legal ih =>
      rcases List.mem_append.mp member with old | new
      · obtain ⟨legal', final⟩ := ih old
        exact ⟨legal', fun v p found => legal.kept v p (final v p found)⟩
      · obtain rfl := List.mem_singleton.mp new
        exact ⟨legal, fun v p found => found⟩

theorem source_before (trail : Trail Edge pick source sweeps parent pending) {s : Sweep V} (member : s ∈ sweeps) :
    s.before source = some source := by
  induction trail with
  | start => cases member
  | sweep last earlier _ _ _ ih =>
      rcases List.mem_append.mp member with old | new
      · exact ih old
      · rw [List.mem_singleton.mp new]
        exact earlier.source_visited

theorem expanded (trail : Trail Edge pick source sweeps parent pending) {v : V} (visited : parent v ≠ none) :
    v ∈ pending ∨ ∃ s ∈ sweeps, v ∈ s.front := by
  induction trail with
  | start =>
      refine .inl ?_
      by_contra other
      exact visited (if_neg other)
  | sweep s _ included _ legal ih =>
      by_cases before : s.before v = none
      · exact .inl ⟨before, visited⟩
      · right
        rcases ih before with here | ⟨s', member, here⟩
        · exact ⟨s, by simp, included here⟩
        · exact ⟨s', by simp [member], here⟩

theorem found (trail : Trail Edge pick source sweeps parent pending) {v p : V} (visited : parent v = some p)
    (other : v ≠ source) : ∃ s ∈ sweeps, s.before v = none ∧ s.after v = some p := by
  induction trail with
  | start =>
      exact absurd (show (if v = source then some source else none) = some p from visited) (by simp [other])
  | sweep s _ _ _ legal ih =>
      cases before : s.before v with
      | none => exact ⟨s, by simp, before, visited⟩
      | some q =>
          have same : p = q := Option.some.inj (visited.symm.trans (legal.kept v q before))
          obtain ⟨s', member, rest⟩ := ih (same ▸ before)
          exact ⟨s', by simp [member], rest⟩

theorem sound (trail : Trail Edge pick source sweeps parent pending)
    (picked : ∀ F v p, pick F v = some p → p ∈ F)
    (upward : ∀ s ∈ sweeps, s.bottomUp → ∀ v p, s.before v = none → pick s.front v = some p →
      Relation.ReflTransGen Edge source p → Edge p v) :
    ∀ v p, parent v = some p → Relation.ReflTransGen Edge source v ∧ (v ≠ source → Edge p v) := by
  induction trail with
  | start =>
      intro v p visited
      by_cases same : v = source
      · subst same
        exact ⟨.refl, fun other => absurd rfl other⟩
      · exact absurd (show (if v = source then some source else none) = some p from visited) (by simp [same])
  | sweep s _ _ _ legal ih =>
      have earlier := ih fun s' member => upward s' (by simp [member])
      intro v p visited
      cases before : s.before v with
      | some q =>
          obtain rfl := Option.some.inj (visited.symm.trans (legal.kept v q before))
          exact earlier v p before
      | none =>
          have reached {u : V} (front : u ∈ s.front) : Relation.ReflTransGen Edge source u := by
            obtain ⟨q, here⟩ := Option.ne_none_iff_exists'.mp (legal.front u front)
            exact (earlier u q here).1
          have edge : p ∈ s.front ∧ Edge p v := by
            cases up : s.bottomUp with
            | true =>
                rw [legal.bottomUp up v before] at visited
                have front := picked _ _ _ visited
                exact ⟨front, upward s (by simp) up v p before visited (reached front)⟩
            | false => exact (legal.topDown (by simp [up]) v before).2 p visited
          exact ⟨(reached edge.1).tail edge.2, fun _ => edge.2⟩

end Trail

structure Correct (Edge : V → V → Prop) (source : V) (parent : V → Option V) : Prop where
  reached : ∀ v, parent v ≠ none ↔ Relation.ReflTransGen Edge source v
  edges : ∀ v p, parent v = some p → v ≠ source → Edge p v

/-- A bottom-up sweep does no harm: what an unvisited vertex picks has an edge to it, and if any vertex of
the front has one, then some sweep finds the unvisited vertex. -/
structure Sweep.Harmless (Edge : V → V → Prop) (pick : Set V → V → Option V) (sweeps : List (Sweep V)) (s : Sweep V) :
    Prop where
  picked : ∀ v p, s.before v = none → pick s.front v = some p → Edge p v
  seen : ∀ v, s.before v = none → (∃ f ∈ s.front, Edge f v) →
    ∃ later ∈ sweeps, later.before v = none ∧ later.Finds Edge pick v

theorem correct_iff (trail : Trail Edge pick source sweeps parent ∅) (picked : ∀ F v p, pick F v = some p → p ∈ F) :
    Correct Edge source parent ↔ ∀ s ∈ sweeps, s.bottomUp → s.Harmless Edge pick sweeps := by
  have sweep_finds {s : Sweep V} (member : s ∈ sweeps) {v : V} (unvisited : s.before v = none) :
      s.Finds Edge pick v → parent v ≠ none := by
    obtain ⟨legal, final⟩ := trail.final member
    intro finds
    obtain ⟨p, after⟩ := Option.ne_none_iff_exists'.mp ((legal.finds unvisited).mpr finds)
    rw [final v p after]
    simp
  have before_visited {s : Sweep V} (member : s ∈ sweeps) {v : V} (visited : s.before v ≠ none) : parent v ≠ none := by
    obtain ⟨legal, final⟩ := trail.final member
    obtain ⟨p, before⟩ := Option.ne_none_iff_exists'.mp visited
    rw [final v p (legal.kept v p before)]
    simp
  constructor
  · intro correct s member up
    obtain ⟨legal, final⟩ := trail.final member
    have other {v : V} (unvisited : s.before v = none) : v ≠ source := by
      intro same
      rw [same, trail.source_before member] at unvisited
      cases unvisited
    constructor
    · intro v p unvisited chosen
      have after : s.after v = some p := by rw [legal.bottomUp up v unvisited, chosen]
      exact correct.edges v p (final v p after) (other unvisited)
    · rintro v unvisited ⟨f, front, edge⟩
      have from_source := (correct.reached f).mp (before_visited member (legal.front f front))
      have reached := (correct.reached v).mpr (from_source.tail edge)
      obtain ⟨p, visited⟩ := Option.ne_none_iff_exists'.mp reached
      obtain ⟨later, member', before, after⟩ := trail.found visited (other unvisited)
      refine ⟨later, member', before, ?_⟩
      rw [← (trail.final member').1.finds before, after]
      simp
  · intro harmless
    have sound := trail.sound picked fun s member up v p unvisited chosen _ =>
      (harmless s member up).picked v p unvisited chosen
    refine ⟨fun v => ⟨fun visited => ?_, fun reached => ?_⟩, fun v p visited => (sound v p visited).2⟩
    · obtain ⟨p, here⟩ := Option.ne_none_iff_exists'.mp visited
      exact (sound v p here).1
    · induction reached with
      | refl => simp [trail.source_visited]
      | @tail u v _ edge ih =>
          obtain nothing | ⟨s, member, front⟩ := trail.expanded ih
          · exact absurd nothing (Set.notMem_empty u)
          by_cases unvisited : s.before v = none
          · cases up : s.bottomUp with
            | true =>
                obtain ⟨later, member', before, finds⟩ := (harmless s member up).seen v unvisited ⟨u, front, edge⟩
                exact sweep_finds member' before finds
            | false =>
                refine sweep_finds member unvisited ?_
                rw [Sweep.Finds, up, if_neg (by simp)]
                exact ⟨u, front, edge⟩
          · exact before_visited member unvisited

theorem Trail.phases (trail : Trail Edge pick source sweeps parent pending) :
    Descending Edge source sweeps parent pending ∨ ∃ d, Turned Edge source d sweeps parent pending := by
  induction trail with
  | start => exact .inl .start
  | sweep s _ included known legal ih =>
      rcases ih with descending | ⟨d, turned⟩
      · have front := descending.front included known
        by_cases up : s.bottomUp
        · exact .inr ⟨_, descending.sweepUp front legal up⟩
        · exact .inl (descending.sweepDown front legal up)
      · exact .inr ⟨d, turned.sweep known legal⟩

variable (Edge source) in
def Exchangeable (d : Nat) : Prop :=
  ∀ u v, Relation.ReflTransGen Edge source u → u ∉ nearer Edge source d → v ∉ nearer Edge source (d + 1) →
    (Edge u v ↔ Edge v u)

theorem correct_of_exchangeable (trail : Trail Edge pick source sweeps parent ∅)
    (picked : ∀ F v p, pick F v = some p → p ∈ F ∧ Edge v p) (picks : ∀ F v p, p ∈ F → Edge v p → pick F v ≠ none)
    (exchangeable : ∀ d, Turns sweeps d → Exchangeable Edge source d) : Correct Edge source parent := by
  have back {s : Sweep V} (member : s ∈ sweeps) (up : s.bottomUp) {u v : V} (front : u ∈ s.front)
      (unvisited : s.before v = none) (reached : Relation.ReflTransGen Edge source u) : Edge u v ↔ Edge v u := by
    rcases trail.phases with descending | ⟨d, turned⟩
    · exact absurd up (descending.down s member)
    · exact exchangeable d turned.turns u v reached (turned.front s member up u front)
        (turned.unvisited s member up v unvisited)
  have sound := trail.sound (fun F v p chosen => (picked F v p chosen).1) fun s member up v p unvisited chosen reached => by
    obtain ⟨front, edge⟩ := picked _ _ _ chosen
    exact (back member up front unvisited reached).mpr edge
  have reached {s : Sweep V} (member : s ∈ sweeps) {u : V} (front : u ∈ s.front) :
      Relation.ReflTransGen Edge source u := by
    obtain ⟨legal, final⟩ := trail.final member
    obtain ⟨q, before⟩ := Option.ne_none_iff_exists'.mp (legal.front u front)
    exact (sound u q (final u q (legal.kept u q before))).1
  refine (correct_iff trail fun F v p chosen => (picked F v p chosen).1).mpr fun s member up => ⟨?_, ?_⟩
  · intro v p unvisited chosen
    obtain ⟨front, edge⟩ := picked _ _ _ chosen
    exact (back member up front unvisited (reached member front)).mpr edge
  · rintro v unvisited ⟨u, front, edge⟩
    refine ⟨s, member, unvisited, ?_⟩
    rw [Sweep.Finds, if_pos up]
    exact picks _ v u front ((back member up front unvisited (reached member front)).mp edge)

theorem Correct.picks_back (correct : Correct Edge source parent) (trail : Trail Edge pick source sweeps parent ∅)
    (picked : ∀ F v p, pick F v = some p → p ∈ F) {d : Nat} (turns : Turns sweeps d) {v p : V}
    (far : v ∉ nearer Edge source (d + 1)) (chosen : pick (level Edge source d) v = some p) : Edge p v := by
  rcases trail.phases with descending | ⟨e, turned⟩
  · obtain ⟨first, turn, rest, rfl, -, -, up⟩ := turns
    exact absurd up (descending.down turn (by simp))
  · obtain rfl := turns.unique turned.turns
    obtain ⟨s, member, up, front, unvisited⟩ := turned.turn
    exact ((correct_iff trail picked).mp correct s member up).picked v p ((unvisited v).mpr far) (front ▸ chosen)

end Radix.Lib.Search
