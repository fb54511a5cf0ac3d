import Mathlib.Data.Rat.Floor
import Mathlib.Tactic.Ring
import Radix.Lib.Distances

/-!
# Relaxing a graph from bins

A vertex whose distance was lowered waits in the bin of its distance. The bins are emptied in their order; an
entry that was overtaken by a lower distance is passed over.
-/

namespace Radix.Lib.Buckets

open Distances

universe u v

variable {V : Type u} {K : Type v} [Field K] [LinearOrder K] [IsStrictOrderedRing K] [FloorSemiring K]

/-- Every vertex with an edge to relax waits among `rest`, which belong to the bin `c`, or in its bin. -/
structure Pending (Edge : V → V → K → Prop) (bound width : K) (c : Nat) (dist : V → K) (bin : Nat → List V)
    (rest : List V) : Prop where
  low : ∀ b < c, bin b = []
  current : ∀ v ∈ bin c, width * c ≤ dist v
  waits : ∀ v, dist v < bound → Relaxed Edge dist v ∨ (v ∈ rest ∧ width * c ≤ dist v) ∨ v ∈ bin ⌊dist v / width⌋₊

namespace Pending

variable {Edge : V → V → K → Prop} {bound width : K} {c : Nat} {dist : V → K} {bin : Nat → List V} {rest : List V}

omit [IsStrictOrderedRing K] in
theorem start [DecidableEq V] (Edge : V → V → K → Prop) (source : V) (bound width : K) :
    Pending Edge bound width 0 (Function.update (fun _ => bound) source 0) (fun _ => []) [source] := by
  constructor
  · intro b _
    rfl
  · intro v member
    cases member
  · intro v short
    by_cases same : v = source
    · subst same
      exact .inr (.inl ⟨by simp, by simp⟩)
    · rw [Function.update_of_ne same] at short
      exact absurd short (lt_irrefl _)

theorem relax [DecidableEq V] (positive : ∀ u v w, Edge u v w → 0 < w) (wide : 0 < width)
    (pending : Pending Edge bound width c dist bin rest) {u v : V} {w : K} (edge : Edge u v w)
    (here : width * c ≤ dist u) (better : dist u + w < dist v) :
    Pending Edge bound width c (Function.update dist v (dist u + w))
      (Function.update bin ⌊(dist u + w) / width⌋₊ (bin ⌊(dist u + w) / width⌋₊ ++ [v])) rest := by
  have weight := positive u v w edge
  have later : c ≤ ⌊(dist u + w) / width⌋₊ := by
    apply Nat.le_floor
    rw [le_div_iff₀ wide]
    linarith
  constructor
  · intro b earlier
    rw [Function.update_of_ne (earlier.trans_le later).ne]
    exact pending.low b earlier
  · intro x member
    by_cases same : x = v
    · rw [same, Function.update_self]
      linarith
    · rw [Function.update_of_ne same]
      apply pending.current x
      by_cases last : c = ⌊(dist u + w) / width⌋₊
      · rw [← last, Function.update_self] at member
        exact (List.mem_append.mp member).resolve_right fun new => same (List.mem_singleton.mp new)
      · rwa [Function.update_of_ne last] at member
  · intro x short
    by_cases same : x = v
    · subst same
      rw [Function.update_self]
      exact .inr (.inr (by simp))
    · rw [Function.update_of_ne same] at short ⊢
      rcases pending.waits x short with relaxed | waiting | binned
      · left
        intro y w' edge'
        rw [Function.update_of_ne same]
        by_cases target : y = v
        · rw [target, Function.update_self]
          exact better.le.trans (target ▸ relaxed y w' edge')
        · rw [Function.update_of_ne target]
          exact relaxed y w' edge'
      · exact .inr (.inl waiting)
      · right
        right
        by_cases equal : ⌊dist x / width⌋₊ = ⌊(dist u + w) / width⌋₊
        · rw [← equal, Function.update_self]
          exact List.mem_append_left _ binned
        · rwa [Function.update_of_ne equal]

omit [IsStrictOrderedRing K] in
theorem drop {u : V} (pending : Pending Edge bound width c dist bin (u :: rest))
    (done : Relaxed Edge dist u ∨ dist u < width * c) : Pending Edge bound width c dist bin rest := by
  refine ⟨pending.low, pending.current, fun v short => ?_⟩
  rcases pending.waits v short with relaxed | ⟨member, here⟩ | binned
  · exact .inl relaxed
  · rcases List.mem_cons.mp member with rfl | later
    · exact .inl (done.resolve_right here.not_gt)
    · exact .inr (.inl ⟨later, here⟩)
  · exact .inr (.inr binned)

theorem take (wide : 0 < width) (nonneg : ∀ v, 0 ≤ dist v) (pending : Pending Edge bound width c dist bin []) {b : Nat}
    (empty : ∀ i, c ≤ i → i < b → bin i = []) :
    Pending Edge bound width b dist (Function.update bin b []) (bin b) := by
  constructor
  · intro i before
    rw [Function.update_of_ne before.ne]
    rcases Nat.lt_or_ge i c with earlier | between
    · exact pending.low i earlier
    · exact empty i between before
  · intro v member
    rw [Function.update_self] at member
    cases member
  · intro v short
    rcases pending.waits v short with relaxed | ⟨member, -⟩ | binned
    · exact .inl relaxed
    · cases member
    · by_cases same : ⌊dist v / width⌋₊ = b
      · right
        left
        refine ⟨same ▸ binned, ?_⟩
        have floor := Nat.floor_le (div_nonneg (nonneg v) wide.le)
        rw [same, le_div_iff₀ wide] at floor
        linarith
      · right
        right
        rwa [Function.update_of_ne same]

/-- Where no edge from a reached vertex is lighter than a bin is wide, the distances below the end of the current bin are
the least ones. -/
theorem le_walk {source : V} (positive : ∀ u v w, Edge u v w → 0 < w) (wide : 0 < width)
    (heavy : ∀ u v w d, Walk Edge source u d → Edge u v w → width ≤ w) (tentative : Tentative Edge source bound dist)
    (pending : Pending Edge bound width c dist bin rest) {v : V} {d : K} (walk : Walk Edge source v d)
    (near : d < width * (c + 1)) (short : d < bound) : dist v ≤ d := by
  induction walk with
  | start => exact tentative.zero.le
  | @extend u v d w walk edge ih =>
      have weight := heavy u v w d walk edge
      have before : dist u ≤ d := ih (by linarith) (by linarith)
      have earlier : dist u < width * c := by linarith
      rcases pending.waits u (by linarith) with relaxed | ⟨-, here⟩ | binned
      · exact (relaxed v w edge).trans (by linarith)
      · exact absurd here earlier.not_ge
      · have low : ⌊dist u / width⌋₊ < c := by
          rw [Nat.floor_lt (div_nonneg (tentative.nonneg positive u) wide.le), div_lt_iff₀' wide]
          exact earlier
        rw [pending.low _ low] at binned
        cases binned

omit [IsStrictOrderedRing K] in
theorem relaxed (pending : Pending Edge bound width c dist bin []) (empty : ∀ i, c ≤ i → bin i = []) {v : V}
    (short : dist v < bound) : Relaxed Edge dist v := by
  rcases pending.waits v short with relaxed | ⟨member, -⟩ | binned
  · exact relaxed
  · cases member
  · rcases Nat.lt_or_ge ⌊dist v / width⌋₊ c with earlier | later
    · rw [pending.low _ earlier] at binned
      cases binned
    · rw [empty _ later] at binned
      cases binned

end Pending

/-! ## Counting the entries -/

/-- Every vertex is below the upper end of its bin, and the entries of the bins are no more than the edges of the
vertices that are done, with `spare` more while another vertex is relaxed. -/
structure Paid (Edge : V → V → K → Prop) (width : K) (out : V → Nat) (c : Nat) (dist : V → K) (bin : Nat → List V)
    (rest : List V) (done : Finset V) (count spare : Nat) : Prop where
  below : ∀ b, ∀ v ∈ bin b, dist v < width * (b + 1)
  front : ∀ v ∈ rest, dist v < width * (c + 1)
  settled : ∀ u ∈ done, dist u < width * (c + 1) ∧ Relaxed Edge dist u
  count : count ≤ ∑ u ∈ done, out u + spare

namespace Paid

variable {Edge : V → V → K → Prop} {width : K} {out : V → Nat} {c : Nat} {dist : V → K} {bin : Nat → List V}
  {rest : List V} {done : Finset V} {count spare : Nat}

omit [IsStrictOrderedRing K] [FloorSemiring K] in
theorem start [DecidableEq V] (Edge : V → V → K → Prop) (source : V) (bound : K) (wide : 0 < width) (out : V → Nat) :
    Paid Edge width out 0 (Function.update (fun _ => bound) source 0) (fun _ => []) [source] ∅ 0 0 := by
  constructor
  · intro b v member
    cases member
  · intro v member
    rw [List.mem_singleton.mp member, Function.update_self]
    simpa using wide
  · intro u member
    cases member
  · exact Nat.zero_le _

theorem relax [DecidableEq V] (wide : 0 < width) (paid : Paid Edge width out c dist bin rest done count spare) {u v : V}
    {w : K} (weight : width ≤ w) (here : width * c ≤ dist u) (better : dist u + w < dist v) :
    Paid Edge width out c (Function.update dist v (dist u + w))
      (Function.update bin ⌊(dist u + w) / width⌋₊ (bin ⌊(dist u + w) / width⌋₊ ++ [v])) rest done (count + 1)
      (spare + 1) := by
  have lower (x : V) : Function.update dist v (dist u + w) x ≤ dist x := by
    by_cases same : x = v
    · rw [same, Function.update_self]
      exact better.le
    · rw [Function.update_of_ne same]
  constructor
  · intro b x member
    by_cases last : b = ⌊(dist u + w) / width⌋₊
    · rw [last, Function.update_self] at member
      rcases List.mem_append.mp member with old | new
      · exact (lower x).trans_lt (last ▸ paid.below _ x old)
      · rw [List.mem_singleton.mp new, Function.update_self, last, ← div_lt_iff₀' wide]
        exact Nat.lt_floor_add_one _
    · rw [Function.update_of_ne last] at member
      exact (lower x).trans_lt (paid.below b x member)
  · intro x member
    exact (lower x).trans_lt (paid.front x member)
  · intro x member
    obtain ⟨near, relaxed⟩ := paid.settled x member
    have other : x ≠ v := by
      rintro rfl
      linarith
    rw [Function.update_of_ne other]
    refine ⟨near, fun y w' edge' => ?_⟩
    rw [Function.update_of_ne other]
    exact (lower y).trans (relaxed y w' edge')
  · rw [← Nat.add_assoc]
    exact Nat.succ_le_succ paid.count

omit [IsStrictOrderedRing K] [FloorSemiring K] in
theorem mono (paid : Paid Edge width out c dist bin rest done count spare) {spare' : Nat} (le : spare ≤ spare') :
    Paid Edge width out c dist bin rest done count spare' :=
  ⟨paid.below, paid.front, paid.settled, paid.count.trans (Nat.add_le_add_left le _)⟩

omit [IsStrictOrderedRing K] [FloorSemiring K] in
theorem drop {u : V} (paid : Paid Edge width out c dist bin (u :: rest) done count spare) :
    Paid Edge width out c dist bin rest done count spare :=
  ⟨paid.below, fun v member => paid.front v (List.mem_cons_of_mem u member), paid.settled, paid.count⟩

omit [IsStrictOrderedRing K] [FloorSemiring K] in
theorem finish [DecidableEq V] {u : V} (paid : Paid Edge width out c dist bin (u :: rest) done count (out u))
    (new : u ∉ done) (relaxed : Relaxed Edge dist u) :
    Paid Edge width out c dist bin rest (insert u done) count 0 := by
  refine ⟨paid.below, fun v member => paid.front v (List.mem_cons_of_mem u member), fun x member => ?_, ?_⟩
  · rcases Finset.mem_insert.mp member with rfl | old
    · exact ⟨paid.front x List.mem_cons_self, relaxed⟩
    · exact paid.settled x old
  · rw [Finset.sum_insert new, Nat.add_zero, Nat.add_comm]
    exact paid.count

theorem take (wide : 0 < width) (paid : Paid Edge width out c dist bin rest done count spare) {b : Nat} (later : c ≤ b)
    {count' : Nat} (fewer : count' ≤ count) :
    Paid Edge width out b dist (Function.update bin b []) (bin b) done count' spare := by
  constructor
  · intro i v member
    by_cases same : i = b
    · rw [same, Function.update_self] at member
      cases member
    · rw [Function.update_of_ne same] at member
      exact paid.below i v member
  · exact paid.below b
  · intro u member
    obtain ⟨near, relaxed⟩ := paid.settled u member
    have upper : (c : K) + 1 ≤ b + 1 := by
      rw [add_le_add_iff_right]
      exact_mod_cast later
    exact ⟨near.trans_le (mul_le_mul_of_nonneg_left upper wide.le), relaxed⟩
  · exact fewer.trans paid.count

end Paid

/-! ## The potential -/

def OnGrid (q : Nat) (x : K) : Prop := ∃ m : Nat, x * q = m

def potential (q : Nat) (s : Finset V) (dist : V → K) : Nat := ∑ v ∈ s, ⌊dist v * q⌋₊

section Potential

variable {q : Nat}

omit [LinearOrder K] [IsStrictOrderedRing K] [FloorSemiring K] in
theorem OnGrid.add {x y : K} (left : OnGrid q x) (right : OnGrid q y) : OnGrid q (x + y) := by
  obtain ⟨m, equal⟩ := left
  obtain ⟨n, equal'⟩ := right
  exact ⟨m + n, by rw [add_mul, equal, equal', Nat.cast_add]⟩

omit [LinearOrder K] [IsStrictOrderedRing K] [FloorSemiring K] in
theorem OnGrid.finer {x : K} (grid : OnGrid q x) (p : Nat) : OnGrid (p * q) x := by
  obtain ⟨m, equal⟩ := grid
  exact ⟨p * m, by rw [Nat.cast_mul, Nat.cast_mul, ← equal]; ring⟩

theorem OnGrid.den {x : ℚ} (nonneg : 0 ≤ x) : OnGrid x.den x := by
  refine ⟨x.num.toNat, ?_⟩
  rw [Rat.mul_den_eq_num, ← Int.cast_natCast, Int.toNat_of_nonneg (Rat.num_nonneg.mpr nonneg)]

theorem exists_grid (xs : List ℚ) (nonneg : ∀ x ∈ xs, 0 ≤ x) : ∃ q, 0 < q ∧ ∀ x ∈ xs, OnGrid q x := by
  induction xs with
  | nil => exact ⟨1, Nat.one_pos, by simp⟩
  | cons x xs ih =>
      obtain ⟨q, fine, grid⟩ := ih fun y member => nonneg y (List.mem_cons_of_mem x member)
      refine ⟨x.den * q, Nat.mul_pos x.den_pos fine, fun y member => ?_⟩
      rcases List.mem_cons.mp member with rfl | later
      · rw [Nat.mul_comm]
        apply OnGrid.finer
        exact .den (nonneg y List.mem_cons_self)
      · exact (grid y later).finer x.den

theorem potential_lower [DecidableEq V] (fine : 0 < q) {s : Finset V} {dist : V → K} {v : V} (member : v ∈ s) {x : K}
    (grid : OnGrid q x) (lower : x < dist v) (grid' : OnGrid q (dist v)) :
    potential q s (Function.update dist v x) < potential q s dist := by
  have less : ⌊x * q⌋₊ < ⌊dist v * q⌋₊ := by
    obtain ⟨m, equal⟩ := grid
    obtain ⟨n, equal'⟩ := grid'
    have scaled := mul_lt_mul_of_pos_right lower (Nat.cast_pos.mpr fine : (0 : K) < q)
    rw [equal, equal'] at scaled ⊢
    rw [Nat.floor_natCast, Nat.floor_natCast]
    exact_mod_cast scaled
  apply Finset.sum_lt_sum
  · intro x' _
    by_cases same : x' = v
    · rw [same, Function.update_self]
      exact less.le
    · rw [Function.update_of_ne same]
  · exact ⟨v, member, by rwa [Function.update_self]⟩

end Potential

end Radix.Lib.Buckets
