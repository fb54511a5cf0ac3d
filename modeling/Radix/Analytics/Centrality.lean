import Mathlib.Algebra.Order.BigOperators.Group.Finset
import Radix.Analytics.PathCounts

/-!
# What `Brandes` computes

The bits of `succ` belong to vertices, not to edges: an edge to a vertex that is not one level deeper counts
as well, so that the scores are upper bounds, and exact just where there is no such edge.
-/

namespace Radix.Analytics

open Lib RadixGraph Geodesics

def Strays (next : Nat → Finset Nat) (source u : Nat) : Prop :=
  ∃ v ∈ next u, v ≠ source ∧ ∃ d e, At next source d u ∧ At next source e v ∧ e ≠ d + 1

theorem graded_straight {next : Nat → Finset Nat} (level : Nat → Nat)
    (graded : ∀ u, ∀ v ∈ next u, level v = level u + 1) (source u : Nat) : ¬ Strays next source u := by
  have deep (d : Nat) : ∀ v, At next source d v → level v = level source + d := by
    induction d with
    | zero =>
        intro v here
        rw [at_zero.mp here, Nat.add_zero]
    | succ d ih =>
        intro v here
        obtain ⟨⟨w, there, edge⟩, -⟩ := at_succ.mp here
        rw [graded w v edge, ih w there, Nat.add_assoc]
  rintro ⟨v, edge, -, d, e, here, there, other⟩
  have below := graded u v edge
  rw [deep d u here, deep e v there] at below
  omega

structure Worth (next : Nat → Finset Nat) (n source : Nat) (P : Nat → Prop) (delta : Nat → ℚ) : Prop where
  zero : ∀ v, ¬ P v → delta v = 0
  le : ∀ v, P v → dependency next (Finset.range n) source v ≤ delta v
  lt : ∀ v, P v → Strays next source v → dependency next (Finset.range n) source v < delta v
  eq : (∀ v, ¬ Strays next source v) → ∀ v, P v → delta v = dependency next (Finset.range n) source v

namespace Worth

variable {next : Nat → Finset Nat} {n source : Nat} {P : Nat → Prop} {delta : Nat → ℚ}

theorem nonneg (worth : Worth next n source P delta) (v : Nat) : 0 ≤ delta v := by
  by_cases known : P v
  · exact (dependency_nonneg _ _ _).trans (worth.le v known)
  · exact (worth.zero v known).ge

theorem congr {Q : Nat → Prop} (worth : Worth next n source P delta) (same : ∀ v, P v ↔ Q v) :
    Worth next n source Q delta := by
  obtain rfl : P = Q := funext fun v => propext (same v)
  exact worth

theorem add (worth : Worth next n source P delta) {d u : Nat} (here : At next source d u) (inside : u < n)
    (closed : ∀ v ∈ next u, v < n) (deeper : ∀ v, At next source (d + 1) v → P v) (new : ¬ P u) {x : ℚ}
    {bit : Nat → Prop} [DecidablePred bit] (bits : ∀ v ∈ next u, bit v ↔ v ≠ source ∧ ∃ e, At next source e v)
    (sum : x = ∑ v ∈ next u, if bit v then
      ((geodesics next source u).card : ℚ) / (geodesics next source v).card * (1 + delta v) else 0) :
    Worth next n source (fun v => P v ∨ v = u) (Function.update delta u x) := by
  classical
  let term (v : Nat) : ℚ := if bit v then
    ((geodesics next source u).card : ℚ) / (geodesics next source v).card * (1 + delta v) else 0
  let S : Finset Nat := (next u).filter fun v => At next source (d + 1) v
  have mem_S (v : Nat) : v ∈ S ↔ v ∈ next u ∧ At next source (d + 1) v := Finset.mem_filter
  have split : x = ∑ v ∈ S, term v + ∑ v ∈ (next u).filter (fun v => ¬ At next source (d + 1) v), term v := by
    rw [sum, Finset.sum_filter_add_sum_filter_not]
  have worth_u := here.dependency_eq (Finset.mem_range.mpr inside)
    (fun v member => Finset.mem_range.mpr (closed v ((mem_S v).mp member).1)) mem_S
  have below (v : Nat) (member : v ∈ S) : term v =
      (count next d source u : ℚ) / count next (d + 1) source v * (1 + delta v) := by
    obtain ⟨edge, there⟩ := (mem_S v).mp member
    have other : v ≠ source := by
      rintro rfl
      have := there.unique At.source
      omega
    simp only [term]
    rw [if_pos ((bits v edge).mpr ⟨other, d + 1, there⟩), here.card_geodesics, there.card_geodesics]
  have ratio (v : Nat) : 0 ≤ (count next d source u : ℚ) / count next (d + 1) source v :=
    div_nonneg (Nat.cast_nonneg _) (Nat.cast_nonneg _)
  have straight : dependency next (Finset.range n) source u ≤ ∑ v ∈ S, term v := by
    rw [worth_u]
    refine Finset.sum_le_sum fun v member => ?_
    rw [below v member]
    have known := deeper v ((mem_S v).mp member).2
    exact mul_le_mul_of_nonneg_left (by linarith [worth.le v known]) (ratio v)
  have some (v : Nat) : 0 ≤ term v := by
    simp only [term]
    split
    · have := worth.nonneg v
      exact mul_nonneg (div_nonneg (Nat.cast_nonneg _) (Nat.cast_nonneg _)) (by linarith)
    · exact le_rfl
  have rest : 0 ≤ ∑ v ∈ (next u).filter (fun v => ¬ At next source (d + 1) v), term v :=
    Finset.sum_nonneg fun v _ => some v
  have new_source (v : Nat) (known : P v) : v ≠ u := fun same => new (same ▸ known)
  refine ⟨fun v unknown => ?_, fun v known => ?_, fun v known strays => ?_, fun straight' v known => ?_⟩
  · obtain ⟨unknown, other⟩ := not_or.mp unknown
    rw [Function.update_of_ne other, worth.zero v unknown]
  · rcases known with known | rfl
    · rw [Function.update_of_ne (new_source v known)]
      exact worth.le v known
    · rw [Function.update_self, split]
      exact straight.trans (le_add_of_nonneg_right rest)
  · rcases known with known | rfl
    · rw [Function.update_of_ne (new_source v known)]
      exact worth.lt v known strays
    · obtain ⟨v', edge, other, d', e, here', there, shallow⟩ := strays
      obtain rfl := here.unique here'
      have member : v' ∈ (next v).filter fun v => ¬ At next source (d + 1) v :=
        Finset.mem_filter.mpr ⟨edge, fun below => shallow (there.unique below)⟩
      have positive : 0 < term v' := by
        simp only [term]
        rw [if_pos ((bits v' edge).mpr ⟨other, e, there⟩), here.card_geodesics, there.card_geodesics]
        have := worth.nonneg v'
        have top : (0 : ℚ) < count next d source v := Nat.cast_pos.mpr here.1
        have bottom : (0 : ℚ) < count next e source v' := Nat.cast_pos.mpr there.1
        exact mul_pos (div_pos top bottom) (by linarith)
      have more := positive.trans_le (Finset.single_le_sum (fun w _ => some w) member)
      rw [Function.update_self, split]
      linarith
  · rcases known with known | rfl
    · rw [Function.update_of_ne (new_source v known)]
      exact worth.eq straight' v known
    · have nothing : ∑ w ∈ (next v).filter (fun w => ¬ At next source (d + 1) w), term w = 0 := by
        refine Finset.sum_eq_zero fun w member => ?_
        obtain ⟨edge, shallow⟩ := Finset.mem_filter.mp member
        simp only [term]
        rw [if_neg]
        intro marked
        obtain ⟨other, e, there⟩ := (bits w edge).mp marked
        refine straight' v ⟨w, edge, other, d, e, here, there, ?_⟩
        rintro rfl
        exact shallow there
      rw [Function.update_self, split, nothing, add_zero, worth_u]
      refine Finset.sum_congr rfl fun w member => ?_
      rw [below w member, worth.eq straight' w (deeper w ((mem_S w).mp member).2)]

end Worth

/-! ## The back-propagation -/

variable {W : Type} [Zero W] [DecidableEq W] {ws : List Nat} {A : Ledger W} {pages : Nat → Page W}
  {adj : Nat → List (WeightedEdge W)}

theorem share_spec (answers : Answers ws A pages adj) {n : Nat} (within : A.ids.length ≤ n) {pathCounts deltas : PVector ℚ}
    {c delta : Nat → ℚ} {succ : Bitmap} {bit : Nat → Bool} (counts : pathCounts.Stores n c) (marks : succ.Marks n bit)
    (stores : deltas.Stores n delta) {u : Nat} (inside : u < n) :
    (adj u).foldlM (share pathCounts succ deltas u) 0 =
      .ok ((targets (adj u)).map fun v => if bit v then c u / c v * (1 + delta v) else 0).sum := by
  have step (done : List (WeightedEdge W)) (e : WeightedEdge W) (x : ℚ) (earlier : done ++ [e] <+: adj u)
      (summed : x = ((targets done).map fun v => if bit v then c u / c v * (1 + delta v) else 0).sum) :
      ∃ x', share pathCounts succ deltas u x e = .ok x' ∧
        x' = ((targets (done ++ [e])).map fun v => if bit v then c u / c v * (1 + delta v) else 0).sum := by
    obtain ⟨v, below, idx⟩ := answers.closed u e (earlier.subset (by simp))
    have below := below.trans_le within
    have last : targets (done ++ [e]) = targets done ++ [v] := by simp [targets, idx]
    rw [last, List.map_append, List.sum_append, ← summed, List.map_singleton, List.sum_singleton]
    rw [share, idx, index_natCast, ok_bind, marks.get below, ok_bind]
    split
    · rw [counts.get inside, ok_bind, counts.get below, ok_bind, stores.get below, ok_bind]
      exact ⟨_, rfl, rfl⟩
    · exact ⟨x, rfl, (add_zero x).symm⟩
  obtain ⟨x, looped, rfl⟩ := foldlM_invariant (adj u) _ step (s := (0 : ℚ)) rfl
  exact looped

structure Propagating (ws : List Nat) (A : Ledger W) (pages : Nat → Page W) (adj : Nat → List (WeightedEdge W))
    (n source : Nat) (base : Nat → ℚ) (P : Nat → Prop) (p : Propagation W) : Prop where
  serves : Serves ws A pages p.g
  worth : ∃ delta, Worth (nexts adj) n source P delta ∧ p.deltas.Stores n delta ∧
    p.scores.Stores n fun j => base j + delta j

variable {n source d : Nat} {L : List (List Nat)} {s : PathCounting W} {base : Nat → ℚ} {P : Nat → Prop}
  {p : Propagation W}

theorem nexts_lt (answers : Answers ws A pages adj) (within : A.ids.length ≤ n) {u v : Nat} (edge : v ∈ nexts adj u) :
    v < n := by
  obtain ⟨e, member, rfl⟩ := List.mem_map.mp (List.mem_toFinset.mp edge)
  obtain ⟨j, inside, idx⟩ := answers.closed u e member
  omega

theorem Propagating.vertex (answers : Answers ws A pages adj) (within : A.ids.length ≤ n) (short : n ≤ 2 ^ 31)
    (distinct : ∀ i, (targets (adj i)).Nodup) (counted : Counted ws A pages adj n source d L s)
    (none : L[d]? = some []) (propagating : Propagating ws A pages adj n source base P p) {q u m : Nat}
    (item : L.flatten[q]? = some u) (here : At (nexts adj) source m u)
    (deeper : ∀ v, At (nexts adj) source (m + 1) v → P v) (new : ¬ P u) :
    ∃ p', propagate s.pathCounts s.succ s.queue p q = .ok p' ∧
      Propagating ws A pages adj n source base (fun v => P v ∨ v = u) p' := by
  obtain ⟨delta, worth, deltas, scores⟩ := propagating.worth
  have inside : u < n := counted.inside u (List.mem_of_getElem? item)
  have all (v : Nat) := counted.complete none v
  obtain ⟨found, g', read, serves'⟩ := answers.read propagating.serves (inside.trans_le short)
  let x := ((targets (adj u)).map fun v => if succAt adj source d v then
    countsAt adj source d u / countsAt adj source d v * (1 + delta v) else 0).sum
  obtain ⟨deltas', stored, deltas''⟩ := deltas.set inside x
  obtain ⟨scores', stored', scores''⟩ := scores.set inside (base u + delta u + x)
  refine ⟨{ g := g', deltas := deltas', scores := scores' }, ?_, serves', _, ?_, deltas'', scores''.congr fun j _ => ?_⟩
  · rw [propagate, counted.queue.item item, ok_bind, read, ok_bind]
    dsimp only
    rw [share_spec answers within counted.pathCounts counted.succ deltas inside, ok_bind, stored, ok_bind,
      scores.get inside, ok_bind, stored', ok_bind]
  · have bits (v : Nat) (_ : v ∈ nexts adj u) :
        succAt adj source d v ↔ v ≠ source ∧ ∃ e, At (nexts adj) source e v := by rw [succAt_iff, all]
    refine worth.add here inside (fun v edge => nexts_lt answers within edge) deeper new bits ?_
    rw [nexts, List.sum_toFinset _ (distinct u)]
    refine congrArg List.sum (List.map_congr_left fun v _ => ?_)
    have counts {w : Nat} (reached : ∃ e, At (nexts adj) source e w) :
        countsAt adj source d w = (geodesics (nexts adj) source w).card := by
      rw [countsAt, if_pos ((all w).mpr reached)]
    by_cases marked : succAt adj source d v
    · rw [if_pos marked, if_pos marked, counts ⟨m, here⟩, counts ((all v).mp (succAt_iff.mp marked).2)]
    · rw [if_neg marked, if_neg marked]
  · by_cases same : j = u
    · subst same
      rw [Function.update_self, Function.update_self, worth.zero j new, add_zero]
    · rw [Function.update_of_ne same, Function.update_of_ne same]

theorem Propagating.congr {Q : Nat → Prop} (propagating : Propagating ws A pages adj n source base P p)
    (same : ∀ v, P v ↔ Q v) : Propagating ws A pages adj n source base Q p := by
  obtain ⟨delta, worth, rest⟩ := propagating.worth
  exact ⟨propagating.serves, delta, worth.congr same, rest⟩

theorem Propagating.level (answers : Answers ws A pages adj) (within : A.ids.length ≤ n) (short : n ≤ 2 ^ 31)
    (distinct : ∀ i, (targets (adj i)).Nodup) (counted : Counted ws A pages adj n source d L s)
    (none : L[d]? = some []) (loops : Loops) (t : Nat) {i : Nat} (inside : i < d)
    (propagating : Propagating ws A pages adj n source base (fun v => ∃ e, i + 1 ≤ e ∧ At (nexts adj) source e v) p) :
    ∃ p', (loops.order t (List.range' (offset L i) (offset L (i + 1) - offset L i))).foldlM
        (propagate s.pathCounts s.succ s.queue) p = .ok p' ∧
      Propagating ws A pages adj n source base (fun v => ∃ e, i ≤ e ∧ At (nexts adj) source e v) p' := by
  have less : i < L.length := by
    rw [counted.length]
    omega
  have at_i := List.getElem?_eq_getElem less
  have width := offset_succ less
  have item (k : Nat) (u : Nat) (here : L[i][k]? = some u) : L.flatten[offset L i + k]? = some u := by
    obtain ⟨small, rfl⟩ := List.getElem?_eq_some_iff.mp here
    exact getElem?_offset less small
  have perm := loops.order_perm t (List.range' (offset L i) (offset L (i + 1) - offset L i))
  have order_nodup : (loops.order t (List.range' (offset L i) (offset L (i + 1) - offset L i))).Nodup :=
    perm.nodup_iff.mpr List.nodup_range'
  rw [width, Nat.add_sub_cancel_left] at perm order_nodup ⊢
  let P (done : List Nat) (v : Nat) : Prop :=
    (∃ e, i + 1 ≤ e ∧ At (nexts adj) source e v) ∨ ∃ q ∈ done, L.flatten[q]? = some v
  have step (done : List Nat) (q : Nat) (p : Propagation W)
      (earlier : done ++ [q] <+: loops.order t (List.range' (offset L i) L[i].length))
      (propagating : Propagating ws A pages adj n source base (P done) p) :
      ∃ p', propagate s.pathCounts s.succ s.queue p q = .ok p' ∧
        Propagating ws A pages adj n source base (P (done ++ [q])) p' := by
    have member := perm.subset (earlier.subset (by simp : q ∈ done ++ [q]))
    obtain ⟨k, small, rfl⟩ := List.mem_range'.mp member
    rw [Nat.one_mul] at earlier ⊢
    obtain ⟨u, here⟩ : ∃ u, L[i][k]? = some u := ⟨L[i][k], List.getElem?_eq_getElem small⟩
    have level := (counted.levels.mem i _ at_i u).mp (List.mem_of_getElem? here)
    have new : ¬ P done u := by
      rintro (⟨e, more, there⟩ | ⟨q', before, there⟩)
      · have := level.unique there
        omega
      · have same := one_place counted.levels.distinct there (item k u here)
        subst same
        exact (List.nodup_append.mp (order_nodup.sublist earlier.sublist)).2.2 _ before _ (by simp) rfl
    obtain ⟨p', ran, propagating'⟩ := propagating.vertex answers within short distinct counted none (item k u here) level
      (fun v there => .inl ⟨i + 1, le_rfl, there⟩) new
    refine ⟨p', ran, propagating'.congr fun v => ?_⟩
    simp only [P, List.mem_append, List.mem_singleton, or_and_right, exists_or, exists_eq_left, item k u here,
      Option.some.injEq, or_assoc, eq_comm (a := u)]
  obtain ⟨p', looped, propagating'⟩ := foldlM_invariant _ (fun done p => Propagating ws A pages adj n source base (P done) p)
    step (propagating.congr fun v => by simp [P])
  refine ⟨p', looped, propagating'.congr fun v => ?_⟩
  constructor
  · rintro (⟨e, more, there⟩ | ⟨q, member, there⟩)
    · exact ⟨e, by omega, there⟩
    · obtain ⟨k, small, rfl⟩ := List.mem_range'.mp (perm.subset member)
      rw [Nat.one_mul] at there
      have here := item k L[i][k] (List.getElem?_eq_getElem small)
      rw [there] at here
      cases here
      exact ⟨i, le_rfl, (counted.levels.mem i _ at_i _).mp (List.getElem_mem small)⟩
  · rintro ⟨e, more, there⟩
    rcases Nat.lt_or_ge i e with above | here
    · exact .inl ⟨e, above, there⟩
    · obtain rfl : e = i := by omega
      obtain ⟨k, small, rfl⟩ := List.getElem_of_mem ((counted.levels.mem e _ at_i v).mpr there)
      refine .inr ⟨offset L e + k, perm.symm.subset (List.mem_range'.mpr ⟨k, small, by rw [Nat.one_mul]⟩), ?_⟩
      exact item k _ (List.getElem?_eq_getElem small)

theorem propagateLevels_spec (answers : Answers ws A pages adj) (within : A.ids.length ≤ n) (short : n ≤ 2 ^ 31)
    (distinct : ∀ i, (targets (adj i)).Nodup) (counted : Counted ws A pages adj n source d L s)
    (none : L[d]? = some []) (loops : Loops) (k t : Nat) (le : k ≤ d + 1)
    (propagating : Propagating ws A pages adj n source base (fun v => ∃ e, k ≤ e + 1 ∧ At (nexts adj) source e v) p) :
    ∃ t' p', propagateLevels loops s.pathCounts s.succ s.queue (0 :: (List.range (d + 1)).map (offset L)) k t p =
        .ok (t', p') ∧
      Propagating ws A pages adj n source base (fun v => ∃ e, At (nexts adj) source e v) p' := by
  induction k generalizing t p with
  | zero => exact ⟨t, p, rfl, propagating.congr fun v => by simp⟩
  | succ k ih =>
      have stop : (0 :: (List.range (d + 1)).map (offset L))[k + 1]? = some (offset L k) := by
        rw [List.getElem?_cons_succ, List.getElem?_map, List.getElem?_range (by omega), Option.map_some]
      rw [propagateLevels, stop]
      cases k with
      | zero =>
          have nothing : offset L 0 = 0 := by rw [offset, List.take_zero, List.flatten_nil, List.length_nil]
          have quiet : loops.order t (List.range' 0 (offset L 0 - 0)) = [] := by
            rw [nothing]
            exact List.Perm.eq_nil (loops.order_perm t _)
          simp only [List.getElem?_cons_zero, quiet, List.foldlM_nil]
          exact ih (t + 1) (by omega) (propagating.congr fun v => by simp)
      | succ i =>
          have start : (0 :: (List.range (d + 1)).map (offset L))[i + 1]? = some (offset L i) := by
            rw [List.getElem?_cons_succ, List.getElem?_map, List.getElem?_range (by omega), Option.map_some]
          obtain ⟨p', looped, propagating'⟩ := Propagating.level answers within short distinct counted none loops t
            (show i < d by omega) (propagating.congr fun v => by simp)
          rw [start]
          dsimp only
          rw [looped, ok_bind]
          exact ih (t + 1) (by omega) (propagating'.congr fun v => by simp)

end Radix.Analytics
