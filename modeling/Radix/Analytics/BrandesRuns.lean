import Radix.Analytics.Centrality
import Radix.Analytics.PathRuns

/-!
# All iterations of `Brandes`

What the scores are after them, and what the normalisation makes of these.
-/

namespace Radix.Analytics

open Lib RadixGraph Geodesics

variable {W : Type} [Zero W] [DecidableEq W] {ws : List Nat} {A : Ledger W} {pages : Nat → Page W}
  {adj : Nat → List (WeightedEdge W)} {n : Nat}

/-! ## One iteration -/

theorem Worth.nothing {next : Nat → Finset Nat} {source : Nat} {P : Nat → Prop} (none : ∀ v, ¬ P v) :
    Worth next n source P fun _ => 0 :=
  ⟨fun _ _ => rfl, fun v known => absurd known (none v), fun v known => absurd known (none v),
    fun _ v known => absurd known (none v)⟩

def Reached (adj : Nat → List (WeightedEdge W)) (source v : Nat) : Prop := ∃ e, At (nexts adj) source e v

structure Brandes.Holds (ws : List Nat) (A : Ledger W) (pages : Nat → Page W) (adj : Nat → List (WeightedEdge W))
    (n k : Nat) (raw : Nat → Nat → ℚ) (b : Brandes W) : Prop where
  serves : Serves ws A pages b.g
  scores : b.scores.Stores n fun v => ∑ i ∈ Finset.range k, raw i v
  worth : ∀ i < k, Worth (nexts adj) n (i % n) (Reached adj (i % n)) (raw i)
  pathCounts : b.pathCounts.cells.length = n
  succ : b.succ.cells.length = (n + 63) / 64
  queue : b.queue.shared.cells.length = n

theorem Brandes.Holds.iterate (answers : Answers ws A pages adj) (within : A.ids.length ≤ n) (short : n ≤ 2 ^ 31)
    (distinct : ∀ i, (targets (adj i)).Nodup) (loops : Loops) (some : 0 < n) {fuel : Nat} (enough : n < fuel) {k : Nat}
    {raw : Nat → Nat → ℚ} {b : Brandes W} (holds : Brandes.Holds ws A pages adj n k raw b) :
    ∃ raw' b', Brandes.iterate loops fuel n b k = .ok b' ∧ Brandes.Holds ws A pages adj n (k + 1) raw' b' := by
  have zero : (b.pathCounts.fill (0 : ℚ)).Stores n fun _ => 0 := by
    rw [PVector.fill, holds.pathCounts]
    exact PVector.filled_stores n 0
  obtain ⟨t, d, L, s, searched, counted, none⟩ := pbfs_spec answers within short distinct loops
    (Nat.mod_lt k some) enough b.loopCount holds.serves zero (Bitmap.reset_marks holds.succ)
    (SlidingQueue.Loaded.reset holds.queue)
  have last (v : Nat) : ¬ ∃ e, d + 1 ≤ e + 1 ∧ At (nexts adj) (k % n) e v := by
    rintro ⟨e, more, here⟩
    obtain ⟨e', le, there⟩ := (counted.complete none v).mpr ⟨e, here⟩
    obtain rfl := here.unique there
    obtain rfl : e = d := by omega
    have member := (counted.levels.mem e [] none v).mpr here
    cases member
  have start : Propagating ws A pages adj n (k % n) (fun v => ∑ i ∈ Finset.range k, raw i v)
      (fun v => ∃ e, d + 1 ≤ e + 1 ∧ At (nexts adj) (k % n) e v)
      { g := s.g, deltas := .filled n 0, scores := b.scores } :=
    ⟨counted.serves, _, Worth.nothing last, PVector.filled_stores n 0, holds.scores.congr fun v _ => (add_zero _).symm⟩
  obtain ⟨t', p, propagated, propagating⟩ := propagateLevels_spec answers within short distinct counted none loops
    (d + 1) t le_rfl start
  obtain ⟨delta, worth, -, scores⟩ := propagating.worth
  have width : (0 :: (List.range (d + 1)).map (offset L)).length - 1 = d + 1 := by
    rw [List.length_cons, List.length_map, List.length_range, Nat.add_sub_cancel]
  let b' : Brandes W :=
    { g := p.g, scores := p.scores, pathCounts := s.pathCounts, succ := s.succ, queue := s.queue, loopCount := t' }
  refine ⟨Function.update raw k delta, b', ?_, propagating.serves, scores.congr fun v _ => ?_, fun i less => ?_,
    counted.pathCounts.length, counted.succ.length, counted.queue.length⟩
  · rw [Brandes.iterate]
    dsimp only
    rw [searched, ok_bind]
    dsimp only
    rw [width, propagated, ok_bind]
  · rw [Finset.sum_range_succ, Function.update_self]
    congr 1
    refine Finset.sum_congr rfl fun i member => ?_
    rw [Function.update_of_ne (Finset.mem_range.mp member).ne]
  · rcases Nat.lt_succ_iff_lt_or_eq.mp less with before | rfl
    · rw [Function.update_of_ne before.ne]
      exact holds.worth i before
    · rw [Function.update_self]
      exact worth

theorem iterations_spec (answers : Answers ws A pages adj) (within : A.ids.length ≤ n) (short : n ≤ 2 ^ 31)
    (distinct : ∀ i, (targets (adj i)).Nodup) (loops : Loops) (some : 0 < n) {fuel : Nat} (enough : n < fuel)
    {g : RadixGraph W} (serves : Serves ws A pages g) (numIters : Nat) :
    ∃ raw b, Brandes.iterations loops fuel g numIters n = .ok b ∧ Brandes.Holds ws A pages adj n numIters raw b := by
  have step (k : Nat) (_ : k < numIters) (b : Brandes W) (holds : ∃ raw, Brandes.Holds ws A pages adj n k raw b) :
      ∃ b', Brandes.iterate loops fuel n b k = .ok b' ∧ ∃ raw, Brandes.Holds ws A pages adj n (k + 1) raw b' := by
    obtain ⟨raw, holds⟩ := holds
    obtain ⟨raw', b', ran, holds'⟩ := holds.iterate answers within short distinct loops some enough
    exact ⟨b', ran, raw', holds'⟩
  have start : Brandes.Holds ws A pages adj n 0 (fun _ _ => 0)
      { g, scores := .filled n 0, pathCounts := .new n, succ := .new n, queue := .new n, loopCount := 0 } :=
    ⟨serves, (PVector.filled_stores n 0).congr fun v _ => by simp, fun i less => absurd less (Nat.not_lt_zero i),
      by simp [PVector.new], by simp [Bitmap.new, PVector.new], by simp [SlidingQueue.new, PVector.new]⟩
  obtain ⟨b, looped, raw, holds⟩ := foldlM_range numIters
    (fun k b => ∃ raw, Brandes.Holds ws A pages adj n k raw b) step ⟨_, start⟩
  exact ⟨raw, b, looped, holds⟩

/-! ## The normalisation -/

theorem biggest_spec {scores : PVector ℚ} {total : Nat → ℚ} (stores : scores.Stores n total) (some : 0 < n)
    (nonneg : ∀ v, 0 ≤ total v) {order : List Nat} (perm : order.Perm (List.range n)) :
    ∃ biggest, order.foldlM (fun biggest v => do
        let score ← scores.get v
        .ok (max biggest score)) 0 = (.ok biggest : Result ℚ) ∧
      IsGreatest (Set.image total (Set.Iio n)) biggest := by
  have step (done : List Nat) (v : Nat) (biggest : ℚ) (earlier : done ++ [v] <+: order)
      (bound : (∀ u ∈ done, total u ≤ biggest) ∧ (biggest = 0 ∨ ∃ u ∈ done, total u = biggest)) :
      ∃ biggest', (do
        let score ← scores.get v
        .ok (max biggest score)) = (.ok biggest' : Result ℚ) ∧
      (∀ u ∈ done ++ [v], total u ≤ biggest') ∧ (biggest' = 0 ∨ ∃ u ∈ done ++ [v], total u = biggest') := by
    have inside : v < n := List.mem_range.mp (perm.subset (earlier.subset (by simp)))
    obtain ⟨above, attained⟩ := bound
    refine ⟨max biggest (total v), by rw [stores.get inside, ok_bind], fun u member => ?_, ?_⟩
    · rcases List.mem_append.mp member with before | now
      · exact (above u before).trans (le_max_left _ _)
      · obtain rfl := List.mem_singleton.mp now
        exact le_max_right _ _
    · rcases le_total biggest (total v) with less | more
      · exact .inr ⟨v, by simp, (max_eq_right less).symm⟩
      · rw [max_eq_left more]
        apply attained.imp_right
        rintro ⟨u, member, same⟩
        exact ⟨u, List.mem_append_left _ member, same⟩
  obtain ⟨biggest, looped, above, attained⟩ := foldlM_invariant order
    (fun done (biggest : ℚ) => (∀ u ∈ done, total u ≤ biggest) ∧ (biggest = 0 ∨ ∃ u ∈ done, total u = biggest)) step
    (s := (0 : ℚ)) ⟨by simp, .inl rfl⟩
  have all (u : Nat) (inside : u < n) : u ∈ order := perm.symm.subset (List.mem_range.mpr inside)
  refine ⟨biggest, looped, ?_, ?_⟩
  · rcases attained with rfl | ⟨u, member, same⟩
    · exact ⟨0, some, le_antisymm (above 0 (all 0 some)) (nonneg 0)⟩
    · exact ⟨u, List.mem_range.mp (perm.subset member), same⟩
  · rintro x ⟨u, inside, rfl⟩
    exact above u (all u inside)

theorem normalize_spec (loops : Loops) (t : Nat) {scores : PVector ℚ} {total : Nat → ℚ} (stores : scores.Stores n total)
    (some : 0 < n) (nonneg : ∀ v, 0 ≤ total v) :
    ∃ out biggest, normalize loops t n scores = .ok out ∧ IsGreatest (Set.image total (Set.Iio n)) biggest ∧
      out.Stores n fun v => quotient (total v) biggest := by
  obtain ⟨biggest, looped, greatest⟩ := biggest_spec stores some nonneg (loops.order_perm t (List.range n))
  have perm := loops.order_perm (t + 1) (List.range n)
  obtain ⟨out, divided, stores'⟩ := PVector.init_loop (fun v => quotient (total v) biggest) perm
  refine ⟨out, biggest, ?_, greatest, stores'⟩
  have same (done : List Nat) (inside : ∀ v ∈ done, v < n) (normalized : PVector (Option ℚ)) :
      done.foldlM (fun (normalized : PVector (Option ℚ)) v => do
        let score ← scores.get v
        normalized.set v (quotient score biggest)) normalized =
      done.foldlM (fun normalized v => normalized.set v (quotient (total v) biggest)) normalized := by
    induction done generalizing normalized with
    | nil => rfl
    | cons v done ih =>
        rw [List.foldlM_cons, List.foldlM_cons, stores.get (inside v List.mem_cons_self), ok_bind]
        congr 1
        funext normalized'
        exact ih (fun u member => inside u (List.mem_cons_of_mem v member)) normalized'
  rw [normalize, looped, ok_bind, ← divided]
  exact same _ (fun v member => List.mem_range.mp (perm.subset member)) _

/-! ## The scores -/

noncomputable def centrality (next : Nat → Finset Nat) (numIters numNodes u : Nat) : ℚ :=
  ∑ i ∈ Finset.range numIters, dependency next (Finset.range numNodes) (i % numNodes) u

theorem brandes_spec (answers : Answers ws A pages adj) (within : A.ids.length ≤ n) (short : n ≤ 2 ^ 31)
    (distinct : ∀ i, (targets (adj i)).Nodup) (loops : Loops) (some : 0 < n) {fuel : Nat} (enough : n < fuel)
    {g : RadixGraph W} (serves : Serves ws A pages g) (numIters : Nat) :
    ∃ b raw out biggest, Brandes.iterations loops fuel g numIters n = .ok b ∧ b.scores.Stores n raw ∧
      normalize loops b.loopCount n b.scores = .ok out ∧ brandes loops fuel g numIters n = .ok out ∧
      out.Stores n (fun u => quotient (raw u) biggest) ∧ IsGreatest (Set.image raw (Set.Iio n)) biggest ∧
      (∀ u < n, centrality (nexts adj) numIters n u ≤ raw u) ∧
      ((∀ u < n, raw u = centrality (nexts adj) numIters n u) ↔
        ∀ i < numIters, ∀ u, ¬ Strays (nexts adj) (i % n) u) := by
  obtain ⟨raw, b, looped, holds⟩ := iterations_spec answers within short distinct loops some enough serves numIters
  have le (i : Nat) (less : i < numIters) (u : Nat) :
      dependency (nexts adj) (Finset.range n) (i % n) u ≤ raw i u := by
    by_cases reached : Reached adj (i % n) u
    · exact (holds.worth i less).le u reached
    · rw [dependency_unreached fun d here => reached ⟨d, here⟩]
      exact (holds.worth i less).nonneg u
  have nonneg (u : Nat) : 0 ≤ ∑ i ∈ Finset.range numIters, raw i u :=
    Finset.sum_nonneg fun i member => (holds.worth i (Finset.mem_range.mp member)).nonneg u
  obtain ⟨out, biggest, normalized, greatest, stores⟩ := normalize_spec loops b.loopCount holds.scores some nonneg
  refine ⟨b, _, out, biggest, looped, holds.scores, normalized, by rw [brandes, looped, ok_bind, normalized], stores,
    greatest, fun u _ => Finset.sum_le_sum fun i member => le i (Finset.mem_range.mp member) u, ?_, ?_⟩
  · intro exact' i less u strays
    obtain ⟨v, edge, other, d, e, here, there, shallow⟩ := id strays
    have inside : u < n := by
      cases d with
      | zero =>
          obtain rfl := at_zero.mp here
          exact Nat.mod_lt i some
      | succ d =>
          obtain ⟨⟨u', -, last⟩, -⟩ := at_succ.mp here
          exact nexts_lt answers within last
    have more : centrality (nexts adj) numIters n u < ∑ i ∈ Finset.range numIters, raw i u :=
      Finset.sum_lt_sum (fun i member => le i (Finset.mem_range.mp member) u)
        ⟨i, Finset.mem_range.mpr less, (holds.worth i less).lt u ⟨d, here⟩ strays⟩
    exact more.ne' (exact' u inside)
  · intro straight u _
    refine Finset.sum_congr rfl fun i member => ?_
    have less := Finset.mem_range.mp member
    by_cases reached : Reached adj (i % n) u
    · exact (holds.worth i less).eq (straight i less) u reached
    · rw [dependency_unreached fun d here => reached ⟨d, here⟩]
      exact (holds.worth i less).zero u reached

end Radix.Analytics

namespace Radix

open Lib

variable {W : Type} [Zero W] [DecidableEq W]

namespace Analytics

open RadixGraph Geodesics

/-- After a run of well-formed operations `Brandes` returns, in any order of its parallel loops. The scores that its
iterations store are what the vertices are worth over all of them, or more than that, and are exact if and only if no
edge from a vertex reached leads to another than the source that is not one level deeper. The result is each of them
over the greatest. -/
theorem brandes_exact_iff (P : Platform W) (loops : Loops) (global : GlobalInfo) {index : SORT W} {ws : List Nat}
    (constructed : SORT.Constructed index ws) {L : Nat} (positive : 0 < L) {ops : List (Op W)}
    (inRange : ∀ op ∈ ops, ∀ id ∈ op.ids, id < 2 ^ ws.sum)
    (wellformed : Admissible Digraph.next (Digraph.Wellformed .tidy) {} ops)
    (few : (ops.flatMap Op.ids).toFinset.card ≤ NodeID.invalid) {numNodes : Nat} (some : 0 < numNodes)
    (short : numNodes ≤ 2 ^ 31) {fuel : Nat} (enough : numNodes < fuel) (numIters : Nat) :
    ∃ g, run P (construct global index L positive) ops = .ok g ∧ (g.getNumVertices ≤ numNodes →
      ∃ b raw out biggest, Brandes.iterations loops fuel g numIters numNodes = .ok b ∧ b.scores.Stores numNodes raw ∧
        normalize loops b.loopCount numNodes b.scores = .ok out ∧ brandes loops fuel g numIters numNodes = .ok out ∧
        out.Stores numNodes (fun u => quotient (raw u) biggest) ∧
        IsGreatest (Set.image raw (Set.Iio numNodes)) biggest ∧
        (∀ u < numNodes, centrality (g.arcs (Digraph.after ops)) numIters numNodes u ≤ raw u) ∧
        ((∀ u < numNodes, raw u = centrality (g.arcs (Digraph.after ops)) numIters numNodes u) ↔
          ∀ i < numIters, ∀ u, ¬ Strays (g.arcs (Digraph.after ops)) (i % numNodes) u)) := by
  obtain ⟨g, A, pages, ran, settled, denotes, small, serves, answers⟩ :=
    answers_after P global constructed positive inRange wellformed few
  refine ⟨g, ran, fun within => ?_⟩
  have counted : g.getNumVertices = A.ids.length := settled.index.cnt
  rw [counted] at within
  rw [← nexts_eq settled answers denotes small]
  exact brandes_spec answers within short (fun i => targets_nodup answers (adjacency_nodup settled trivial i)) loops some
    enough serves numIters

def lineUpdates : List (Op Nat) := [.insertEdge 0 1 1, .insertEdge 1 2 1, .deleteEdge 0 1, .insertEdge 0 1 3]

/-- Two iterations on the path from 0 over 1 to 2, where the scores are exact. -/
theorem brandes_exact_iff_line : ∃ g : RadixGraph Nat,
    run Platform.exact (construct ⟨0, false⟩ (.ofVector [2]) 1 (by decide)) lineUpdates = .ok g ∧
    ∃ b raw out biggest, Brandes.iterations .forward 5 g 2 4 = .ok b ∧ b.scores.Stores 4 raw ∧
      normalize .forward b.loopCount 4 b.scores = .ok out ∧ brandes .forward 5 g 2 4 = .ok out ∧
      out.Stores 4 (fun u => quotient (raw u) biggest) ∧ IsGreatest (Set.image raw (Set.Iio 4)) biggest ∧
      (∀ i < 2, ∀ u, ¬ Strays (g.arcs (Digraph.after lineUpdates)) (i % 4) u) ∧
      ∀ u < 4, raw u = centrality (g.arcs (Digraph.after lineUpdates)) 2 4 u := by
  have constructed : SORT.Constructed (SORT.ofVector [2] : SORT Nat) [2] := .vector (by decide)
  obtain ⟨g, ran, rest⟩ := brandes_exact_iff Platform.exact .forward ⟨0, false⟩ constructed (show 0 < 1 by decide)
    (show ∀ op ∈ lineUpdates, ∀ id ∈ op.ids, id < 2 ^ [2].sum by decide)
    (by simp [lineUpdates, Admissible, Digraph.Wellformed, Digraph.next, Digraph.set, Ledger.said]) (by decide)
    (show 0 < 4 by decide) (show 4 ≤ 2 ^ 31 by decide) (show 4 < 5 by decide) 2
  have shown : (run Platform.exact (construct ⟨0, false⟩ (.ofVector [2]) 1 (by decide)) lineUpdates).map
      (fun g : RadixGraph Nat => (g.getNumVertices, g.getExternalID 0, g.getExternalID 1, g.getExternalID 2)) =
        .ok (3, .ok 0, .ok 1, .ok 2) := by rfl
  rw [ran] at shown
  obtain ⟨three, first, second, third⟩ := by simpa only [Prod.mk.injEq] using Except.ok.inj shown
  have few : g.getNumVertices ≤ 4 := by omega
  obtain ⟨b, raw, out, biggest, looped, scores, normalized, ran', stores, greatest, -, exact_iff⟩ := rest few
  have straight (i : Nat) (_ : i < 2) (u : Nat) : ¬ Strays (g.arcs (Digraph.after lineUpdates)) (i % 4) u := by
    apply graded_straight id
    intro u v edge
    rw [RadixGraph.mem_arcs, three] at edge
    obtain ⟨lessV, lessU, a, b, here, there, present⟩ := edge
    have named (i : Nat) (less : i < 3) : g.getExternalID i = .ok i := by
      obtain rfl | rfl | rfl : i = 0 ∨ i = 1 ∨ i = 2 := by omega
      · exact first
      · exact second
      · exact third
    rw [named u lessU] at here
    rw [named v lessV] at there
    cases here
    cases there
    simp only [lineUpdates, Digraph.after, List.foldl_cons, List.foldl_nil, Digraph.next, Digraph.set, Ledger.said]
      at present
    grind
  exact ⟨g, ran, b, raw, out, biggest, looped, scores, normalized, ran', stores, greatest, straight,
    exact_iff.mpr straight⟩

end Analytics

end Radix
