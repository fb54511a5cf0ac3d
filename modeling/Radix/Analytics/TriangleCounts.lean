import Radix.Analytics.Triangles
import Radix.Graph.Sortedness
import Radix.Lib.Merging
import Radix.Lib.Triangles

/-!
# What `OrderedCount` counts

In an undirected graph every triangle once, if the flag `is_sorted` tells the truth, and never more than that.
-/

namespace Radix.Analytics

open Lib RadixGraph

variable {W : Type} [Zero W]

def keys (edges : List (WeightedEdge W)) : List NodeID := edges.map fun e => asNodeID e.idx

/-! ## The pointer -/

theorem advance_spec (vs : List (WeightedEdge W)) (w : NodeID) (rounds i : Nat) (enough : vs.length - i ≤ rounds) :
    keys (vs.drop (advance vs w rounds i)) = (keys (vs.drop i)).dropWhile (· < w) := by
  induction rounds generalizing i with
  | zero => rw [advance, List.drop_of_length_le (by omega), keys, List.map_nil, List.dropWhile_nil]
  | succ rounds ih =>
      rw [advance]
      cases here : vs[i]? with
      | none =>
          rw [List.drop_of_length_le (List.getElem?_eq_none_iff.mp here)]
          rfl
      | some e =>
          obtain ⟨inside, same⟩ := List.getElem?_eq_some_iff.mp here
          have next : keys (vs.drop i) = asNodeID e.idx :: keys (vs.drop (i + 1)) := by
            rw [List.drop_eq_getElem_cons inside, same]
            rfl
          rw [next, List.dropWhile_cons]
          simp only [decide_eq_true_eq]
          split
          · exact ih (i + 1) (by omega)
          · exact next

theorem getElem?_keys (vs : List (WeightedEdge W)) (i : Nat) :
    (keys (vs.drop i)).head? = vs[i]?.map fun e => asNodeID e.idx := by
  rw [keys, List.head?_map, List.head?_drop]

theorem countCommon_spec (v : NodeID) (vs us : List (WeightedEdge W)) (i total : Nat) (small : total < 2 ^ 64) :
    countCommon v vs us i total = (total + common ((keys us).takeWhile (· ≤ v)) (keys (vs.drop i))) % 2 ^ 64 := by
  induction us generalizing i total with
  | nil => exact (Nat.mod_eq_of_lt small).symm
  | cons f us ih =>
      rw [countCommon, keys, List.map_cons, List.takeWhile_cons]
      by_cases above : v < asNodeID f.idx
      · rw [if_pos above, if_neg (by simpa using above), common, Nat.add_zero, Nat.mod_eq_of_lt small]
      · rw [if_neg above, if_pos (by simpa using above), common]
        dsimp only
        have moved := advance_spec vs (asNodeID f.idx) (vs.length - i) i le_rfl
        rw [← moved, getElem?_keys, ← keys]
        generalize advance vs (asNodeID f.idx) (vs.length - i) i = j
        cases vs[j]? with
        | none =>
            simp only [Bool.false_eq_true, if_false, Option.map_none, reduceCtorEq, Nat.add_zero]
            exact ih j total small
        | some e =>
            simp only [decide_eq_true_eq, Option.map_some, Option.some.injEq, eq_comm (a := asNodeID e.idx)]
            split
            · rw [ih j _ (Nat.mod_lt _ (by decide)), Nat.mod_add_mod]
              congr 1
              omega
            · exact ih j total small

/-! ## The loops -/

variable [DecidableEq W] {ws : List Nat} {A : Ledger W} {pages : Nat → Page W} {adj : Nat → List (WeightedEdge W)}

def fetched (P : Platform W) (isSorted : Bool) (adj : Nat → List (WeightedEdge W)) (u : Nat) : List (WeightedEdge W) :=
  if isSorted then adj u else P.sort (adj u)

theorem fetchSorted_spec (answers : Answers ws A pages adj) (P : Platform W) (isSorted : Bool) {g : RadixGraph W}
    (serves : Serves ws A pages g) {u : Nat} (small : u < 2 ^ 31) :
    ∃ g', fetchSorted P isSorted g u = .ok (fetched P isSorted adj u, g') ∧ Serves ws A pages g' := by
  obtain ⟨found, g', read, serves'⟩ := answers.read serves small
  exact ⟨g', by rw [fetchSorted, read, ok_bind]; rfl, serves'⟩

theorem countEdges_spec (answers : Answers ws A pages adj) (P : Platform W) (isSorted : Bool) {u : Nat}
    (small : u < 2 ^ 31) (neighbours rest : List (WeightedEdge W)) {s : OrderedCount W}
    (serves : Serves ws A pages s.g) (total : s.total < 2 ^ 64) :
    ∃ s', countEdges P isSorted u neighbours rest s = .ok s' ∧ Serves ws A pages s'.g ∧
      s'.total = (s.total + (((keys rest).takeWhile (· ≤ u)).map fun v =>
        common ((keys neighbours).takeWhile (· ≤ v)) (keys (fetched P isSorted adj v))).sum) % 2 ^ 64 := by
  induction rest generalizing s with
  | nil => exact ⟨s, rfl, serves, (Nat.mod_eq_of_lt total).symm⟩
  | cons e rest ih =>
      have first : keys (e :: rest) = asNodeID e.idx :: keys rest := rfl
      rw [countEdges, first, List.takeWhile_cons]
      by_cases above : u < asNodeID e.idx
      · refine ⟨s, if_pos above, serves, ?_⟩
        rw [if_neg (by simpa using above), List.map_nil, List.sum_nil, Nat.add_zero, Nat.mod_eq_of_lt total]
      · obtain ⟨g, read, serves'⟩ := fetchSorted_spec answers P isSorted serves (u := asNodeID e.idx) (by omega)
        let s₁ : OrderedCount W :=
          { g, total := countCommon (asNodeID e.idx) (fetched P isSorted adj (asNodeID e.idx)) neighbours 0 s.total }
        have counted : s₁.total = (s.total + common ((keys neighbours).takeWhile (· ≤ asNodeID e.idx))
            (keys (fetched P isSorted adj (asNodeID e.idx)))) % 2 ^ 64 :=
          countCommon_spec (asNodeID e.idx) _ neighbours 0 s.total total
        obtain ⟨s', looped, serves'', final⟩ :=
          ih (s := s₁) serves' (counted ▸ Nat.mod_lt _ (by decide))
        refine ⟨s', ?_, serves'', ?_⟩
        · simp only [if_neg above, read, ok_bind]
          exact looped
        · rw [final, counted, Nat.mod_add_mod, if_pos (by simpa using above), List.map_cons, List.sum_cons,
            Nat.add_assoc]

theorem orderedCount_spec (answers : Answers ws A pages adj) (P : Platform W) (loops : Loops) {g : RadixGraph W}
    (serves : Serves ws A pages g) {numVertices : Nat} (few : numVertices ≤ 2 ^ 31) :
    ∃ s, orderedCount P loops g numVertices = .ok s ∧ s.total =
      ((List.range numVertices).map (mergeCount fun u => keys (fetched P g.isSorted adj u))).sum % 2 ^ 64 := by
  have perm := loops.order_perm 0 (List.range numVertices)
  have step (done : List Nat) (u : Nat) (s : OrderedCount W)
      (earlier : done ++ [u] <+: loops.order 0 (List.range numVertices))
      (held : Serves ws A pages s.g ∧
        s.total = (done.map (mergeCount fun u => keys (fetched P g.isSorted adj u))).sum % 2 ^ 64) :
      ∃ s', countVertex P g.isSorted s u = .ok s' ∧ Serves ws A pages s'.g ∧
        s'.total = ((done ++ [u]).map (mergeCount fun u => keys (fetched P g.isSorted adj u))).sum % 2 ^ 64 := by
    have inside : u ∈ List.range numVertices := perm.subset (earlier.subset (by simp))
    have small : u < 2 ^ 31 := (List.mem_range.mp inside).trans_le few
    obtain ⟨g₁, read, serves₁⟩ := fetchSorted_spec answers P g.isSorted held.1 small
    obtain ⟨s', looped, serves', final⟩ := countEdges_spec answers P g.isSorted small
      (fetched P g.isSorted adj u) (fetched P g.isSorted adj u) (s := { s with g := g₁ }) serves₁
      (held.2 ▸ Nat.mod_lt _ (by decide))
    refine ⟨s', by rw [countVertex, read, ok_bind]; exact looped, serves', ?_⟩
    rw [final, held.2, Nat.mod_add_mod, List.map_append, List.sum_append, List.map_singleton, List.sum_singleton]
    rfl
  obtain ⟨s, looped, -, total⟩ := foldlM_invariant (loops.order 0 (List.range numVertices)) _ step
    (s := { g, total := 0 }) ⟨serves, rfl⟩
  exact ⟨s, looped, by rw [total, (perm.map _).sum_eq]⟩

/-! ## Triangles -/

omit [DecidableEq W] in
theorem keys_perm (P : Platform W) (isSorted : Bool) (adj : Nat → List (WeightedEdge W)) (u : Nat) :
    (keys (fetched P isSorted adj u)).Perm (keys (adj u)) := by
  refine List.Perm.map _ ?_
  rw [fetched]
  split
  · exact .refl _
  · exact P.sort_perm _

theorem key_eq (answers : Answers ws A pages adj) {i : Nat} {e : WeightedEdge W} (member : e ∈ adj i) :
    e.idx = (asNodeID e.idx : Int) := by
  obtain ⟨j, inside, idx⟩ := answers.closed i e member
  have small := inside.trans_le answers.few
  rw [idx, asNodeID_natCast (small.trans (by decide))]

theorem mem_keys (answers : Answers ws A pages adj) {i j : Nat} : j ∈ keys (adj i) ↔ ListedEdge adj i j := by
  constructor
  · intro member
    obtain ⟨e, inside, rfl⟩ := List.mem_map.mp member
    exact ⟨e, inside, key_eq answers inside⟩
  · rintro ⟨e, inside, idx⟩
    refine List.mem_map.mpr ⟨e, inside, ?_⟩
    have key := key_eq answers inside
    rw [idx] at key ⊢
    exact (Int.natCast_inj.mp key).symm

theorem keys_nodup (answers : Answers ws A pages adj) {i : Nat} (distinct : ((adj i).map WeightedEdge.idx).Nodup) :
    (keys (adj i)).Nodup := by
  have same : (adj i).map WeightedEdge.idx = (keys (adj i)).map fun j : Nat => (j : Int) := by
    rw [keys, List.map_map]
    exact List.map_congr_left fun e member => key_eq answers member
  rw [same] at distinct
  exact distinct.of_map _

theorem keys_sorted (answers : Answers ws A pages adj) (P : Platform W) (isSorted : Bool) (u : Nat)
    (truthful : isSorted = true → (adj u).Pairwise fun a b => a.idx ≤ b.idx) :
    (keys (fetched P isSorted adj u)).Pairwise (· ≤ ·) := by
  have sorted : (fetched P isSorted adj u).Pairwise fun a b => a.idx ≤ b.idx := by
    rw [fetched]
    split
    · rename_i flag
      exact truthful flag
    · exact P.sort_sorted _
  have known : ∀ e ∈ fetched P isSorted adj u, e.idx = (asNodeID e.idx : Int) := by
    intro e member
    rw [fetched] at member
    split at member
    · exact key_eq answers member
    · exact key_eq answers ((P.sort_perm _).subset member)
  rw [keys, List.pairwise_map]
  refine sorted.imp_of_mem fun {a b} left right below => ?_
  rw [known a left, known b right] at below
  exact Int.ofNat_le.mp below

end Radix.Analytics

namespace Radix

def Digraph.undirected {W : Type} (G : Digraph W) : SimpleGraph NodeID :=
  SimpleGraph.fromRel fun u v => G.weight u v ≠ none

def RadixGraph.firstIds {W : Type} [Zero W] (g : RadixGraph W) (n : Nat) : Set NodeID :=
  {u | ∃ k : Nat, k < n ∧ k < g.getNumVertices ∧ g.getExternalID k = .ok u}

namespace Analytics

open Lib RadixGraph

variable {W : Type} [Zero W] [DecidableEq W]

theorem sum_range_min {f : Nat → Nat} {l : Nat} (zero : ∀ u, l ≤ u → f u = 0) (n : Nat) :
    ((List.range n).map f).sum = ((List.range (min n l)).map f).sum := by
  induction n with
  | zero => rw [Nat.zero_min]
  | succ n ih =>
      rw [List.range_succ, List.map_append, List.sum_append, ih, List.map_singleton, List.sum_singleton]
      by_cases inside : n < l
      · rw [min_eq_left inside.le, min_eq_left (Nat.succ_le_of_lt inside), List.range_succ, List.map_append,
          List.sum_append, List.map_singleton, List.sum_singleton]
      · rw [min_eq_right (by omega), min_eq_right (by omega), zero n (Nat.not_lt.mp inside), Nat.add_zero]

/-- The pairs that close triangles at the vertices below `n` are the triangles among the first `n` ids. -/
theorem sum_closing_keys {ws : List Nat} {g : RadixGraph W} {A : Ledger W} {pages : Nat → Page W}
    (settled : Settled .tidy ws g A) (answers : Answers ws A pages g.adjacency) {G : Digraph W}
    (denotes : A.Denotes ws.sum G) (small : ∀ a ∈ A.ids, a < 2 ^ ws.sum)
    (symmetric : ∀ u v, G.weight u v ≠ none → G.weight v u ≠ none) (loopless : ∀ u, G.weight u u = none) (n : Nat) :
    ((List.range n).map fun u => (closing (fun u => keys (g.adjacency u)) u).length).sum =
      {t ∈ G.undirected.cliqueSet 3 | ∀ u ∈ t, u ∈ g.firstIds n}.ncard := by
  let m := min n A.ids.length
  let place (i : Nat) : NodeID := A.ids.getD i 0
  have distinct : A.ids.Nodup := settled.index.distinct.of_map _
  have placed {i : Nat} (inside : i < m) : A.ids[i]? = some (place i) := by
    have inside : i < A.ids.length := inside.trans_le (min_le_right _ _)
    simp [place, inside]
  have adjacent (u v : NodeID) : G.undirected.Adj u v ↔ G.weight u v ≠ none := by
    rw [Digraph.undirected, SimpleGraph.fromRel_adj]
    constructor
    · rintro ⟨-, edge | edge⟩
      · exact edge
      · exact symmetric v u edge
    · intro edge
      refine ⟨?_, .inl edge⟩
      rintro rfl
      exact edge (loopless u)
  have edges (u : Nat) (hu : u < m) (v : Nat) (hv : v < m) :
      v ∈ keys (g.adjacency u) ↔ G.undirected.Adj (place u) (place v) := by
    rw [mem_keys answers, adjacent, listedEdge_iff settled trivial denotes small (placed hu) (placed hv)]
  have injective : (Set.Iio m).InjOn place := by
    intro i hi j hj same
    have here := placed hi
    rw [same] at here
    exact one_place distinct here (placed hj)
  have images : trianglesOn G.undirected place (Set.Iio m) =
      {t | t ∈ G.undirected.cliqueSet 3 ∧ ∀ u ∈ t, u ∈ g.firstIds n} := by
    have same : Set.image place (Set.Iio m) = g.firstIds n := by
      ext u
      constructor
      · rintro ⟨k, inside, rfl⟩
        have below : k < m := inside
        have counted := settled.index.cnt
        exact ⟨k, by omega, by rw [getNumVertices]; omega, getExternalID_spec settled (placed inside)⟩
      · rintro ⟨k, below, known, external⟩
        have counted := settled.index.cnt
        have inside : k < m := by
          rw [getNumVertices] at known
          omega
        rw [getExternalID_spec settled (placed inside)] at external
        exact ⟨k, inside, Except.ok.inj external⟩
    rw [trianglesOn, same]
  have beyond (u : Nat) (outside : A.ids.length ≤ u) : (closing (fun u => keys (g.adjacency u)) u).length = 0 := by
    rw [length_closing, adjacency_outside settled outside]
    rfl
  rw [sum_range_min beyond, sum_closing (fun u => keys_nodup answers (adjacency_nodup settled trivial u)) edges, ncard_corners injective,
    images]

/-- After a run of well-formed operations that leaves a symmetric graph without loops, `OrderedCount` returns
the number of triangles among the first `numVertices` vertices if `is_sorted` tells the truth, and otherwise at
most that, modulo the range of `size_t`. -/
theorem orderedCount_triangles (P : Platform W) (loops : Loops) (global : GlobalInfo) {index : SORT W} {ws : List Nat}
    (constructed : SORT.Constructed index ws) {L : Nat} (positive : 0 < L) {ops : List (Op W)}
    (inRange : ∀ op ∈ ops, ∀ id ∈ op.ids, id < 2 ^ ws.sum)
    (wellformed : Admissible Digraph.next (Digraph.Wellformed .tidy) {} ops)
    (few : (ops.flatMap Op.ids).toFinset.card ≤ NodeID.invalid)
    (symmetric : ∀ u v, (Digraph.after ops).weight u v ≠ none → (Digraph.after ops).weight v u ≠ none)
    (loopless : ∀ u, (Digraph.after ops).weight u u = none) {numVertices : Nat} (short : numVertices ≤ 2 ^ 31) :
    ∃ g, run P (construct global index L positive) ops = .ok g ∧
      ∃ s count, orderedCount P loops g numVertices = .ok s ∧ s.total = count % 2 ^ 64 ∧
        count ≤ {t ∈ (Digraph.after ops).undirected.cliqueSet 3 | ∀ u ∈ t, u ∈ g.firstIds numVertices}.ncard ∧
        (g.FlagTrue →
          count = {t ∈ (Digraph.after ops).undirected.cliqueSet 3 | ∀ u ∈ t, u ∈ g.firstIds numVertices}.ncard) := by
  obtain ⟨g, A, pages, ran, settled', denotes, small, serves, answers⟩ :=
    answers_after P global constructed positive inRange wellformed few
  obtain ⟨s, counted, total⟩ := orderedCount_spec answers P loops serves short
  have triangles := sum_closing_keys settled' answers denotes small symmetric loopless numVertices
  have perm (u : Nat) := keys_perm P g.isSorted g.adjacency u
  have same (u : Nat) := closing_perm perm u
  refine ⟨g, ran, s, _, counted, total, ?_, fun truthful => ?_⟩
  · rw [← triangles]
    exact List.sum_le_sum fun u _ => (mergeCount_le u).trans (same u).le
  · have sorted (u : Nat) : (keys (fetched P g.isSorted g.adjacency u)).Pairwise (· ≤ ·) := by
      apply keys_sorted answers
      intro flag
      by_cases inside : u < A.ids.length
      · obtain ⟨g', read, -⟩ := answers.byOffset serves inside
        exact truthful.byOffset flag u true _ (by rw [readOffset, read, ok_bind])
      · rw [adjacency_outside settled' (Nat.not_lt.mp inside)]
        exact List.Pairwise.nil
    rw [← triangles]
    exact congrArg List.sum (List.map_congr_left fun u _ => (mergeCount_eq sorted u).trans (same u))

def triangle : List (Op Nat) :=
  [.insertEdge 0 1 1, .insertEdge 1 0 1, .insertEdge 1 2 1, .insertEdge 2 1 1, .insertEdge 0 2 1, .insertEdge 2 0 1,
    .createSnapshots true true]

theorem orderedCount_triangles_example : ∃ g : RadixGraph Nat,
    run Platform.exact (construct ⟨0, false⟩ (.ofVector [2]) 1 (by decide)) triangle = .ok g ∧
    ∃ s count, orderedCount Platform.exact .forward g 3 = .ok s ∧ s.total = count % 2 ^ 64 ∧
      count ≤ {t ∈ (Digraph.after triangle).undirected.cliqueSet 3 | ∀ u ∈ t, u ∈ g.firstIds 3}.ncard ∧
      (g.FlagTrue →
        count = {t ∈ (Digraph.after triangle).undirected.cliqueSet 3 | ∀ u ∈ t, u ∈ g.firstIds 3}.ncard) := by
  have constructed : SORT.Constructed (SORT.ofVector [2] : SORT Nat) [2] := .vector (by decide)
  have inRange : ∀ op ∈ triangle, ∀ id ∈ op.ids, id < 2 ^ [2].sum := by decide
  obtain ⟨g, ran, s, count, counted, total, most, exactly⟩ := orderedCount_triangles Platform.exact .forward ⟨0, false⟩
    constructed (show 0 < 1 by decide) inRange
    (by simp [triangle, Admissible, Digraph.Wellformed, Digraph.next, Digraph.set, Ledger.said]) (by decide)
    (fun u v present => by
      simp only [triangle, Digraph.after, List.foldl_cons, List.foldl_nil, Digraph.next, Digraph.set,
        Ledger.said] at present ⊢
      split_ifs at present with a b c d e f <;> simp_all)
    (fun u => by
      simp only [triangle, Digraph.after, List.foldl_cons, List.foldl_nil, Digraph.next, Digraph.set, Ledger.said]
      grind) (show 3 ≤ 2 ^ 31 by decide)
  exact ⟨g, ran, s, count, counted, total, most, exactly⟩

end Analytics

end Radix
