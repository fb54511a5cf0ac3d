import Radix.Analytics.PathCounts

/-!
# `PBFS` on the graph that a run leaves
-/

namespace Radix.Analytics

open Lib RadixGraph Geodesics

variable {W : Type} [Zero W] [DecidableEq W]

theorem nexts_eq {ws : List Nat} {g : RadixGraph W} {A : Ledger W} {pages : Nat → Page W}
    (settled : Settled .tidy ws g A) (answers : Answers ws A pages g.adjacency) {G : Digraph W}
    (denotes : A.Denotes ws.sum G) (small : ∀ a ∈ A.ids, a < 2 ^ ws.sum) : nexts g.adjacency = g.arcs G := by
  have counted : g.getNumVertices = A.ids.length := settled.index.cnt
  have listed (i j : Nat) : j ∈ nexts g.adjacency i ↔ ListedEdge g.adjacency i j := by
    rw [nexts, List.mem_toFinset]
    constructor
    · intro member
      obtain ⟨e, inside, rfl⟩ := List.mem_map.mp member
      obtain ⟨k, -, idx⟩ := answers.closed i e inside
      exact ⟨e, inside, by rw [idx, Int.toNat_natCast]⟩
    · rintro ⟨e, inside, idx⟩
      exact List.mem_map.mpr ⟨e, inside, by rw [idx, Int.toNat_natCast]⟩
  funext i
  ext j
  rw [listed, mem_arcs, counted]
  constructor
  · intro edge
    obtain ⟨e, member, idx⟩ := id edge
    have inside : i < A.ids.length := by
      by_contra beyond
      rw [adjacency_outside settled (Nat.not_lt.mp beyond)] at member
      cases member
    obtain ⟨k, below, same⟩ := answers.closed i e member
    obtain rfl : k = j := by omega
    obtain ⟨u, source⟩ : ∃ u, A.ids[i]? = some u := ⟨_, List.getElem?_eq_getElem inside⟩
    obtain ⟨v, target⟩ : ∃ v, A.ids[k]? = some v := ⟨_, List.getElem?_eq_getElem below⟩
    exact ⟨below, inside, u, v, getExternalID_spec settled source, getExternalID_spec settled target,
      (listedEdge_iff settled trivial denotes small source target).mp edge⟩
  · rintro ⟨below, inside, u, v, external, external', present⟩
    obtain ⟨u', source⟩ : ∃ u, A.ids[i]? = some u := ⟨_, List.getElem?_eq_getElem inside⟩
    obtain ⟨v', target⟩ : ∃ v, A.ids[j]? = some v := ⟨_, List.getElem?_eq_getElem below⟩
    obtain rfl : u' = u := by simpa [getExternalID_spec settled source] using external
    obtain rfl : v' = v := by simpa [getExternalID_spec settled target] using external'
    exact (listedEdge_iff settled trivial denotes small source target).mpr present

theorem targets_nodup {ws : List Nat} {A : Ledger W} {pages : Nat → Page W} {adj : Nat → List (WeightedEdge W)}
    (answers : Answers ws A pages adj) {i : Nat} (distinct : ((adj i).map WeightedEdge.idx).Nodup) :
    (targets (adj i)).Nodup := by
  have same : (adj i).map WeightedEdge.idx = (targets (adj i)).map fun j : Nat => (j : Int) := by
    rw [targets, List.map_map]
    refine List.map_congr_left fun e member => ?_
    obtain ⟨k, -, idx⟩ := answers.closed i e member
    rw [Function.comp_apply, idx, Int.toNat_natCast]
  rw [same] at distinct
  exact distinct.of_map _

theorem Counted.levels_positions {ws : List Nat} {A : Ledger W} {pages : Nat → Page W}
    {adj : Nat → List (WeightedEdge W)} {n source d : Nat} {L : List (List Nat)} {s : PathCounting W}
    (counted : Counted ws A pages adj n source d L s) (none : L[d]? = some []) (i u : Nat) :
    At (nexts adj) source i u ↔ ∃ start stop q, (0 :: (List.range (d + 1)).map (offset L))[i + 1]? = some start ∧
      (0 :: (List.range (d + 1)).map (offset L))[i + 2]? = some stop ∧ start ≤ q ∧ q < stop ∧
      s.queue.shared.get q = .ok u := by
  have position (k : Nat) (le : k ≤ d) : (0 :: (List.range (d + 1)).map (offset L))[k + 1]? = some (offset L k) := by
    rw [List.getElem?_cons_succ, List.getElem?_map, List.getElem?_range (by omega), Option.map_some]
  constructor
  · intro here
    obtain ⟨e, le, there⟩ := (counted.complete none u).mpr ⟨i, here⟩
    obtain rfl := here.unique there
    have before : i ≠ d := by
      rintro rfl
      have member := (counted.levels.mem i [] none u).mpr here
      cases member
    have less : i < L.length := by
      rw [counted.length]
      omega
    obtain ⟨k, small, rfl⟩ := List.getElem_of_mem
      ((counted.levels.mem i _ (List.getElem?_eq_getElem less) u).mpr here)
    refine ⟨_, _, offset L i + k, position i le, position (i + 1) (by omega), Nat.le_add_right _ _, ?_,
      counted.queue.item (getElem?_offset less small)⟩
    rw [offset_succ less]
    omega
  · rintro ⟨start, stop, q, first, last, le, less, item⟩
    have before : i + 1 ≤ d := by
      have := (List.getElem?_eq_some_iff.mp last).1
      rw [List.length_cons, List.length_map, List.length_range] at this
      omega
    rw [position i (by omega), Option.some.injEq] at first
    rw [position (i + 1) before, Option.some.injEq] at last
    have inside : i < L.length := by
      rw [counted.length]
      omega
    subst first last
    obtain ⟨k, rfl⟩ := Nat.exists_eq_add_of_le le
    have small : k < L[i].length := by
      rw [offset_succ inside] at less
      omega
    rw [counted.queue.item (getElem?_offset inside small)] at item
    cases item
    exact (counted.levels.mem i _ (List.getElem?_eq_getElem inside) _).mp (List.getElem_mem small)

/-- After a run of well-formed operations `PBFS` gives every vertex its distance from the source and the number
of shortest paths to it, marks those reached besides the source, and leaves them in the queue level by level,
in any order of its parallel loops. -/
theorem pbfs_shortest (P : Platform W) (loops : Loops) (global : GlobalInfo) {index : SORT W} {ws : List Nat}
    (constructed : SORT.Constructed index ws) {L : Nat} (positive : 0 < L) {ops : List (Op W)}
    (inRange : ∀ op ∈ ops, ∀ id ∈ op.ids, id < 2 ^ ws.sum)
    (wellformed : Admissible Digraph.next (Digraph.Wellformed .tidy) {} ops)
    (few : (ops.flatMap Op.ids).toFinset.card ≤ NodeID.invalid) {source numNodes : Nat} (inside : source < numNodes)
    (short : numNodes ≤ 2 ^ 31) {fuel : Nat} (enough : numNodes < fuel) :
    ∃ g, run P (construct global index L positive) ops = .ok g ∧ (g.getNumVertices ≤ numNodes →
      ∃ t depthIndex s, pbfs loops fuel 0 g source (.filled numNodes 0) (Bitmap.new numNodes).reset (.new numNodes)
          numNodes = .ok (t, depthIndex, s) ∧
        (∀ v < numNodes, ∀ d, At (g.arcs (Digraph.after ops)) source d v → s.depths.get v = .ok d ∧
          s.pathCounts.get v = .ok (count (g.arcs (Digraph.after ops)) d source v : ℚ) ∧
          s.succ.getBit v = .ok (v ≠ source)) ∧
        (∀ v < numNodes, (∀ d, ¬ At (g.arcs (Digraph.after ops)) source d v) →
          s.depths.get v = .ok NodeID.invalid ∧ s.pathCounts.get v = .ok 0 ∧ s.succ.getBit v = .ok false) ∧
        ∀ i u, At (g.arcs (Digraph.after ops)) source i u ↔ ∃ start stop q, depthIndex[i + 1]? = some start ∧
          depthIndex[i + 2]? = some stop ∧ start ≤ q ∧ q < stop ∧ s.queue.shared.get q = .ok u) := by
  obtain ⟨g, A, pages, ran, settled, denotes, small, serves, answers⟩ :=
    answers_after P global constructed positive inRange wellformed few
  refine ⟨g, ran, fun within => ?_⟩
  have counted : g.getNumVertices = A.ids.length := settled.index.cnt
  rw [counted] at within
  rw [← nexts_eq settled answers denotes small]
  have fresh : (SlidingQueue.new numNodes).Loaded numNodes [] 0 0 :=
    SlidingQueue.Loaded.reset (q := .new numNodes) (by simp [SlidingQueue.new, PVector.new])
  obtain ⟨t, d, L', s, searched, counted, none⟩ := pbfs_spec answers within short
    (fun i => targets_nodup answers (adjacency_nodup settled trivial i)) loops inside enough 0 serves
    (PVector.filled_stores numNodes 0)
    (Bitmap.reset_marks (by simp [Bitmap.new, PVector.new] : (Bitmap.new numNodes).cells.length = (numNodes + 63) / 64))
    fresh
  have reached (v : Nat) := counted.complete none v
  refine ⟨t, _, s, searched, fun v below e here => ?_, fun v below unreached => ?_, counted.levels_positions none⟩
  · have known := (reached v).mpr ⟨e, here⟩
    refine ⟨?_, ?_, ?_⟩
    · rw [counted.depths.get below, depthsAt, if_pos known, here.depth]
    · rw [counted.pathCounts.get below, countsAt, if_pos known, here.card_geodesics]
    · rw [counted.succ.get below]
      simp [succAt, known]
  · have unknown : ¬ ReachedBy g.adjacency source d v := by
      rintro ⟨e, -, here⟩
      exact unreached e here
    refine ⟨?_, ?_, ?_⟩
    · rw [counted.depths.get below, depthsAt, if_neg unknown]
    · rw [counted.pathCounts.get below, countsAt, if_neg unknown]
    · rw [counted.succ.get below]
      simp [succAt, unknown]

theorem pbfs_shortest_example : ∃ g : RadixGraph Nat,
    run Platform.exact (construct ⟨0, false⟩ (.ofVector [2]) 1 (by decide))
      [.insertEdge 0 1 1, .insertEdge 1 2 1, .deleteEdge 0 1, .insertEdge 0 1 3] = .ok g ∧
    ∃ t depthIndex s, pbfs .forward 5 0 g 0 (.filled 4 0) (Bitmap.new 4).reset (.new 4) 4 = .ok (t, depthIndex, s) ∧
      ∀ i u, At (g.arcs (Digraph.after [Op.insertEdge 0 1 1, .insertEdge 1 2 1, .deleteEdge 0 1,
        .insertEdge 0 1 3])) 0 i u ↔ ∃ start stop q, depthIndex[i + 1]? = some start ∧
        depthIndex[i + 2]? = some stop ∧ start ≤ q ∧ q < stop ∧ s.queue.shared.get q = .ok u := by
  have constructed : SORT.Constructed (SORT.ofVector [2] : SORT Nat) [2] := .vector (by decide)
  obtain ⟨g, ran, rest⟩ := pbfs_shortest Platform.exact .forward ⟨0, false⟩ constructed (show 0 < 1 by decide)
    (show ∀ op ∈ ([.insertEdge 0 1 1, .insertEdge 1 2 1, .deleteEdge 0 1, .insertEdge 0 1 3] : List (Op Nat)),
      ∀ id ∈ op.ids, id < 2 ^ [2].sum by decide)
    (by simp [Admissible, Digraph.Wellformed, Digraph.next, Digraph.set, Ledger.said]) (by decide)
    (show 0 < 4 by decide) (show 4 ≤ 2 ^ 31 by decide) (show 4 < 5 by decide)
  have three : (run Platform.exact (construct ⟨0, false⟩ (.ofVector [2]) 1 (by decide))
      [.insertEdge 0 1 1, .insertEdge 1 2 1, .deleteEdge 0 1, .insertEdge 0 1 3]).map
      (fun g : RadixGraph Nat => g.getNumVertices) = .ok 3 := by rfl
  rw [ran] at three
  have counted : g.getNumVertices = 3 := Except.ok.inj three
  obtain ⟨t, depthIndex, s, searched, -, -, levels⟩ := rest (by omega)
  exact ⟨g, ran, t, depthIndex, s, searched, levels⟩

end Radix.Analytics
