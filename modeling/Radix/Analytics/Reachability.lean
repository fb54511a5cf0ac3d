import Radix.Analytics.BfsRuns

/-!
# What the search reaches

A bottom-up step reads the edges out of the unvisited vertices, as if they led into them. That makes no
difference where the edges that it can meet go in both directions.
-/

namespace Radix.Analytics

open Lib RadixGraph

variable {W : Type} [Zero W]

/-- The parents of a search from a vertex: those of the reachable vertices are set, and edges lead from them. -/
structure ParentsFrom (Edge : Nat → Nat → Prop) (uidx vertexNum : Nat) (parent : PVector NodeID) : Prop where
  reached : ∀ i < vertexNum, ∃ p, parent.get i = .ok p ∧ (p ≠ NodeID.invalid ↔ Relation.ReflTransGen Edge uidx i)
  edges : ∀ i < vertexNum, i ≠ uidx → ∀ p, parent.get i = .ok p → p ≠ NodeID.invalid → Edge p i

def degreeOf (g : RadixGraph W) (k : Nat) : Nat :=
  match g.snapshotDegOf k with
  | .ok deg => deg
  | .error _ => 0

/-- `src_out_degree` once it is set. -/
def startDegree (g : RadixGraph W) (uidx : Nat) (srcOutDegree : Int) : Int :=
  if srcOutDegree = -1 then degreeOf g uidx else srcOutDegree

variable [DecidableEq W] {ws : List Nat} {A : Ledger W} {pages : Nat → Page W} {adj : Nat → List (WeightedEdge W)}

theorem pick_spec {F : Set Nat} {v p : Nat} (chosen : pick adj F v = some p) (answers : Answers ws A pages adj) :
    p ∈ F ∧ ListedEdge adj v p := by
  obtain ⟨-, front, edge⟩ := answers.firstIn_lt chosen
  exact ⟨by simpa using front, edge⟩

omit [DecidableEq W] in
theorem pick_ne_none {F : Set Nat} {v p : Nat} (front : p ∈ F) (edge : ListedEdge adj v p) : pick adj F v ≠ none := by
  obtain ⟨e, member, idx⟩ := edge
  rw [pick, firstIn, ne_eq, Option.map_eq_none_iff, List.find?_eq_none]
  intro none
  apply none e member
  simpa [idx] using front

theorem parentsFrom_iff {Edge : Nat → Nat → Prop} {n uidx : Nat} (closed : ∀ i j, Edge i j → j < n) (inside : uidx < n)
    {parent : PVector NodeID} {f : Nat → NodeID} (stores : parent.Stores n f) :
    ParentsFrom Edge uidx n parent ↔ Search.Correct Edge uidx (parentOf n f) := by
  constructor
  · intro right
    constructor
    · intro v
      rw [parentOf_ne_none]
      constructor
      · rintro ⟨below, visited⟩
        obtain ⟨p, read, reached⟩ := right.reached v below
        rw [stores.get below, Except.ok.injEq] at read
        exact reached.mp (read ▸ visited)
      · intro reach
        have below : v < n := by
          rcases reach.cases_tail with rfl | ⟨u, -, edge⟩
          · exact inside
          · exact closed u v edge
        obtain ⟨p, read, reached⟩ := right.reached v below
        rw [stores.get below, Except.ok.injEq] at read
        exact ⟨below, read ▸ reached.mpr reach⟩
    · intro v p parent other
      obtain ⟨below, visited, rfl⟩ := parentOf_eq_some.mp parent
      exact right.edges v below other (f v) (stores.get below) visited
  · intro correct
    constructor
    · intro i below
      refine ⟨f i, stores.get below, ?_⟩
      rw [← correct.reached i, parentOf_ne_none]
      exact ⟨fun visited => ⟨below, visited⟩, fun both => both.2⟩
    · intro i below other p read visited
      rw [stores.get below, Except.ok.injEq] at read
      subst read
      exact correct.edges i (f i) (parentOf_eq_some.mpr ⟨below, visited, rfl⟩) other

/-! ## The search as a whole -/

omit [DecidableEq W] in
theorem scoutCount_congr {Edge : Nat → Nat → Prop} {source vertexNum : Nat} {degree degree' : Nat → Nat}
    (same : ∀ v < vertexNum, degree v = degree' v) (srcOutDegree : Int) :
    scoutCount Edge source vertexNum degree srcOutDegree = scoutCount Edge source vertexNum degree' srcOutDegree := by
  classical
  funext d
  cases d with
  | zero => rfl
  | succ d =>
      rw [scoutCount, scoutCount]
      refine Finset.sum_congr rfl fun v member => ?_
      rw [same v (Finset.mem_range.mp (Finset.mem_filter.mp member).1)]

theorem degreeOf_eq {g : RadixGraph W} (serves : Serves ws A pages g) {k : Nat} (inside : k < A.ids.length) :
    degreeOf g k = (pages k).snap.length := by
  rw [degreeOf, serves.snapshotDegOf inside]

theorem outDegree_eq {g : RadixGraph W} (serves : Serves ws A pages g) {k : Nat} (inside : k < A.ids.length)
    (srcOutDegree : Int) : outDegree g k srcOutDegree = .ok (startDegree g k srcOutDegree) := by
  rw [outDegree, startDegree, serves.snapshotDegOf inside, ok_bind, degreeOf_eq serves inside]
  split
  · rfl
  · rfl

theorem searches (answers : Answers ws A pages adj) {g : RadixGraph W} (serves : Serves ws A pages g)
    (loops : Loops) {source : NodeID} {uidx : Nat} (place : SORT.position ws.sum A.ids source = some uidx)
    (inside : uidx < A.ids.length) (edgeNum srcOutDegree alpha : Int) {beta : Int} (positive : 1 ≤ beta) :
    ∃ s f trail, (∀ fuel, A.ids.length + 2 ≤ fuel →
        dobfs loops fuel g source A.ids.length edgeNum srcOutDegree alpha beta = .ok s) ∧
      s.parent.Stores A.ids.length f ∧ Search.Trail (ListedEdge adj) (pick adj) uidx trail (parentOf A.ids.length f) ∅ ∧
      ∀ d, Switches (ListedEdge adj) uidx edgeNum alpha (scoutCount (ListedEdge adj) uidx A.ids.length (degreeOf g)
        (startDegree g uidx srcOutDegree)) d ↔ Search.Turns trail d := by
  obtain ⟨g', looked, serves'⟩ := serves.lookup source
  rw [place] at looked
  obtain ⟨v, at_uidx, idx⟩ := serves'.vertex inside
  have read := outDegree_eq serves' inside srcOutDegree
  obtain ⟨parent, initialised, stores⟩ := initParent_spec loops 0 A.ids.length
  obtain ⟨parent', stored, stores'⟩ := stores.set inside uidx
  obtain ⟨queue, pushed, got⟩ := (SlidingQueue.Got.new A.ids.length).pushBack
      (by simpa using Nat.zero_lt_of_lt inside) uidx
  have valid := answers.ne_invalid inside
  have start : parentOf A.ids.length (Function.update (fun _ => NodeID.invalid) uidx uidx) =
      fun v => if v = uidx then some uidx else none := by
    funext v
    by_cases same : v = uidx
    · subst same
      simp [parentOf, inside, valid]
    · simp [parentOf, same]
  have pending : {j | j ∈ [uidx].drop 0} = {uidx} := by
    ext j
    simp
  have same (k : Nat) (below : k < A.ids.length) : degreeOf g k = (pages k).snap.length := degreeOf_eq serves below
  have first : startDegree g' uidx srcOutDegree = startDegree g uidx srcOutDegree := by
    rw [startDegree, startDegree, degreeOf_eq serves inside, degreeOf_eq serves' inside]
  let begun : Search W := {
    g := g', parent := parent', queue := queue.slideWindow
    curr := (Bitmap.new A.ids.length).reset, front := (Bitmap.new A.ids.length).reset
    edgesToCheck := edgeNum, scoutCount := startDegree g uidx srcOutDegree, loopCount := 1 }
  have running : Running ws A pages adj uidx (Function.update (fun _ => NodeID.invalid) uidx uidx) (fun _ => false)
      [uidx] 0 [] {j | j ∈ [uidx].drop 0} begun := by
    refine ⟨serves', stores', got.slideWindow, List.nodup_singleton uidx, fun j member => ?_,
      Bitmap.reset_marks (Bitmap.new_length _), fun j _ bit => ?_, ?_, ?_⟩
    · rw [List.mem_singleton.mp member, Function.update_self]
      exact ⟨inside, valid⟩
    · cases bit
    · simp [begun, Bitmap.reset, PVector.filled, Bitmap.new_length]
    · rw [start, pending]
      exact .start
  have steered : Steered (ListedEdge adj) uidx edgeNum alpha (scoutCount (ListedEdge adj) uidx A.ids.length
      (degreeOf g) (startDegree g uidx srcOutDegree)) [] begun := by
    refine .descending (fun sweep member => ?_) rfl (by simp [begun]) fun e less => ?_
    · cases member
    · cases less
  have few : unvisited A.ids.length (Function.update (fun _ => NodeID.invalid) uidx uidx) < A.ids.length + 1 := by
    apply Nat.lt_succ_of_le
    exact (Finset.card_filter_le _ _).trans (Finset.card_range _).le
  obtain ⟨s, f, F, _, _, trail, ran, final, steered'⟩ := running.explore answers loops positive
    (scoutCount_congr same _) _ (fun j _ bit => by cases bit) steered (Nat.zero_le _) few
  refine ⟨s, f, trail, fun fuel enough => ?_, final.parent, final.trail, fun d => steered'.switches_iff final.trail⟩
  obtain ⟨more, rfl⟩ := Nat.exists_eq_add_of_le' enough
  rw [dobfs, looked, ok_bind]
  dsimp only
  rw [at_uidx, ok_bind, idx, index_natCast, ok_bind, read, ok_bind, initialised, ok_bind, stored, ok_bind, pushed,
    ok_bind, first]
  exact ran more _ (by omega)

/-- The search of a run's graph ends. It finds just what is reachable, along edges, if at the distance where its
bottom-up steps begin the edges go in both directions; and it is right only if what an unvisited vertex lists
first of that distance has an edge to it. -/
theorem dobfs_exchangeable (P : Platform W) (global : GlobalInfo) {index : SORT W}
    (constructed : SORT.Constructed index ws) {L : Nat} (positive : 0 < L) {acts : List (Action W)}
    (builds : ∀ action ∈ acts, action.Builds) (small : ∀ action ∈ acts, ∀ id ∈ action.ids, id < 2 ^ ws.sum)
    (few : (vertexOrder acts).length < 2 ^ 31) (loops : Loops) {source : NodeID} {uidx : Nat}
    (existing : (vertexOrder acts)[uidx]? = some source) (edgeNum srcOutDegree : Int) {alpha beta : Int}
    (thresholds : 1 ≤ alpha ∧ 1 ≤ beta) :
    let order := vertexOrder acts
    let Edge := InternalEdge order (insertedEdges acts)
    ∃ g s, actions P (construct global index L positive) acts = .ok g ∧
      (∀ fuel, order.length + 2 ≤ fuel →
        dobfs loops fuel g source order.length edgeNum srcOutDegree alpha beta = .ok s) ∧
      let scout := scoutCount Edge uidx order.length (degreeOf g) (startDegree g uidx srcOutDegree)
      ((∀ d, Switches Edge uidx edgeNum alpha scout d → Search.Exchangeable Edge uidx d) →
        ParentsFrom Edge uidx order.length s.parent) ∧
      (ParentsFrom Edge uidx order.length s.parent → ∀ d, Switches Edge uidx edgeNum alpha scout d →
        ∀ v, v ∉ Search.nearer Edge uidx (d + 1) → ∀ p, pick g.adjacency (Search.level Edge uidx d) v = some p →
          Edge p v) := by
  intro order Edge
  obtain ⟨g, A, ran, built⟩ := builds_built P global constructed positive builds small
  obtain ⟨pages, serves, answers, -, edges⟩ := answers_of_built built (few.le.trans (by decide))
  have same : ListedEdge g.adjacency = Edge := by
    funext i j
    exact propext (edges i j)
  obtain ⟨place, inside⟩ := built.position existing
  have length : order.length = A.ids.length := congrArg List.length built.ids.symm
  obtain ⟨s, f, trail, searched, stores, complete, turns⟩ := searches answers serves loops place inside edgeNum
    srcOutDegree alpha thresholds.2
  have right := parentsFrom_iff (fun i j (edge : ListedEdge g.adjacency i j) => answers.edge_lt edge) inside stores
  have picked (F : Set Nat) (v p : Nat) (chosen : pick g.adjacency F v = some p) :
      p ∈ F ∧ ListedEdge g.adjacency v p := pick_spec chosen answers
  rw [same] at complete turns right picked
  rw [length]
  refine ⟨g, s, ran, searched, fun exchangeable => right.mpr ?_, fun correct d switches v far p chosen => ?_⟩
  · exact Search.correct_of_exchangeable complete picked (fun F v p front edge => pick_ne_none front (same ▸ edge))
      fun d turned => exchangeable d ((turns d).mpr turned)
  · exact (right.mp correct).picks_back complete (fun F v p chosen => (picked F v p chosen).1) ((turns d).mp switches)
      far chosen

/-- A one-way edge from the source and both directions beyond it: the search makes a top-down step, which meets
the one-way edge, and then turns. -/
theorem dobfs_exchangeable_turn : ∃ (g : RadixGraph Nat) (s : Search Nat),
    let Edge := InternalEdge [0, 1, 2] [(0, 1, 1), (1, 2, 1), (2, 1, 1)]
    actions Platform.exact (construct ⟨0, true⟩ (.ofVector [2]) 1 (by decide))
        [.op (.insertEdge 0 1 1), .op (.insertEdge 1 2 1), .op (.insertEdge 2 1 1),
          .op (.createSnapshots false false)] = .ok g ∧
      dobfs .forward 5 g 0 3 15 (-1) 15 18 = .ok s ∧
      Switches Edge 0 15 15 (scoutCount Edge 0 3 (degreeOf g) (startDegree g 0 (-1))) 1 ∧
      ParentsFrom Edge 0 3 s.parent ∧ s.parent.get 2 = .ok 1 := by
  let acts : List (Action Nat) := [.op (.insertEdge 0 1 1), .op (.insertEdge 1 2 1), .op (.insertEdge 2 1 1),
    .op (.createSnapshots false false)]
  have order : vertexOrder acts = [0, 1, 2] := by decide
  have inserted : insertedEdges acts = [(0, 1, 1), (1, 2, 1), (2, 1, 1)] := by decide
  have read : (do
      let g ← actions Platform.exact (construct ⟨0, true⟩ (.ofVector [2]) 1 (by decide)) acts
      let s ← dobfs .forward 5 g 0 3 15 (-1) 15 18
      .ok (degreeOf g 0, degreeOf g 1, s.parent.get 2) : Result _) = .ok (1, 1, .ok 1) := by decide +kernel
  obtain ⟨g, s, ran, searched, right, -⟩ := dobfs_exchangeable Platform.exact ⟨0, true⟩
    (show SORT.Constructed (SORT.ofVector [2] : SORT Nat) [2] from .vector (by decide)) (show 0 < 1 by decide)
    (show ∀ action ∈ acts, action.Builds by simp [acts, Action.Builds])
    (show ∀ action ∈ acts, ∀ id ∈ action.ids, id < 2 ^ [2].sum by decide) (by rw [order]; decide) .forward
    (show (vertexOrder acts)[0]? = some 0 by decide) 15 (-1) (show (1 : Int) ≤ 15 ∧ (1 : Int) ≤ 18 by decide)
  rw [order, inserted] at right
  rw [order] at searched
  have found : dobfs .forward 5 g 0 3 15 (-1) 15 18 = .ok s := searched 5 (by decide)
  rw [ran, ok_bind, found, ok_bind, Except.ok.injEq, Prod.mk.injEq, Prod.mk.injEq] at read
  obtain ⟨first, second, parent⟩ := read
  have edge (i j : Nat) : InternalEdge [0, 1, 2] [(0, 1, 1), (1, 2, 1), (2, 1, 1)] i j ↔
      i = 0 ∧ j = 1 ∨ i = 1 ∧ j = 2 ∨ i = 2 ∧ j = 1 := by
    have positions : ∀ n < 3, [0, 1, 2][n]? = some n := by decide
    have place {k n : Nat} (less : n < 3) (here : [0, 1, 2][k]? = some n) : k = n :=
      one_place (show [0, 1, 2].Nodup by decide) here (positions n less)
    constructor
    · rintro ⟨u, v, w, here, there, member⟩
      simp only [List.mem_cons, Prod.mk.injEq, List.not_mem_nil, or_false] at member
      rcases member with ⟨rfl, rfl, -⟩ | ⟨rfl, rfl, -⟩ | ⟨rfl, rfl, -⟩
      · exact .inl ⟨place (by decide) here, place (by decide) there⟩
      · exact .inr (.inl ⟨place (by decide) here, place (by decide) there⟩)
      · exact .inr (.inr ⟨place (by decide) here, place (by decide) there⟩)
    · rintro (⟨rfl, rfl⟩ | ⟨rfl, rfl⟩ | ⟨rfl, rfl⟩)
      · exact ⟨0, 1, 1, rfl, rfl, by decide⟩
      · exact ⟨1, 2, 1, rfl, rfl, by decide⟩
      · exact ⟨2, 1, 1, rfl, rfl, by decide⟩
  have level : Search.level (InternalEdge [0, 1, 2] [(0, 1, 1), (1, 2, 1), (2, 1, 1)]) 0 1 = {1} := by
    ext v
    simp [Search.level, Search.nearer, edge]
    omega
  have start : startDegree g 0 (-1) = 1 := by rw [startDegree, if_pos rfl, first]; rfl
  have light : ¬ ((15 : Int) - 0).tdiv 15 < 1 := by decide
  refine ⟨g, s, ran, found, ⟨by rw [level]; exact Set.singleton_nonempty 1, fun e less => ?_, ?_⟩,
    right fun d switches => ?_, parent⟩
  · obtain rfl := Nat.lt_one_iff.mp less
    rw [scoutCount, start]
    exact Int.not_lt.mp light
  · rw [Finset.sum_range_one, scoutCount, scoutCount, start]
    simp [level, second]
  · have beyond : 1 ≤ d := by
      rcases Nat.eq_zero_or_pos d with rfl | positive
      · have up := switches.up
        rw [scoutCount, start] at up
        exact absurd up light
      · exact positive
    have source : 0 ∈ Search.nearer (InternalEdge [0, 1, 2] [(0, 1, 1), (1, 2, 1), (2, 1, 1)]) 0 d :=
      Search.nearer_mono beyond (.inl rfl)
    intro u v _ far farther
    have away : u ≠ 0 := by
      rintro rfl
      exact far source
    have away' : v ≠ 0 := by
      rintro rfl
      exact farther (Search.nearer_mono (Nat.le_succ d) source)
    rw [edge, edge]
    omega

/-- After a snapshot the search of one edge from 0 begins with a bottom-up step, which does not find 1. -/
theorem dobfs_misses_edge : ∃ (g : RadixGraph Nat) (s : Search Nat),
    actions Platform.exact (construct ⟨0, true⟩ (.ofVector [1]) 1 (by decide))
        [.op (.insertEdge 0 1 1), .op (.createSnapshots false false)] = .ok g ∧
      dobfs .forward 4 g 0 2 1 (-1) 15 18 = .ok s ∧ s.parent.get 1 = .ok NodeID.invalid ∧
      ¬ ParentsFrom (InternalEdge [0, 1] [(0, 1, 1)]) 0 2 s.parent := by
  have missed : (do
      let g ← actions Platform.exact (construct ⟨0, true⟩ (.ofVector [1]) 1 (by decide))
        [.op (.insertEdge 0 1 (1 : Nat)), .op (.createSnapshots false false)]
      let s ← dobfs .forward 4 g 0 2 1 (-1) 15 18
      .ok (s.parent.get 1) : Result _) = .ok (.ok NodeID.invalid) := by decide +kernel
  obtain ⟨g, ran, rest⟩ := bind_eq_ok.mp missed
  obtain ⟨s, found, read⟩ := bind_eq_ok.mp rest
  have invalid := Except.ok.inj read
  refine ⟨g, s, ran, found, invalid, fun right => ?_⟩
  obtain ⟨p, read, reached⟩ := right.reached 1 (by decide)
  rw [invalid, Except.ok.injEq] at read
  exact reached.mpr (.single ⟨0, 1, 1, rfl, rfl, by decide⟩) read.symm

end Radix.Analytics
