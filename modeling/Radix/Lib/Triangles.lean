import Mathlib.Algebra.Order.BigOperators.Group.List
import Mathlib.Combinatorics.SimpleGraph.Clique
import Mathlib.Data.Set.Card
import Mathlib.Tactic.Order
import Radix.Lib.Merging

/-!
# Triangles

A triangle has one list of its corners in descending order of their numbers. They are counted by merging lists
of neighbours.
-/

namespace Radix.Lib

section Order

variable {ι : Type*} [LinearOrder ι]

theorem descending_unique {i j k i' j' k' : ι} (kj : k < j) (ji : j < i) (kj' : k' < j') (ji' : j' < i')
    (same : ({i, j, k} : Finset ι) = {i', j', k'}) : i = i' ∧ j = j' ∧ k = k' := by
  have left (x : ι) (member : x = i ∨ x = j ∨ x = k) : x = i' ∨ x = j' ∨ x = k' := by
    have inside : x ∈ ({i', j', k'} : Finset ι) := same ▸ by simpa using member
    simpa using inside
  have right (x : ι) (member : x = i' ∨ x = j' ∨ x = k') : x = i ∨ x = j ∨ x = k := by
    have inside : x ∈ ({i, j, k} : Finset ι) := same ▸ by simpa using member
    simpa using inside
  have first : i = i' := by
    rcases left i (.inl rfl) with h | h | h <;> rcases right i' (.inl rfl) with h' | h' | h' <;> order
  have second : j = j' := by
    rcases left j (.inr (.inl rfl)) with h | h | h <;> rcases right j' (.inr (.inl rfl)) with h' | h' | h' <;> order
  have third : k = k' := by
    rcases left k (.inr (.inr rfl)) with h | h | h <;> rcases right k' (.inr (.inr rfl)) with h' | h' | h' <;> order
  exact ⟨first, second, third⟩

theorem exists_descending {P : ι → ι → ι → Prop} (swap : ∀ {a b c}, P a b c → P b a c)
    (swap' : ∀ {a b c}, P a b c → P a c b) {i j k : ι} (ij : i ≠ j) (ik : i ≠ k) (jk : j ≠ k) (here : P i j k) :
    ∃ a b c, c < b ∧ b < a ∧ P a b c := by
  rcases lt_or_gt_of_ne ij with up | down
  · rcases lt_or_gt_of_ne jk with up' | down'
    · exact ⟨k, j, i, up, up', swap (swap' (swap here))⟩
    · rcases lt_or_gt_of_ne ik with up'' | down''
      · exact ⟨j, k, i, up'', down', swap' (swap here)⟩
      · exact ⟨j, i, k, down'', up, swap here⟩
  · rcases lt_or_gt_of_ne ik with up' | down'
    · exact ⟨k, i, j, down, up', swap (swap' here)⟩
    · rcases lt_or_gt_of_ne jk with up'' | down''
      · exact ⟨i, k, j, up'', down', swap' here⟩
      · exact ⟨i, j, k, down'', down, here⟩

end Order

variable {ι V : Type*} [LinearOrder ι] [DecidableEq V] (G : SimpleGraph V) (place : ι → V) (S : Set ι)

def corners : Set (ι × ι × ι) :=
  {t | (t.1 ∈ S ∧ t.2.1 ∈ S ∧ t.2.2 ∈ S) ∧ (t.2.2 < t.2.1 ∧ t.2.1 < t.1) ∧
    G.Adj (place t.1) (place t.2.1) ∧ G.Adj (place t.1) (place t.2.2) ∧ G.Adj (place t.2.1) (place t.2.2)}

def trianglesOn : Set (Finset V) := {s | s ∈ G.cliqueSet 3 ∧ ∀ x ∈ s, x ∈ Set.image place S}

variable {G place S}

theorem ncard_corners (injective : S.InjOn place) : (corners G place S).ncard = (trianglesOn G place S).ncard := by
  refine Set.ncard_congr (fun t _ => {place t.1, place t.2.1, place t.2.2}) ?_ ?_ ?_
  · rintro ⟨i, j, k⟩ ⟨⟨hi, hj, hk⟩, -, ij, ik, jk⟩
    refine ⟨SimpleGraph.mem_cliqueSet_iff.mpr (SimpleGraph.is3Clique_triple_iff.mpr ⟨ij, ik, jk⟩), ?_⟩
    intro x member
    rcases (by simpa using member : x = place i ∨ x = place j ∨ x = place k) with rfl | rfl | rfl
    · exact ⟨i, hi, rfl⟩
    · exact ⟨j, hj, rfl⟩
    · exact ⟨k, hk, rfl⟩
  · rintro ⟨i, j, k⟩ ⟨i', j', k'⟩ ⟨⟨hi, hj, hk⟩, ⟨kj, ji⟩, -⟩ ⟨⟨hi', hj', hk'⟩, ⟨kj', ji'⟩, -⟩ same
    have images : Set.image place {i, j, k} = Set.image place {i', j', k'} := by
      have sets := congrArg (fun s : Finset V => (s : Set V)) same
      simpa [Set.image_insert_eq] using sets
    have within : ({i, j, k} : Set ι) ⊆ S := by
      rintro x (rfl | rfl | rfl) <;> assumption
    have within' : ({i', j', k'} : Set ι) ⊆ S := by
      rintro x (rfl | rfl | rfl) <;> assumption
    have numbers := (injective.image_eq_image_iff within within').mp images
    obtain ⟨rfl, rfl, rfl⟩ := descending_unique kj ji kj' ji' (by
      apply Finset.coe_injective
      simpa using numbers)
    rfl
  · rintro s ⟨clique, inside⟩
    obtain ⟨a, b, c, ab, ac, bc, rfl⟩ := SimpleGraph.is3Clique_iff.mp (SimpleGraph.mem_cliqueSet_iff.mp clique)
    obtain ⟨i, hi, rfl⟩ := inside a (by simp)
    obtain ⟨j, hj, rfl⟩ := inside b (by simp)
    obtain ⟨k, hk, rfl⟩ := inside c (by simp)
    let P (x y z : ι) : Prop := (x ∈ S ∧ y ∈ S ∧ z ∈ S) ∧
      (G.Adj (place x) (place y) ∧ G.Adj (place x) (place z) ∧ G.Adj (place y) (place z)) ∧
      ({place x, place y, place z} : Finset V) = {place i, place j, place k}
    have swap {x y z : ι} (h : P x y z) : P y x z := by
      obtain ⟨⟨hx, hy, hz⟩, ⟨xy, xz, yz⟩, same⟩ := h
      exact ⟨⟨hy, hx, hz⟩, ⟨xy.symm, yz, xz⟩, by rw [Finset.insert_comm, same]⟩
    have swap' {x y z : ι} (h : P x y z) : P x z y := by
      obtain ⟨⟨hx, hy, hz⟩, ⟨xy, xz, yz⟩, same⟩ := h
      exact ⟨⟨hx, hz, hy⟩, ⟨xz, xy, yz.symm⟩, by rw [Finset.pair_comm, same]⟩
    obtain ⟨x, y, z, zy, yx, here, edges, same⟩ := exists_descending (P := P) swap swap' (fun h => ab.ne (congrArg place h))
      (fun h => ac.ne (congrArg place h)) (fun h => bc.ne (congrArg place h)) ⟨⟨hi, hj, hk⟩, ⟨ab, ac, bc⟩, rfl⟩
    exact ⟨(x, y, z), ⟨here, ⟨zy, yx⟩, edges⟩, same⟩

/-! ## Counting by lists of neighbours -/

section Counting

variable {α : Type*} [LinearOrder α] (N N' : α → List α)

/-- What is found at `u`: `v` runs over its neighbours up to `u`, `w` over those up to `v` that `v` has too. -/
def mergeCount (u : α) : Nat :=
  (((N u).takeWhile (· ≤ u)).map fun v => common ((N u).takeWhile (· ≤ v)) (N v)).sum

/-- The pairs `v` and `w` of neighbours of `u` with an edge from `v` to `w`. -/
def closing (u : α) : List (α × α) :=
  ((N u).filter (· ≤ u)).flatMap fun v => (((N u).filter (· ≤ v)).filter (· ∈ N v)).map fun w => (v, w)

variable {N N'}

theorem mem_closing {u v w : α} : (v, w) ∈ closing N u ↔ (w ≤ v ∧ v ≤ u) ∧ v ∈ N u ∧ w ∈ N u ∧ w ∈ N v := by
  simp only [closing, List.mem_flatMap, List.mem_filter, List.mem_map, decide_eq_true_eq, Prod.mk.injEq]
  constructor
  · rintro ⟨v', ⟨edge, below⟩, w', ⟨⟨edge', below'⟩, edge''⟩, rfl, rfl⟩
    exact ⟨⟨below', below⟩, edge, edge', edge''⟩
  · rintro ⟨⟨below', below⟩, edge, edge', edge''⟩
    exact ⟨v, ⟨edge, below⟩, w, ⟨⟨edge', below'⟩, edge''⟩, rfl, rfl⟩

theorem closing_nodup {u : α} (distinct : (N u).Nodup) : (closing N u).Nodup := by
  rw [closing, List.nodup_flatMap]
  constructor
  · intro v member
    exact ((distinct.filter _).filter _).map fun w w' same => (Prod.mk.inj same).2
  · refine (distinct.filter _).imp fun {v v'} other => ?_
    rw [Function.onFun, List.disjoint_left]
    intro pair left right
    obtain ⟨w, -, rfl⟩ := List.mem_map.mp left
    obtain ⟨w', -, same⟩ := List.mem_map.mp right
    exact other (Prod.mk.inj same).1.symm

theorem length_closing (u : α) : (closing N u).length =
    (((N u).filter (· ≤ u)).map fun v => ((N u).filter (· ≤ v)).countP (· ∈ N v)).sum := by
  simp only [closing, List.length_flatMap, List.length_map, List.countP_eq_length_filter]

theorem closing_perm (perm : ∀ u, (N' u).Perm (N u)) (u : α) : (closing N' u).length = (closing N u).length := by
  rw [length_closing, length_closing]
  have inner (v : α) : ((N' u).filter (· ≤ v)).countP (· ∈ N' v) = ((N u).filter (· ≤ v)).countP (· ∈ N v) := by
    rw [((perm u).filter _).countP_eq]
    exact List.countP_congr fun w _ => by simpa using (perm v).mem_iff
  simp only [inner]
  exact (((perm u).filter _).map _).sum_eq

theorem mergeCount_le (u : α) : mergeCount N u ≤ (closing N u).length := by
  rw [mergeCount, length_closing]
  refine le_trans (List.sum_le_sum fun v _ => ?_)
    (((takeWhile_sublist_filter _ _).map _).sum_le_sum fun _ _ => Nat.zero_le _)
  exact (common_le _ _).trans (takeWhile_sublist_filter _ _).countP_le

theorem mergeCount_eq (sorted : ∀ u, (N u).Pairwise (· ≤ ·)) (u : α) : mergeCount N u = (closing N u).length := by
  rw [mergeCount, length_closing, takeWhile_eq_filter (sorted u)]
  congr 1
  refine List.map_congr_left fun v _ => ?_
  rw [takeWhile_eq_filter (sorted u), common_eq ((sorted u).sublist List.filter_sublist) (sorted v)]

end Counting

omit [DecidableEq V] in
theorem sum_closing {G : SimpleGraph V} {place : Nat → V} {n : Nat} {N : Nat → List Nat}
    (distinct : ∀ u, (N u).Nodup) (edges : ∀ u < n, ∀ v < n, v ∈ N u ↔ G.Adj (place u) (place v)) :
    ((List.range n).map fun u => (closing N u).length).sum = (corners G place (Set.Iio n)).ncard := by
  let found : List (Nat × Nat × Nat) := (List.range n).flatMap fun u => (closing N u).map fun pair => (u, pair)
  have length : found.length = ((List.range n).map fun u => (closing N u).length).sum := by
    simp only [found, List.length_flatMap, List.length_map]
  have nodup : found.Nodup := by
    rw [List.nodup_flatMap]
    constructor
    · intro u _
      exact (closing_nodup (distinct u)).map fun pair pair' same => (Prod.mk.inj same).2
    · refine List.nodup_range.imp fun {u u'} other => ?_
      rw [Function.onFun, List.disjoint_left]
      intro triple left right
      obtain ⟨pair, -, rfl⟩ := List.mem_map.mp left
      obtain ⟨pair', -, same⟩ := List.mem_map.mp right
      exact other (Prod.mk.inj same).1.symm
  have same : corners G place (Set.Iio n) = (found.toFinset : Set (Nat × Nat × Nat)) := by
    ext ⟨u, v, w⟩
    rw [List.coe_toFinset]
    constructor
    · rintro ⟨⟨hu, hv, hw⟩, ⟨wv, vu⟩, uv, uw, vw⟩
      have closes : (v, w) ∈ closing N u :=
        mem_closing.mpr ⟨⟨wv.le, vu.le⟩, (edges u hu v hv).mpr uv, (edges u hu w hw).mpr uw, (edges v hv w hw).mpr vw⟩
      exact List.mem_flatMap.mpr ⟨u, List.mem_range.mpr hu, List.mem_map.mpr ⟨_, closes, rfl⟩⟩
    · intro member
      obtain ⟨u', inside, member⟩ := List.mem_flatMap.mp member
      obtain ⟨pair, closes, same⟩ := List.mem_map.mp member
      cases same
      have hu : u < n := List.mem_range.mp inside
      obtain ⟨⟨wv, vu⟩, uv, uw, vw⟩ := mem_closing.mp closes
      have hv : v < n := vu.trans_lt hu
      have hw : w < n := wv.trans_lt hv
      have uv := (edges u hu v hv).mp uv
      have uw := (edges u hu w hw).mp uw
      have vw := (edges v hv w hw).mp vw
      have distinct' {x y : Nat} (edge : G.Adj (place x) (place y)) : x ≠ y := fun same => edge.ne (by rw [same])
      exact ⟨⟨hu, hv, hw⟩, ⟨lt_of_le_of_ne wv (distinct' vw).symm, lt_of_le_of_ne vu (distinct' uv).symm⟩, uv, uw, vw⟩
  rw [same, Set.ncard_coe_finset, List.toFinset_card_of_nodup nodup, length]

end Radix.Lib
