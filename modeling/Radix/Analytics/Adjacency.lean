import Radix.Graph.Served

/-!
# The graph that the analytics see

The edges between internal ids that `GetNeighboursByOffset` lists, and those that were inserted.
-/

namespace Radix.Analytics

open Lib RadixGraph

variable {W : Type} [Zero W]

def index (i : Int) : Result Nat := if 0 ≤ i then .ok i.toNat else .error .outOfBounds

theorem index_natCast (i : Nat) : index i = .ok i := by simp [index]

def InternalEdge (order : List NodeID) (inserted : List (NodeID × NodeID × W)) (i j : Nat) : Prop :=
  ∃ u v w, order[i]? = some u ∧ order[j]? = some v ∧ (u, v, w) ∈ inserted

variable [DecidableEq W]

structure Answers (ws : List Nat) (A : Ledger W) (pages : Nat → Page W) (adj : Nat → List (WeightedEdge W)) : Prop where
  present : ∀ i < A.ids.length, (pages i).present = adj i
  outside : ∀ i, A.ids.length ≤ i → adj i = []
  closed : ∀ i, ∀ e ∈ adj i, ∃ j < A.ids.length, e.idx = (j : Int)
  few : A.ids.length ≤ NodeID.invalid

def ListedEdge (adj : Nat → List (WeightedEdge W)) (i j : Nat) : Prop := ∃ e ∈ adj i, e.idx = (j : Int)

variable {ws : List Nat} {A : Ledger W} {pages : Nat → Page W} {adj : Nat → List (WeightedEdge W)}

namespace Answers

theorem byOffset (answers : Answers ws A pages adj) {g : RadixGraph W} (serves : Serves ws A pages g) {i : Nat}
    (inside : i < A.ids.length) :
    ∃ g', g.getNeighboursByOffset i [] maxTimestamp = .ok (true, adj i, g') ∧ Serves ws A pages g' := by
  rw [← answers.present i inside]
  exact serves.byOffset inside

theorem ne_invalid (answers : Answers ws A pages adj) {p : Nat} (inside : p < A.ids.length) :
    p ≠ NodeID.invalid := (inside.trans_le answers.few).ne

theorem edge_lt (answers : Answers ws A pages adj) {i j : Nat} (edge : ListedEdge adj i j) : j < A.ids.length := by
  obtain ⟨e, member, idx⟩ := edge
  obtain ⟨l, inside, idx'⟩ := answers.closed i e member
  rw [idx, Int.natCast_inj] at idx'
  rwa [idx']

end Answers

theorem answers_of_built {order : List NodeID} {inserted : List (NodeID × NodeID × W)} {g : RadixGraph W}
    (built : BuiltBy ws order inserted g A) (few : order.length ≤ NodeID.invalid) :
    ∃ pages, Serves ws A pages g ∧ Answers ws A pages g.adjacency ∧
      (∀ k < order.length, Neighbours order inserted k (g.adjacency k)) ∧
      ∀ i j, ListedEdge g.adjacency i j ↔ InternalEdge order inserted i j := by
  obtain ⟨pages, serves, lists⟩ := built.serves
  have distinct : order.Nodup := built.ids ▸ built.inRange.distinct
  have neighbours (k : Nat) (inside : k < order.length) : Neighbours order inserted k (g.adjacency k) := by
    rw [serves.adjacency (built.ids.symm ▸ inside)]
    exact (lists k inside).neighbours
  have outside (k : Nat) (beyond : A.ids.length ≤ k) : g.adjacency k = [] := by
    rw [RadixGraph.adjacency, readOffset, getNeighboursByOffset,
      if_pos (by rw [serves.holds.dictionary.cnt]; exact Int.ofNat_le.mpr beyond), ok_bind]
  have sound (i : Nat) (e : WeightedEdge W) (member : e ∈ g.adjacency i) :
      ∃ u v, ∃ l : Nat, order[i]? = some u ∧ order[l]? = some v ∧ e.idx = l ∧ (u, v, e.weight) ∈ inserted := by
    by_cases inside : i < order.length
    · exact (neighbours i inside).sound e member
    · rw [outside i (by rw [built.ids]; omega)] at member
      cases member
  refine ⟨pages, serves, ⟨fun i inside => (serves.adjacency inside).symm, outside, fun i e member => ?_, built.ids ▸ few⟩,
    neighbours, fun i j => ⟨?_, ?_⟩⟩
  · obtain ⟨_, _, l, _, there, idx, _⟩ := sound i e member
    exact ⟨l, built.ids ▸ (List.getElem?_eq_some_iff.mp there).1, idx⟩
  · rintro ⟨e, member, idx⟩
    obtain ⟨u, v, l, here, there, idx', edge⟩ := sound i e member
    rw [idx, Int.natCast_inj] at idx'
    exact ⟨u, v, e.weight, here, idx' ▸ there, edge⟩
  · rintro ⟨u, v, w, here, there, edge⟩
    have inside := (List.getElem?_eq_some_iff.mp here).1
    obtain ⟨l, there', e, member, idx⟩ := (neighbours i inside).complete u v w edge here
    have same : j = l := one_place distinct there there'
    exact ⟨e, member, same ▸ idx⟩

end Radix.Analytics
