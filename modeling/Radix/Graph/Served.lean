import Radix.Graph.Built

/-!
# Reading a graph that nobody writes

What the analytics read: records under an external or an internal id, their neighbours at present, and
`snapshot_deg`. Their reads change the tree's root, the bitmap and the chains of versions, and none of the answers.
-/

namespace Radix

open Lib

namespace RadixGraph

variable {W : Type} [Zero W]

def lookup (g : RadixGraph W) (id : NodeID) : Result (Option Nat × RadixGraph W) := do
  let (ptr, index) ← g.vertexIndex.retrieveVertex g.global id false
  let g := { g with vertexIndex := index }
  match ptr with
  | .empty => .ok (none, g)
  | .leaf k => .ok (some k, g)
  | .node _ => .error .badPointer

def snapshotDegOf (g : RadixGraph W) (k : Nat) : Result Nat := do
  let v ← g.vertexIndex.vertexAt k
  match v.next with
  | [] => .error .nullPointer
  | next :: _ => .ok next.snapshotDeg

variable [DecidableEq W]

/-- `GetNeighbours(Vertex*, neighbours)`, which does not look at `del_time`. -/
def neighboursOf (g : RadixGraph W) (k : Nat) (neighbours : List (WeightedEdge W)) :
    Result (Bool × List (WeightedEdge W) × RadixGraph W) := do
  let src ← g.vertexIndex.vertexAt k
  let (found, neighbours, src, bitmap) ← getNeighboursOf g.global g.bitmap src neighbours maxTimestamp
  .ok (found, neighbours, { g with vertexIndex := g.vertexIndex.setVertex k src, bitmap := bitmap })

def adjacency (g : RadixGraph W) (k : Nat) : List (WeightedEdge W) :=
  match g.readOffset k maxTimestamp with
  | .ok (_, neighbours) => neighbours
  | .error _ => []

structure Serves (ws : List Nat) (A : Ledger W) (pages : Nat → Page W) (g : RadixGraph W) : Prop where
  holds : Holds .lax ws g A
  alive : ∀ k, g.gone k = -1
  paged : ∀ k < A.ids.length, g.Paged k (pages k)

namespace Serves

variable {ws : List Nat} {A : Ledger W} {pages : Nat → Page W} {g : RadixGraph W}

theorem read_present (serves : Serves ws A pages g) {k : Nat} (inside : k < A.ids.length) :
    (pages k).read maxTimestamp = (true, (pages k).present) := by
  obtain ⟨-, past, carries⟩ := (serves.paged k inside).carries serves.holds
  exact Page.read_present carries

theorem rebitmap (serves : Serves ws A pages g) {bitmap : SegmentedBitmap} (clean : bitmap.Clean) :
    Serves ws A pages { g with bitmap := bitmap } :=
  ⟨serves.holds.rebitmap clean, serves.alive, serves.paged⟩

theorem neighboursAt (serves : Serves ws A pages g) {k : Nat} (inside : k < A.ids.length) :
    ∃ g', g.neighboursAt k [] maxTimestamp = .ok (true, (pages k).present, g') ∧ Serves ws A pages g' := by
  obtain ⟨bitmap, clean, read⟩ := (serves.paged k inside).read serves.holds maxTimestamp
  rw [serves.alive, if_neg (by simp), serves.read_present inside] at read
  exact ⟨_, read, serves.rebitmap clean⟩

theorem byOffset (serves : Serves ws A pages g) {k : Nat} (inside : k < A.ids.length) :
    ∃ g', g.getNeighboursByOffset k [] maxTimestamp = .ok (true, (pages k).present, g') ∧ Serves ws A pages g' := by
  obtain ⟨g', read, serves'⟩ := serves.neighboursAt inside
  rw [← serves.holds.dictionary.cnt] at inside
  refine ⟨g', ?_, serves'⟩
  rw [getNeighboursByOffset, if_neg (by omega), if_neg (by omega), Int.toNat_natCast, read]

theorem neighboursOf (serves : Serves ws A pages g) {k : Nat} (inside : k < A.ids.length) :
    ∃ g', g.neighboursOf k [] = .ok (true, (pages k).present, g') ∧ Serves ws A pages g' := by
  obtain ⟨g', read, serves'⟩ := serves.neighboursAt inside
  refine ⟨g', ?_, serves'⟩
  obtain ⟨v, at_k, -, time, -⟩ := serves.holds.vertex inside
  rw [serves.alive] at time
  rw [RadixGraph.neighboursAt, SORT.vertexAt, at_k, ok_bind, if_neg (by simp [time])] at read
  rw [RadixGraph.neighboursOf, SORT.vertexAt, at_k, ok_bind, read]

theorem adjacency (serves : Serves ws A pages g) {k : Nat} (inside : k < A.ids.length) :
    g.adjacency k = (pages k).present := by
  obtain ⟨g', read, -⟩ := serves.byOffset inside
  rw [RadixGraph.adjacency, readOffset, read, ok_bind]

theorem lookup (serves : Serves ws A pages g) (id : NodeID) :
    ∃ g', g.lookup id = .ok (SORT.position ws.sum A.ids id, g') ∧ Serves ws A pages g' := by
  obtain ⟨root, retrieved, dict⟩ := serves.holds.dictionary.query g.global id
  refine ⟨{ g with vertexIndex := { g.vertexIndex with root := root } }, ?_, serves.holds.reroot dict, serves.alive,
    serves.paged⟩
  rw [RadixGraph.lookup, retrieved, ok_bind]
  cases SORT.position ws.sum A.ids id <;> rfl

theorem snapshotDegOf (serves : Serves ws A pages g) {k : Nat} (inside : k < A.ids.length) :
    g.snapshotDegOf k = .ok (pages k).snap.length := by
  obtain ⟨v, at_k, head, stored, -⟩ := serves.paged k inside
  obtain ⟨older, chain, -⟩ := stored.chain
  simp only [RadixGraph.snapshotDegOf, SORT.vertexAt, at_k, ok_bind, chain, stored.laid.snapshotDeg]

theorem vertex (serves : Serves ws A pages g) {k : Nat} (inside : k < A.ids.length) :
    ∃ v, g.vertexIndex.vertexAt k = .ok v ∧ v.idx = k := by
  obtain ⟨v, at_k, idx, -⟩ := serves.holds.vertex inside
  exact ⟨v, by rw [SORT.vertexAt, at_k], idx⟩

end Serves

theorem BuiltBy.serves {ws : List Nat} {order : List NodeID} {inserted : List (NodeID × NodeID × W)} {g : RadixGraph W}
    {A : Ledger W} (built : BuiltBy ws order inserted g A) :
    ∃ pages, Serves ws A pages g ∧ ∀ k < order.length, (pages k).Enumerates order inserted k := by
  have each (k : Nat) : ∃ p, k < A.ids.length → g.Paged k p := by
    by_cases inside : k < A.ids.length
    · obtain ⟨p, -, paged, -⟩ := built.inRange.holds.page inside
      exact ⟨p, fun _ => paged⟩
    · exact ⟨.fresh g.global, fun inside' => absurd inside' inside⟩
  choose pages paged using each
  refine ⟨pages, ⟨built.inRange.holds, built.alive, paged⟩, fun k inside => built.lists k _ (paged k ?_)⟩
  rwa [built.ids]

end RadixGraph

end Radix
