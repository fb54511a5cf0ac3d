import Mathlib.Data.Finset.Card
import Radix.Analytics.Adjacency

/-!
# The graph that the analytics see after a run

Edges may have been updated and deleted: what `GetNeighboursByOffset` lists is the digraph at present, each
edge once.
-/

namespace Radix

open Lib Lib.LastWrite

variable {W : Type} [Zero W] [DecidableEq W]

theorem Carries.lax {rules : Rules} {ticks : Nat} {deg snapshotTimestamp : Int} {snap log : List (WeightedEdge W)}
    {stamps : Option (List Int)} {past h : History W}
    (carries : Carries rules ticks deg snapshotTimestamp snap log stamps past h) :
    Carries .lax ticks deg snapshotTimestamp snap log stamps past h :=
  { carries with snapshot := False.elim, copied := False.elim, count := False.elim }

namespace RadixGraph

variable {rules : Rules} {ws : List Nat} {g : RadixGraph W} {A : Ledger W}

theorem Settled.revived (settled : Settled rules ws g A) : g.revived = g := by
  have same : g.vertexIndex.vertexTable.map Vertex.revived = g.vertexIndex.vertexTable := by
    refine (List.map_congr_left fun v member => ?_).trans (List.map_id _)
    obtain ⟨k, here⟩ := List.getElem?_of_mem member
    have alive := (settled.kept k v here).1
    rw [Vertex.revived, ← alive]
    rfl
  rw [RadixGraph.revived, SORT.revived, same]

theorem Settled.holds (settled : Settled rules ws g A) : Holds .lax ws g A := by
  unfold Holds
  rw [settled.revived]
  refine ⟨settled.index, settled.clean, settled.rate, fun k v here => ?_, settled.closed⟩
  obtain ⟨alive, head, snap, log, stamps, past, stored, aligned, carries⟩ := settled.kept k v here
  exact ⟨alive, head, snap, log, stamps, past, stored, aligned, carries.lax⟩

theorem Settled.alive (settled : Settled rules ws g A) (k : Nat) : g.gone k = -1 := by
  rw [gone]
  cases here : g.vertexIndex.vertexTable[k]? with
  | none => rfl
  | some v => exact (settled.kept k v here).1

theorem Settled.serves (settled : Settled rules ws g A) : ∃ pages, Serves ws A pages g := by
  have each (k : Nat) : ∃ p, k < A.ids.length → g.Paged k p := by
    by_cases inside : k < A.ids.length
    · obtain ⟨p, -, paged, -⟩ := settled.holds.page inside
      exact ⟨p, fun _ => paged⟩
    · exact ⟨.fresh g.global, fun inside' => absurd inside' inside⟩
  choose pages paged using each
  exact ⟨pages, settled.holds, settled.alive, paged⟩

theorem Settled.adjacency (settled : Settled rules ws g A) (tidy : rules.Tidy) {k : Nat} (inside : k < A.ids.length) :
    Represents WeightedEdge.idx (g.adjacency k) (replayEdges (A.hist k).edges) := by
  obtain ⟨found, neighbours, g', read, -, -, reads⟩ := neighboursAt_spec settled inside maxTimestamp
  have offset := getNeighboursByOffset_spec settled inside [] maxTimestamp
  rw [RadixGraph.adjacency, readOffset, offset, read, ok_bind]
  exact reads.current tidy rfl

theorem adjacency_outside (settled : Settled rules ws g A) {k : Nat} (beyond : A.ids.length ≤ k) :
    g.adjacency k = [] := by
  rw [RadixGraph.adjacency, readOffset, getNeighboursByOffset,
    if_pos (by rw [settled.index.cnt]; exact Int.ofNat_le.mpr beyond), ok_bind]

end RadixGraph

namespace Analytics

open RadixGraph

/-! ## Reading by offset -/

def asNodeID (i : Int) : NodeID := (BitVec.ofInt 32 i).toNat

def asInt (u : NodeID) : Int := (BitVec.ofNat 32 u).toInt

theorem asNodeID_natCast {j : Nat} (small : j < 2 ^ 32) : asNodeID (j : Int) = j := by
  rw [asNodeID, BitVec.ofInt_natCast, BitVec.toNat_ofNat, Nat.mod_eq_of_lt small]

theorem asInt_eq {u : Nat} (small : u < 2 ^ 31) : asInt u = u := by
  rw [asInt, BitVec.toInt_eq_toNat_of_lt] <;> simp <;> omega

theorem Answers.read {ws : List Nat} {A : Ledger W} {pages : Nat → Page W} {adj : Nat → List (WeightedEdge W)}
    (answers : Answers ws A pages adj) {g : RadixGraph W} (serves : Serves ws A pages g) {u : Nat} (small : u < 2 ^ 31) :
    ∃ found g', g.getNeighboursByOffset (asInt u) [] maxTimestamp = .ok (found, adj u, g') ∧ Serves ws A pages g' := by
  rw [asInt_eq small]
  by_cases inside : u < A.ids.length
  · obtain ⟨g', read, serves'⟩ := answers.byOffset serves inside
    exact ⟨true, g', read, serves'⟩
  · refine ⟨false, g, ?_, serves⟩
    have counted := serves.holds.dictionary.cnt
    rw [getNeighboursByOffset, if_pos (by omega), answers.outside u (Nat.not_lt.mp inside)]

/-! ## The digraph at present -/

variable {rules : Rules} {ws : List Nat} {g : RadixGraph W} {A : Ledger W}

theorem answers_of_settled (settled : Settled rules ws g A) (tidy : rules.Tidy) (few : A.ids.length ≤ NodeID.invalid) :
    ∃ pages, Serves ws A pages g ∧ Answers ws A pages g.adjacency := by
  obtain ⟨pages, serves⟩ := settled.serves
  refine ⟨pages, serves, fun i inside => (serves.adjacency inside).symm, fun i => adjacency_outside settled,
    fun i e member => ?_, few⟩
  by_cases inside : i < A.ids.length
  · have current := ((settled.adjacency tidy inside).mem e.idx e).mpr ⟨member, rfl⟩
    have logged : e.idx ∈ (A.hist i).edges.map WeightedEdge.idx := by
      by_contra untouched
      rw [replayEdges, replay_untouched _ untouched] at current
      cases current
    obtain ⟨d, entry, same⟩ := List.mem_map.mp logged
    obtain ⟨p, kept, rfl⟩ := List.mem_map.mp entry
    obtain ⟨nonneg, small⟩ := settled.closed.known i p kept
    exact ⟨e.idx.toNat, by omega, by omega⟩
  · rw [adjacency_outside settled (Nat.not_lt.mp inside)] at member
    cases member

theorem adjacency_nodup (settled : Settled rules ws g A) (tidy : rules.Tidy) (i : Nat) :
    ((g.adjacency i).map WeightedEdge.idx).Nodup := by
  by_cases inside : i < A.ids.length
  · exact (settled.adjacency tidy inside).nodup
  · rw [adjacency_outside settled (Nat.not_lt.mp inside)]
    exact List.nodup_nil

theorem mem_adjacency (settled : Settled rules ws g A) (tidy : rules.Tidy) {G : Digraph W}
    (denotes : A.Denotes ws.sum G) (small : ∀ a ∈ A.ids, a < 2 ^ ws.sum) {i j : Nat} {u v : NodeID}
    (source : A.ids[i]? = some u) (target : A.ids[j]? = some v) (w : W) :
    { weight := w, idx := (j : Int) } ∈ g.adjacency i ↔ G.weight u v = some w := by
  have inside := (List.getElem?_eq_some_iff.mp source).1
  have meaning := denotes.weight u v
  rw [masked_of_lt (small u (List.mem_of_getElem? source)), masked_of_lt (small v (List.mem_of_getElem? target)),
    Ledger.edge_of_positions (settled.index.position_self source) (settled.index.position_self target)] at meaning
  have represents := settled.adjacency tidy inside
  rw [meaning, Option.map_eq_some_iff]
  constructor
  · intro member
    exact ⟨_, (represents.mem j _).mpr ⟨member, rfl⟩, rfl⟩
  · rintro ⟨e, current, rfl⟩
    obtain ⟨member, idx⟩ := (represents.mem j e).mp current
    rwa [← idx]

theorem listedEdge_iff (settled : Settled rules ws g A) (tidy : rules.Tidy) {G : Digraph W}
    (denotes : A.Denotes ws.sum G) (small : ∀ a ∈ A.ids, a < 2 ^ ws.sum) {i j : Nat} {u v : NodeID}
    (source : A.ids[i]? = some u) (target : A.ids[j]? = some v) :
    ListedEdge g.adjacency i j ↔ G.weight u v ≠ none := by
  rw [Option.ne_none_iff_exists']
  constructor
  · rintro ⟨⟨w, idx⟩, member, same⟩
    cases same
    exact ⟨w, (mem_adjacency settled tidy denotes small source target w).mp member⟩
  · rintro ⟨w, present⟩
    exact ⟨_, (mem_adjacency settled tidy denotes small source target w).mpr present, rfl⟩

theorem answers_after (P : Platform W) (global : GlobalInfo) {index : SORT W} {ws : List Nat}
    (constructed : SORT.Constructed index ws) {L : Nat} (positive : 0 < L) {ops : List (Op W)}
    (inRange : ∀ op ∈ ops, ∀ id ∈ op.ids, id < 2 ^ ws.sum)
    (wellformed : Admissible Digraph.next (Digraph.Wellformed .tidy) {} ops)
    (few : (ops.flatMap Op.ids).toFinset.card ≤ NodeID.invalid) :
    ∃ g A pages, run P (construct global index L positive) ops = .ok g ∧ Settled .tidy ws g A ∧
      A.Denotes ws.sum (Digraph.after ops) ∧ (∀ a ∈ A.ids, a < 2 ^ ws.sum) ∧ Serves ws A pages g ∧
      Answers ws A pages g.adjacency := by
  have settled := construct_tracks .tidy global constructed positive
  obtain ⟨g, A, ran, settled', denotes, ids⟩ := run_spec P settled (Ledger.denotes_empty ws.sum)
    (by rwa [masked_ops inRange])
  rw [masked_ops inRange, ← Digraph.after] at denotes
  have named (a : NodeID) (known : a ∈ A.ids) : ∃ op ∈ ops, a ∈ op.ids := (ids a known).resolve_left (by simp)
  have small (a : NodeID) (known : a ∈ A.ids) : a < 2 ^ ws.sum := by
    obtain ⟨op, member, here⟩ := named a known
    exact inRange op member a here
  have distinct : A.ids.Nodup := settled'.index.distinct.of_map _
  have fewer : A.ids.length ≤ NodeID.invalid := by
    rw [← List.toFinset_card_of_nodup distinct]
    refine (Finset.card_le_card fun a known => ?_).trans few
    obtain ⟨op, member, here⟩ := named a (List.mem_toFinset.mp known)
    exact List.mem_toFinset.mpr (List.mem_flatMap.mpr ⟨op, member, here⟩)
  obtain ⟨pages, serves, answers⟩ := answers_of_settled settled' trivial fewer
  exact ⟨g, A, pages, ran, settled', denotes, small, serves, answers⟩

end Analytics

/-! ## The digraph between offsets -/

open Classical in
noncomputable def RadixGraph.arcs (g : RadixGraph W) (G : Digraph W) (i : Nat) : Finset Nat :=
  {j ∈ Finset.range g.getNumVertices | i < g.getNumVertices ∧
    ∃ u v, g.getExternalID i = .ok u ∧ g.getExternalID j = .ok v ∧ G.weight u v ≠ none}

omit [DecidableEq W] in
open Classical in
theorem RadixGraph.mem_arcs {g : RadixGraph W} {G : Digraph W} {i j : Nat} :
    j ∈ g.arcs G i ↔ j < g.getNumVertices ∧ i < g.getNumVertices ∧
      ∃ u v, g.getExternalID i = .ok u ∧ g.getExternalID j = .ok v ∧ G.weight u v ≠ none := by
  rw [arcs, Finset.mem_filter, Finset.mem_range]

end Radix
