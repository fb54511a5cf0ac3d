import Mathlib.Data.List.GetD
import Radix.Graph.Runs
import Radix.Sort.Calls

/-!
# The edge store refines a weighted digraph
-/

namespace Radix

open Lib Lib.LastWrite

namespace RadixGraph

variable {W : Type} [Zero W]

def listing (g : RadixGraph W) (neighbours : List (WeightedEdge W)) : Result (List (NodeID × W)) :=
  neighbours.mapM fun e => do
    let id ← g.getExternalID e.idx
    .ok (id, e.weight)

def lists [DecidableEq W] (g : RadixGraph W) (u : NodeID) : Result (List (NodeID × W)) := do
  let (_, neighbours, _) ← g.getNeighbours u [] maxTimestamp
  g.listing neighbours

theorem mapM_ok {α β : Type} {f : α → Result β} {g : α → β} {as : List α}
    (each : ∀ a ∈ as, f a = .ok (g a)) : as.mapM f = .ok (as.map g) := by
  induction as with
  | nil => rfl
  | cons a as ih =>
      rw [List.mapM_cons, each a List.mem_cons_self, ok_bind,
        ih fun b member => each b (List.mem_cons_of_mem a member)]
      rfl

variable [DecidableEq W] {rules : Rules} {ws : List Nat} {versioned : Bool} {g : RadixGraph W}
  {A : Ledger W}

theorem getExternalID_spec (tracks : Tracks rules ws versioned g A) {l : Nat} {id : NodeID}
    (here : A.ids[l]? = some id) : g.getExternalID l = .ok id := by
  obtain ⟨v, at_l, node, -⟩ := tracks.index.vertexAt here
  have inside := (List.getElem?_eq_some_iff.mp here).1
  rw [← tracks.index.cnt] at inside
  rw [getExternalID, if_neg (by omega), if_neg (by omega), Int.toNat_natCast, SORT.vertexAt, at_l, ok_bind,
    node]

theorem getInternalID_spec (tracks : Tracks rules ws versioned g A) {id : NodeID} {k : Nat}
    (known : SORT.position ws.sum A.ids id = some k) : g.getInternalID id = .ok (k : Int) := by
  obtain ⟨found, g', looked, -, -, source⟩ := liveVertex_spec tracks id
  rw [known] at source
  obtain ⟨v, -, idx, rfl⟩ := source
  simp only [getInternalID, looked, ok_bind, idx]

theorem getNeighboursByOffset_spec (tracks : Tracks rules ws versioned g A) {k : Nat}
    (inside : k < A.ids.length) (neighbours : List (WeightedEdge W)) (timestamp : Int) :
    g.getNeighboursByOffset k neighbours timestamp = g.neighboursAt k neighbours timestamp := by
  rw [← tracks.index.cnt] at inside
  rw [getNeighboursByOffset, if_neg (by omega), if_neg (by omega), Int.toNat_natCast]

theorem neighboursAt_root (g : RadixGraph W) (root : Ptr) (k : Nat)
    (neighbours : List (WeightedEdge W)) (timestamp : Int) :
    ({ g with vertexIndex := { g.vertexIndex with root := root } } : RadixGraph W).neighboursAt k
        neighbours timestamp =
      (g.neighboursAt k neighbours timestamp).map
        fun r : Bool × List (WeightedEdge W) × RadixGraph W =>
          (r.1, r.2.1, { r.2.2 with vertexIndex := { r.2.2.vertexIndex with root := root } }) := by
  rw [neighboursAt, neighboursAt, SORT.vertexAt, SORT.vertexAt]
  cases g.vertexIndex.vertexTable[k]? with
  | none => rfl
  | some v =>
      simp only [ok_bind]
      split
      · rfl
      · cases getNeighboursOf g.global g.bitmap v neighbours timestamp <;> rfl

theorem getNeighbours_by_offset (tracks : Tracks rules ws versioned g A) {src : NodeID} {k : Nat}
    (known : SORT.position ws.sum A.ids src = some k) {timestamp : Int} {found : Bool}
    {neighbours : List (WeightedEdge W)} {g' : RadixGraph W}
    (read : g.getNeighbours src [] timestamp = .ok (found, neighbours, g')) :
    ∃ g'', g.getNeighboursByOffset k [] timestamp = .ok (found, neighbours, g'') := by
  obtain ⟨root, retrieved, -⟩ := tracks.index.query g.global src
  rw [getNeighbours, retrieved, ok_bind, known] at read
  rw [getNeighboursByOffset_spec tracks (SORT.position_isLt known)]
  change ({ g with vertexIndex := { g.vertexIndex with root := root } } : RadixGraph W).neighboursAt k
    [] timestamp = _ at read
  rw [neighboursAt_root] at read
  cases direct : g.neighboursAt k [] timestamp with
  | error e =>
      rw [direct] at read
      cases read
  | ok r =>
      rw [direct] at read
      cases read
      exact ⟨r.2.2, rfl⟩

theorem listing_spec (tracks : Tracks rules ws versioned g A) (shown : Option Int → Bool) {u : NodeID}
    {k : Nat} (known : SORT.position ws.sum A.ids u = some k) {neighbours : List (WeightedEdge W)}
    (represents : Represents WeightedEdge.idx neighbours
      (replayEdges (History.edges ((A.hist k).filter (shown ·.1))))) :
    ∃ edges, g.listing neighbours = .ok edges ∧ edges.length = neighbours.length ∧
      (edges.map fun edge => masked ws.sum edge.1).Nodup ∧
      ∀ v w, (v, w) ∈ edges ↔ v ∈ A.ids ∧ A.edgeWhere ws.sum shown u v = some w := by
  have place : ∀ e ∈ neighbours, ∃ l : Nat, e.idx = l ∧ l < A.ids.length := by
    intro e member
    have current := (represents.mem e.idx e).mpr ⟨member, rfl⟩
    by_contra outside
    have unknown : e.idx ∉ (History.edges ((A.hist k).filter (shown ·.1))).map WeightedEdge.idx := by
      intro inside
      obtain ⟨d, logged, same⟩ := List.mem_map.mp inside
      obtain ⟨p, entry, rfl⟩ := List.mem_map.mp logged
      obtain ⟨nonneg, small⟩ := tracks.closed.known k p (List.mem_of_mem_filter entry)
      exact outside ⟨p.2.idx.toNat, by omega, by omega⟩
    rw [replayEdges, replay_untouched _ unknown] at current
    cases current
  have named : ∀ e ∈ neighbours, g.getExternalID e.idx = .ok (A.ids.getD e.idx.toNat 0) := by
    intro e member
    obtain ⟨l, idx, small⟩ := place e member
    rw [idx, getExternalID_spec tracks (List.getElem?_eq_getElem small), Int.toNat_natCast]
    simp [small]
  refine ⟨neighbours.map fun e => (A.ids.getD e.idx.toNat 0, e.weight),
    mapM_ok fun e member => by rw [named e member, ok_bind], by simp, ?_, fun v w => ?_⟩
  · have keys := represents.nodup.map_on (f := fun i : Int => masked ws.sum (A.ids.getD i.toNat 0)) ?_
    · simpa [Function.comp_def] using keys
    · intro i left j right same
      obtain ⟨d, inside, rfl⟩ := List.mem_map.mp left
      obtain ⟨e, inside', rfl⟩ := List.mem_map.mp right
      obtain ⟨l, idx, small⟩ := place d inside
      obtain ⟨m, idx', small'⟩ := place e inside'
      have here := tracks.index.position_self (List.getElem?_eq_getElem small)
      have there := tracks.index.position_self (List.getElem?_eq_getElem small')
      simp only [idx, idx', Int.toNat_natCast, List.getD_eq_getElem _ _ small,
        List.getD_eq_getElem _ _ small'] at same
      rw [SORT.position_congr same, there] at here
      rw [idx, idx', Option.some.inj here]
  · constructor
    · intro member
      obtain ⟨e, inside, pair⟩ := List.mem_map.mp member
      obtain ⟨l, idx, small⟩ := place e inside
      simp only [idx, Int.toNat_natCast, List.getD_eq_getElem _ _ small, Prod.mk.injEq] at pair
      obtain ⟨rfl, rfl⟩ := pair
      refine ⟨List.getElem_mem small, ?_⟩
      rw [Ledger.edgeWhere_of_positions known
        (tracks.index.position_self (List.getElem?_eq_getElem small)), ← idx,
        (represents.mem e.idx e).mpr ⟨inside, rfl⟩]
      rfl
    · rintro ⟨member, present⟩
      obtain ⟨l, small, rfl⟩ := List.getElem_of_mem member
      rw [Ledger.edgeWhere_of_positions known
        (tracks.index.position_self (List.getElem?_eq_getElem small))] at present
      obtain ⟨e, current, rfl⟩ := Option.map_eq_some_iff.mp present
      obtain ⟨inside, idx⟩ := (represents.mem l e).mp current
      exact List.mem_map.mpr ⟨e, inside, by simp [idx, small]⟩

theorem construct_tracks (rules : Rules) (global : GlobalInfo) {index : SORT W} {ws : List Nat}
    (constructed : SORT.Constructed index ws) {L : Nat} (positive : 0 < L) :
    Settled rules ws (construct global index L positive) {} :=
  fresh_tracks rules global constructed.dictionary (SegmentedBitmap.reset_clean _) _

omit [Zero W] [DecidableEq W] in
theorem masked_ops {B : Nat} {ops : List (Op W)} (inRange : ∀ op ∈ ops, ∀ id ∈ op.ids, id < 2 ^ B) :
    ops.map (Op.masked B) = ops :=
  (List.map_congr_left fun op member => Op.masked_of_lt (inRange op member)).trans (List.map_id ops)

/-- The edge store refines a weighted digraph: a run of well-formed operations does not fail, and
afterwards a read of a vertex lists its edges, each once, and `deg` counts them. -/
theorem run_refines_digraph (P : Platform W) (global : GlobalInfo) {index : SORT W} {ws : List Nat}
    (constructed : SORT.Constructed index ws) {L : Nat} (positive : 0 < L) {ops : List (Op W)}
    (inRange : ∀ op ∈ ops, ∀ id ∈ op.ids, id < 2 ^ ws.sum)
    (wellformed : Admissible Digraph.next (Digraph.Wellformed .strict) {} ops) :
    ∃ g, run P (construct global index L positive) ops = .ok g ∧
      ∀ u, (Digraph.after ops).vertices u → ∃ (k : Nat) (neighbours : List (WeightedEdge W))
          (edges : List (NodeID × W)) (g₁ g₂ : RadixGraph W),
        g.getNeighbours u [] maxTimestamp = .ok (true, neighbours, g₁) ∧
        g.getInternalID u = .ok k ∧
        g.getNeighboursByOffset k [] maxTimestamp = .ok (true, neighbours, g₂) ∧
        g.listing neighbours = .ok edges ∧ edges.length = neighbours.length ∧
        (edges.map Prod.fst).Nodup ∧
        (∀ v w, (v, w) ∈ edges ↔ (Digraph.after ops).weight u v = some w) ∧
        ∃ v arr older, g.vertexIndex.vertexTable[k]? = some v ∧ v.next = arr :: older ∧
          arr.deg = edges.length := by
  have settled := construct_tracks .strict global constructed positive
  obtain ⟨g, A, ran, settled', denotes, ids⟩ := run_spec P settled (Ledger.denotes_empty ws.sum)
    (by rwa [masked_ops inRange])
  rw [masked_ops inRange] at denotes
  refine ⟨g, ran, fun u known => ?_⟩
  obtain ⟨vertices, ends⟩ := Digraph.after_named ops
  have small : ∀ a ∈ A.ids, a < 2 ^ ws.sum := fun a member => by
    rcases ids a member with none | ⟨op, inside, named⟩
    · cases none
    · exact inRange op inside a named
  have below : u < 2 ^ ws.sum := by
    obtain ⟨op, inside, named⟩ := vertices u known
    exact inRange op inside u named
  have there := denotes.vertices u
  rw [masked_of_lt below, ← Digraph.after, known] at there
  obtain ⟨k, place⟩ := Option.isSome_iff_exists.mp there.symm
  obtain ⟨found, neighbours, g₁, read, -, -, reads⟩ := getNeighbours_spec settled' u maxTimestamp
  rw [place] at reads
  obtain rfl := reads.latest rfl
  have represents := reads.current trivial rfl
  obtain ⟨g₂, byOffset⟩ := getNeighbours_by_offset settled' place read
  obtain ⟨edges, listed, length, distinct, member⟩ :=
    listing_spec settled' (fun _ => true) place (by rwa [List.filter_true])
  obtain ⟨v, at_k, -, -, head, snap, log, stamps, past, stored, -, carries⟩ := settled'.vertex place
  obtain ⟨older, chain, -⟩ := stored.chain
  obtain ⟨l, counted, deg⟩ := carries.count trivial
  refine ⟨k, neighbours, edges, g₁, g₂, read, getInternalID_spec settled' place, byOffset, listed, length,
    ?_, fun v w => ?_, v, head, older, at_k, chain, ?_⟩
  · exact .of_map (masked ws.sum) (by simpa [Function.comp_def] using distinct)
  · rw [member, ← Ledger.edge, denotes.weight_iff small (fun u v present => ?_) below]
    · rfl
    · obtain ⟨op, inside, named⟩ := ends u v present
      exact inRange op inside v named
  · rw [deg, length, (counted.perm represents).length_eq]

/-- The run of `examples/single-thread.cpp`. -/
theorem run_refines_digraph_example : ∃ g : RadixGraph Nat,
    run Platform.exact (construct ⟨0, false⟩ (.ofVector [2, 3]) 1 (by decide))
      [.insertEdge 0 1 1, .insertEdge 1 5 2, .insertEdge 5 10 3, .insertEdge 10 31 4,
        .insertEdge 31 0 5, .deleteEdge 0 1, .insertEdge 0 5 1] = .ok g ∧
      ∃ neighbours g₁, g.getNeighbours 0 [] maxTimestamp = .ok (true, neighbours, g₁) ∧
        g.listing neighbours = .ok [(5, 1)] := by
  have constructed : SORT.Constructed (SORT.ofVector [2, 3] : SORT Nat) [2, 3] := .vector (by decide)
  have inRange : ∀ op ∈ ([.insertEdge 0 1 1, .insertEdge 1 5 2, .insertEdge 5 10 3, .insertEdge 10 31 4,
      .insertEdge 31 0 5, .deleteEdge 0 1, .insertEdge 0 5 1] : List (Op Nat)),
      ∀ id ∈ op.ids, id < 2 ^ [2, 3].sum := by decide
  obtain ⟨g, ran, all⟩ := run_refines_digraph Platform.exact ⟨0, false⟩ constructed
    (show 0 < 1 by decide) inRange
    (by simp [Admissible, Digraph.Wellformed, Digraph.next, Digraph.set, Ledger.said])
  obtain ⟨k, neighbours, edges, g₁, -, read, -, -, listed, -, distinct, member, -⟩ := all 0 (by decide)
  refine ⟨g, ran, neighbours, g₁, read, ?_⟩
  have same : edges.Perm [(5, 1)] := by
    refine (List.perm_ext_iff_of_nodup distinct.of_map (by simp)).mpr ?_
    rintro ⟨v, w⟩
    rw [member]
    by_cases five : v = 5
    · subst five
      simp [Digraph.after, Digraph.next, Digraph.set, Ledger.said, eq_comm]
    · by_cases one : v = 1 <;>
        simp [Digraph.after, Digraph.next, Digraph.set, Ledger.said, five, one]
  rw [listed, List.perm_singleton.mp same]

end RadixGraph

end Radix
