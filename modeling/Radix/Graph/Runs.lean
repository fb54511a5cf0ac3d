import Radix.Graph.Digraph

/-!
# Runs of the graph
-/

namespace Radix

open Lib Lib.LastWrite

namespace RadixGraph

variable {W : Type} [Zero W] [DecidableEq W] {rules : Rules} {ws : List Nat} {versioned : Bool}
  {g : RadixGraph W} {A : Ledger W}

/-! ## Reading -/

structure Reads (rules : Rules) (A : Ledger W) (ticks k : Nat) (timestamp : Int) (found : Bool)
    (neighbours : List (WeightedEdge W)) : Prop where
  latest : timestamp = maxTimestamp → found = true
  current : rules.Tidy → timestamp = maxTimestamp →
    Represents WeightedEdge.idx neighbours (replayEdges (A.hist k).edges)
  versioned : rules.Tidy → ticks < 2 ^ 31 → found = true →
    Represents WeightedEdge.idx neighbours (replayEdges ((A.hist k).upTo timestamp).edges)

theorem neighboursAt_stored (tracks : Tracks rules ws versioned g A) {k : Nat} {v : Vertex W}
    (at_k : g.vertexIndex.vertexTable[k]? = some v) (alive : v.delTime = -1) {head : WeightedEdgeArray W}
    {snap log : List (WeightedEdge W)} {stamps : Option (List Int)}
    (stored : Stored v.next head snap log stamps) (timestamp : Int) :
    ∃ bitmap', bitmap'.Clean ∧ g.neighboursAt k [] timestamp =
      .ok (if head.snapshotTimestamp ≤ timestamp then
        (true, listed [] snap (visibleLog timestamp stamps log), { g with bitmap := bitmap' })
      else (false, [], { g with bitmap := bitmap' })) := by
  obtain ⟨bitmap', read, clean'⟩ := getNeighboursOf_spec g.global tracks.clean stored timestamp []
  obtain ⟨bound, rfl⟩ := List.getElem?_eq_some_iff.mp at_k
  have unchanged : g.vertexIndex.setVertex k g.vertexIndex.vertexTable[k] = g.vertexIndex := by
    rw [SORT.setVertex, List.set_getElem_self]
  refine ⟨bitmap', clean', ?_⟩
  rw [neighboursAt, SORT.vertexAt, at_k, ok_bind, if_neg (by simp [alive]), read, ok_bind]
  by_cases recent : head.snapshotTimestamp ≤ timestamp
  · simp only [if_pos recent, unchanged]
  · simp only [if_neg recent, unchanged]

theorem neighboursAt_spec (tracks : Tracks rules ws versioned g A) {k : Nat} (inside : k < A.ids.length)
    (timestamp : Int) :
    ∃ found neighbours g', g.neighboursAt k [] timestamp = .ok (found, neighbours, g') ∧
      Tracks rules ws versioned g' A ∧ g'.global = g.global ∧
      Reads rules A g.global.ticks k timestamp found neighbours := by
  have bound : k < g.vertexIndex.vertexTable.length := by rwa [tracks.index.length]
  have at_k := List.getElem?_eq_getElem bound
  obtain ⟨alive, head, snap, log, stamps, past, stored, -, carries⟩ := tracks.kept k _ at_k
  obtain ⟨bitmap', clean', started⟩ := neighboursAt_stored tracks at_k alive stored timestamp
  have tracks' : Tracks rules ws versioned { g with bitmap := bitmap' } A :=
    ⟨tracks.index, clean', tracks.rate, tracks.kept, tracks.closed⟩
  by_cases recent : head.snapshotTimestamp ≤ timestamp
  · rw [if_pos recent] at started
    refine ⟨_, _, _, started, tracks', rfl, fun _ => rfl, fun tidy last => ?_, fun tidy few _ => ?_⟩
    · rw [last, carries.visible_all, carries.edges]
      exact carries.listed tidy log
    · rw [carries.upTo few recent]
      exact carries.listed tidy _
  · rw [if_neg recent] at started
    have late : timestamp ≠ maxTimestamp := fun last => absurd (last ▸ carries.shown.1) recent
    exact ⟨_, _, _, started, tracks', rfl, fun last => absurd last late,
      fun _ last => absurd last late, fun _ _ found => by cases found⟩

theorem getNeighbours_spec (tracks : Tracks rules ws versioned g A) (src : NodeID) (timestamp : Int) :
    ∃ found neighbours g', g.getNeighbours src [] timestamp = .ok (found, neighbours, g') ∧
      Tracks rules ws versioned g' A ∧ g'.global = g.global ∧
      match SORT.position ws.sum A.ids src with
      | none => found = false ∧ neighbours = []
      | some k => Reads rules A g.global.ticks k timestamp found neighbours := by
  obtain ⟨root, retrieved, dict⟩ := tracks.index.query g.global src
  have tracks' : Tracks rules ws versioned
      { g with vertexIndex := { g.vertexIndex with root := root } } A :=
    ⟨dict, tracks.clean, tracks.rate, tracks.kept, tracks.closed⟩
  rw [getNeighbours, retrieved, ok_bind]
  cases known : SORT.position ws.sum A.ids src with
  | none => exact ⟨_, _, _, rfl, tracks', rfl, rfl, rfl⟩
  | some k =>
      obtain ⟨found, neighbours, g', read, tracks'', same, reads⟩ :=
        neighboursAt_spec tracks' (SORT.position_isLt known) timestamp
      exact ⟨found, neighbours, g', read, tracks'', same, reads⟩

/-! ## Steps and runs -/

theorem perform_spec (P : Platform W) (settled : Settled rules ws g A) {op : Op W}
    (allowed : A.Allowed rules ws.sum op) :
    ∃ g', perform P g op = .ok g' ∧
      Settled rules ws g' (A.next ws.sum (Kept.logTimestamp g'.global) op) ∧
      g.global.ticks ≤ g'.global.ticks ∧
      g'.global.isMixedWorkloads = g.global.isMixedWorkloads := by
  cases op with
  | insertEdge src des weight =>
      obtain ⟨g', inserted, settled', le, mixed, -⟩ := insertEdge_spec P settled src des allowed
      exact ⟨g', by rw [perform, inserted, ok_bind], settled', le, mixed⟩
  | updateEdge src des weight =>
      obtain ⟨b, g', logged, rest⟩ := logEdge_spec P settled src des weight 0
        fun k l source target => .update fun exactly => by
          have present := allowed exactly
          rw [Ledger.edge_of_positions source target] at present
          exact ⟨by simpa [WeightedEdge.live] using present.1, fun none => present.2 (by rw [none]; rfl)⟩
      exact ⟨g', by rw [perform, updateEdge, logged, ok_bind], rest⟩
  | deleteEdge src des =>
      obtain ⟨b, g', logged, rest⟩ := logEdge_spec P settled src des 0 (-1)
        fun k l source target => .deletion fun exactly => by
          have present := allowed exactly
          rw [Ledger.edge_of_positions source target] at present
          exact ⟨by simp [WeightedEdge.live], fun none => present (by rw [none]; rfl)⟩
      exact ⟨g', by rw [perform, deleteEdge, logged, ok_bind], rest⟩
  | createSnapshots sortNeighbours makeDense =>
      exact createSnapshots_spec P settled sortNeighbours makeDense
  | setExpandRate ratio =>
      refine ⟨g.setExpandRate ratio, rfl, ?_⟩
      rw [setExpandRate]
      split
      · rename_i larger
        exact ⟨⟨settled.index, settled.clean, larger, settled.kept, settled.closed⟩, le_rfl, rfl⟩
      · exact ⟨settled, le_rfl, rfl⟩
  | getGlobalTimestamp =>
      exact ⟨_, rfl, ⟨settled.index, settled.clean, settled.rate,
        fun k v at_k => (settled.kept k v at_k).later (Nat.le_succ _), settled.closed⟩,
        Nat.le_succ _, rfl⟩
  | getNeighbours src timestamp =>
      obtain ⟨found, neighbours, g', read, tracks, same, -⟩ := getNeighbours_spec settled src timestamp
      refine ⟨g', by rw [perform, read, ok_bind], ?_, same ▸ le_rfl, same ▸ rfl⟩
      change Tracks rules ws g'.global.isMixedWorkloads g' A
      rwa [same]

omit [DecidableEq W] in
theorem next_ids (B : Nat) (A : Ledger W) (stamp : Option Int) (op : Op W) :
    ∀ a ∈ (A.next B stamp op).ids, a ∈ A.ids ∨ a ∈ op.ids := by
  have entered (A : Ledger W) (id : NodeID) : ∀ a ∈ (A.enter B id).ids, a ∈ A.ids ∨ a = id := by
    intro a member
    rw [Ledger.enter, SORT.enter] at member
    split at member
    · simpa using member
    · exact .inl member
  intro a member
  cases op with
  | insertEdge src des weight =>
      rw [Ledger.next, Ledger.write_ids] at member
      rcases entered _ des a member with member | rfl
      · rcases entered _ src a member with member | rfl
        · exact .inl member
        · simp [Op.ids]
      · simp [Op.ids]
  | updateEdge src des weight =>
      rw [Ledger.next, Ledger.write_ids] at member
      exact .inl member
  | deleteEdge src des =>
      rw [Ledger.next, Ledger.write_ids] at member
      exact .inl member
  | createSnapshots _ _ | setExpandRate _ | getGlobalTimestamp | getNeighbours _ _ => exact .inl member

theorem run_spec (P : Platform W) (settled : Settled rules ws g A) {G : Digraph W}
    (denotes : A.Denotes ws.sum G) {ops : List (Op W)}
    (wellformed : Admissible Digraph.next (Digraph.Wellformed rules) G (ops.map (Op.masked ws.sum))) :
    ∃ g' A', run P g ops = .ok g' ∧ Settled rules ws g' A' ∧
      A'.Denotes ws.sum ((ops.map (Op.masked ws.sum)).foldl Digraph.next G) ∧
      ∀ a ∈ A'.ids, a ∈ A.ids ∨ ∃ op ∈ ops, a ∈ op.ids := by
  induction ops generalizing g A G with
  | nil => exact ⟨g, A, rfl, settled, denotes, fun a member => .inl member⟩
  | cons op ops ih =>
      obtain ⟨g₁, performed, settled₁, -, -⟩ := perform_spec P settled (denotes.allowed wellformed.1)
      obtain ⟨g', A', ran, settled', denotes', ids⟩ := ih settled₁ (denotes.next _ op) wellformed.2
      refine ⟨g', A', ?_, settled', denotes', fun a member => ?_⟩
      · rw [run, List.foldlM_cons, performed, ok_bind]
        exact ran
      · rcases ids a member with member | ⟨other, inside, member⟩
        · rcases next_ids ws.sum A _ op a member with member | member
          · exact .inl member
          · exact .inr ⟨op, by simp, member⟩
        · exact .inr ⟨other, by simp [inside], member⟩

end RadixGraph

end Radix
