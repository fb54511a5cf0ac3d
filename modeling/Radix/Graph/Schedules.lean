import Radix.Graph.Refinement

/-!
# Compactions and snapshots do not show

Two runs that make the same edge operations list the same edges, wherever they take snapshots and
however their arrays grow, as long as insertions have a weight and insert absent edges.
-/

namespace Radix

open Lib Lib.LastWrite

namespace Ledger

variable {W : Type} [Zero W]

structure Same (A A' : Ledger W) : Prop where
  ids : A.ids = A'.ids
  edges : ∀ k, History.edges (A.hist k) = History.edges (A'.hist k)

variable {B : Nat} {A A' : Ledger W}

theorem Same.refl (A : Ledger W) : Same A A := ⟨rfl, fun _ => rfl⟩

theorem Same.symm (same : Same A A') : Same A' A := ⟨same.ids.symm, fun k => (same.edges k).symm⟩

theorem Same.trans {A'' : Ledger W} (same : Same A A') (same' : Same A' A'') : Same A A'' :=
  ⟨same.ids.trans same'.ids, fun k => (same.edges k).trans (same'.edges k)⟩

theorem Same.enter (same : Same A A') (id : NodeID) : Same (A.enter B id) (A'.enter B id) :=
  ⟨congrArg (SORT.enter B · id) same.ids, same.edges⟩

theorem Same.write (same : Same A A') (stamp stamp' : Option Int) (src des : NodeID) (weight : W) :
    Same (A.write B stamp src des weight) (A'.write B stamp' src des weight) := by
  unfold Ledger.write
  rw [← same.ids]
  split
  · refine ⟨same.ids, fun j => ?_⟩
    rw [log_hist, log_hist]
    unfold Function.update
    split
    · rename_i here
      subst here
      simp only [History.edges_append, same.edges]
      rfl
    · exact same.edges j
  · exact same

theorem Same.next (same : Same A A') (stamp stamp' : Option Int) (op : RadixGraph.Op W) :
    Same (A.next B stamp op) (A'.next B stamp' op) := by
  cases op with
  | insertEdge src des weight => exact ((same.enter src).enter des).write stamp stamp' src des weight
  | updateEdge src des weight => exact same.write stamp stamp' src des weight
  | deleteEdge src des => exact same.write stamp stamp' src des 0
  | createSnapshots _ _ | setExpandRate _ | getGlobalTimestamp | getNeighbours _ _ => exact same

variable [DecidableEq W]

theorem Same.edge (same : Same A A') (u v : NodeID) : A.edge B u v = A'.edge B u v := by
  unfold Ledger.edge edgeWhere
  rw [same.ids]
  cases SORT.position B A'.ids u with
  | none => rfl
  | some k =>
      cases SORT.position B A'.ids v with
      | none => rfl
      | some l => simp only [List.filter_true, same.edges]

end Ledger

namespace RadixGraph

variable {W : Type}

def Op.writes : Op W → Bool
  | .insertEdge _ _ _ | .updateEdge _ _ _ | .deleteEdge _ _ => true
  | .createSnapshots _ _ | .setExpandRate _ | .getGlobalTimestamp | .getNeighbours _ _ => false

theorem Op.masked_writes (B : Nat) (op : Op W) : (op.masked B).writes = op.writes := by
  cases op <;> rfl

variable [Zero W] [DecidableEq W]

theorem admissible_of_writes {rules : Rules} {G : Digraph W} {ops : List (Op W)}
    (wellformed : Admissible Digraph.next (Digraph.Wellformed rules) G (ops.filter Op.writes)) :
    Admissible Digraph.next (Digraph.Wellformed rules) G ops := by
  induction ops generalizing G with
  | nil => trivial
  | cons op ops ih =>
      cases op with
      | insertEdge _ _ _ | updateEdge _ _ _ | deleteEdge _ _ => exact ⟨wellformed.1, ih wellformed.2⟩
      | createSnapshots _ _ | setExpandRate _ | getGlobalTimestamp | getNeighbours _ _ =>
          exact ⟨trivial, ih wellformed⟩

def recorded (B : Nat) (A : Ledger W) (ops : List (Op W)) : Ledger W :=
  ops.foldl (fun A op => A.next B none op) A

omit [DecidableEq W] in
theorem recorded_writes (B : Nat) (A : Ledger W) (ops : List (Op W)) :
    recorded B A ops = recorded B A (ops.filter Op.writes) := by
  induction ops generalizing A with
  | nil => rfl
  | cons op ops ih =>
      cases op with
      | insertEdge _ _ _ | updateEdge _ _ _ | deleteEdge _ _ => exact ih _
      | createSnapshots _ _ | setExpandRate _ | getGlobalTimestamp | getNeighbours _ _ => exact ih A

variable {rules : Rules} {ws : List Nat} {g : RadixGraph W} {A : Ledger W}

theorem run_records (P : Platform W) (settled : Settled rules ws g A) {A₀ : Ledger W}
    (same : A.Same A₀) {G : Digraph W} (denotes : A.Denotes ws.sum G) {ops : List (Op W)}
    (wellformed : Admissible Digraph.next (Digraph.Wellformed rules) G (ops.map (Op.masked ws.sum))) :
    ∃ g' A', run P g ops = .ok g' ∧ Settled rules ws g' A' ∧ A'.Same (recorded ws.sum A₀ ops) := by
  induction ops generalizing g A A₀ G with
  | nil => exact ⟨g, A, rfl, settled, same⟩
  | cons op ops ih =>
      obtain ⟨g₁, performed, settled₁, -, -⟩ := perform_spec P settled (denotes.allowed wellformed.1)
      obtain ⟨g', A', ran, settled', same'⟩ :=
        ih settled₁ (same.next _ none op) (denotes.next _ op) wellformed.2
      refine ⟨g', A', ?_, settled', same'⟩
      rw [run, List.foldlM_cons, performed, ok_bind]
      exact ran

theorem same_listing {g' : RadixGraph W} {A' : Ledger W} (tidy : rules.Tidy)
    (settled : Settled rules ws g A) (settled' : Settled rules ws g' A') (same : A.Same A') (u : NodeID) :
    ∃ edges edges', g.lists u = .ok edges ∧ g'.lists u = .ok edges' ∧ edges.Perm edges' := by
  obtain ⟨found, neighbours, g₁, read, -, -, reads⟩ := getNeighbours_spec settled u maxTimestamp
  obtain ⟨found', neighbours', g₁', read', -, -, reads'⟩ := getNeighbours_spec settled' u maxTimestamp
  unfold lists
  rw [read, read', ok_bind, ok_bind]
  cases place : SORT.position ws.sum A.ids u with
  | none =>
      rw [place] at reads
      rw [← same.ids, place] at reads'
      obtain ⟨rfl, rfl⟩ := reads
      obtain ⟨rfl, rfl⟩ := reads'
      exact ⟨[], [], rfl, rfl, .refl _⟩
  | some k =>
      have place' : SORT.position ws.sum A'.ids u = some k := by rw [← same.ids, place]
      rw [place] at reads
      rw [place'] at reads'
      obtain ⟨edges, listed, -, distinct, member⟩ := listing_spec settled (fun _ => true) place
        (by rw [List.filter_true]; exact reads.current tidy rfl)
      obtain ⟨edges', listed', -, distinct', member'⟩ := listing_spec settled' (fun _ => true) place'
        (by rw [List.filter_true]; exact reads'.current tidy rfl)
      refine ⟨edges, edges', listed, listed', ?_⟩
      apply (List.perm_ext_iff_of_nodup distinct.of_map distinct'.of_map).mpr
      rintro ⟨v, w⟩
      rw [member, member', ← Ledger.edge, ← Ledger.edge, same.ids, same.edge]

/-- Log compaction is invisible in runs whose insertions have a weight and insert absent edges: with
the same edge operations the reads of every vertex list the same edges. -/
theorem schedules_agree (P : Platform W) (global global' : GlobalInfo) {index : SORT W} {ws : List Nat}
    (constructed : SORT.Constructed index ws) {L : Nat} (positive : 0 < L) {ops ops' : List (Op W)}
    (same : ops.filter Op.writes = ops'.filter Op.writes)
    (wellformed : Admissible Digraph.next (Digraph.Wellformed .tidy) {}
      ((ops.filter Op.writes).map (Op.masked ws.sum))) :
    ∃ g g', run P (construct global index L positive) ops = .ok g ∧
      run P (construct global' index L positive) ops' = .ok g' ∧
      ∀ u, ∃ edges edges', g.lists u = .ok edges ∧ g'.lists u = .ok edges' ∧ edges.Perm edges' := by
  have all (os : List (Op W)) (writes : os.filter Op.writes = ops.filter Op.writes) :
      Admissible Digraph.next (Digraph.Wellformed .tidy) {} (os.map (Op.masked ws.sum)) := by
    apply admissible_of_writes
    rw [List.filter_map]
    simpa [Function.comp_def, Op.masked_writes, writes] using wellformed
  have settled := construct_tracks .tidy global constructed positive
  have settled' := construct_tracks .tidy global' constructed positive
  obtain ⟨g, A, ran, final, records⟩ := run_records P settled (Ledger.Same.refl _)
    (Ledger.denotes_empty ws.sum) (all ops rfl)
  obtain ⟨g', A', ran', final', records'⟩ := run_records P settled' (Ledger.Same.refl _)
    (Ledger.denotes_empty ws.sum) (all ops' same.symm)
  rw [recorded_writes] at records
  rw [recorded_writes, ← same] at records'
  have tidy : Rules.Tidy .tidy := trivial
  exact ⟨g, g', ran, ran', same_listing tidy final final' (records.trans records'.symm)⟩

theorem schedules_agree_snapshot : ∃ g g' : RadixGraph Nat,
    run Platform.exact (construct ⟨0, true⟩ (.ofVector [1, 1]) 1 (by decide))
      [.insertEdge 0 1 1, .deleteEdge 0 1, .insertEdge 0 1 2] = .ok g ∧
    run Platform.exact (construct ⟨0, true⟩ (.ofVector [1, 1]) 1 (by decide))
      [.insertEdge 0 1 1, .createSnapshots false true, .deleteEdge 0 1, .setExpandRate 3,
        .insertEdge 0 1 2, .createSnapshots true false] = .ok g' ∧
    ∃ edges edges', g.lists 0 = .ok edges ∧ g'.lists 0 = .ok edges' ∧ edges.Perm edges' := by
  have constructed : SORT.Constructed (SORT.ofVector [1, 1] : SORT Nat) [1, 1] := .vector (by decide)
  have writes : ([.insertEdge 0 1 1, .deleteEdge 0 1, .insertEdge 0 1 2] : List (Op Nat)).filter
      Op.writes = [.insertEdge 0 1 1, .createSnapshots false true, .deleteEdge 0 1, .setExpandRate 3,
        .insertEdge 0 1 2, .createSnapshots true false].filter Op.writes := rfl
  have wellformed : Admissible Digraph.next (Digraph.Wellformed .tidy) {}
      ((([.insertEdge 0 1 1, .deleteEdge 0 1, .insertEdge 0 1 2] : List (Op Nat)).filter
        Op.writes).map (Op.masked [1, 1].sum)) := by
    simp [List.filter, Op.writes, Op.masked, masked, Admissible, Digraph.Wellformed, Digraph.next, Digraph.set,
      Ledger.said]
  obtain ⟨g, g', ran, ran', same⟩ := schedules_agree Platform.exact ⟨0, true⟩ ⟨0, true⟩ constructed
    (show 0 < 1 by decide) writes wellformed
  exact ⟨g, g', ran, ran', same 0⟩

/-- A repeated insertion: the snapshot copies both entries, and a read of the log takes one. -/
theorem schedules_disagree :
    [Op.insertEdge 0 1 1, .insertEdge 0 1 2].filter Op.writes =
      [Op.insertEdge 0 1 1, .insertEdge 0 1 2, .createSnapshots false true].filter Op.writes ∧
    (do
      let g ← run Platform.exact (construct ⟨0, false⟩ (.ofVector [1, 1]) 1 (by decide))
        [.insertEdge 0 1 1, .insertEdge 0 1 2]
      g.lists 0) = .ok [(1, 2)] ∧
    (do
      let g ← run Platform.exact (construct ⟨0, false⟩ (.ofVector [1, 1]) 1 (by decide))
        [.insertEdge 0 1 1, .insertEdge 0 1 2, .createSnapshots false true]
      g.lists 0) = .ok [(1, 1), (1, 2)] :=
  ⟨rfl, rfl, rfl⟩

end RadixGraph

end Radix
