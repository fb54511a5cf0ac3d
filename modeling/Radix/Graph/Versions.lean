import Radix.Graph.Refinement

/-!
# Reads at a timestamp

In mixed mode every log entry has a timestamp, and a read at a timestamp that finds a version lists
what the operations up to that timestamp leave.
-/

namespace Radix

open Lib Lib.LastWrite

namespace RadixGraph

variable {W : Type} [Zero W] [DecidableEq W]

abbrev Trace (W : Type) := List (Op W × Option Int)

def trace (P : Platform W) (g : RadixGraph W) : List (Op W) → Result (Trace W × RadixGraph W)
  | [] => .ok ([], g)
  | op :: ops => do
      let g ← perform P g op
      let (rest, g') ← trace P g ops
      .ok ((op, Kept.logTimestamp g.global) :: rest, g')

/-- How a graph comes into mixed mode: at once, or after some operations and before a call of
`CreateSnapshots`. -/
inductive Start (W : Type) where
  | atOnce
  | after (ops : List (Op W)) (sortNeighbours makeDense : Bool)

def Start.ops : Start W → List (Op W)
  | .atOnce => []
  | .after ops _ _ => ops

def start (P : Platform W) (g : RadixGraph W) : Start W → Result (Trace W × RadixGraph W)
  | .atOnce => .ok ([], g.switchToMixed)
  | .after ops sortNeighbours makeDense => do
      let (before, g) ← trace P g ops
      let g ← g.switchToMixed.createSnapshots P sortNeighbours makeDense
      .ok (before, g)

def mixedRun (P : Platform W) (g : RadixGraph W) (how : Start W) (ops : List (Op W)) :
    Result (Trace W × RadixGraph W) := do
  let (before, g) ← start P g how
  let (rest, g) ← trace P g ops
  .ok (before ++ rest, g)

/-! ## Replaying a trace -/

def replayed (B : Nat) (u v : NodeID) (weight : Option W) : Op W → Option W
  | .insertEdge src des w | .updateEdge src des w =>
      if src ≡ u [MOD 2 ^ B] ∧ des ≡ v [MOD 2 ^ B] then some w else weight
  | .deleteEdge src des => if src ≡ u [MOD 2 ^ B] ∧ des ≡ v [MOD 2 ^ B] then none else weight
  | _ => weight

/-- The weight of the edge from `u` to `v` that the operations up to a timestamp leave. -/
def edgeAt (B : Nat) (timestamp : Int) (done : Trace W) (u v : NodeID) : Option W :=
  ((done.filter fun p => p.2.all (· ≤ timestamp)).map Prod.fst).foldl (replayed B u v) none

omit [Zero W] [DecidableEq W] in
theorem edgeAt_snoc (B : Nat) (timestamp : Int) (done : Trace W) (p : Op W × Option Int)
    (u v : NodeID) : edgeAt B timestamp (done ++ [p]) u v =
      if p.2.all (· ≤ timestamp) then replayed B u v (edgeAt B timestamp done u v) p.1
      else edgeAt B timestamp done u v := by
  rw [edgeAt, List.filter_append, List.map_append, List.foldl_append, ← edgeAt]
  by_cases shown : p.2.all (· ≤ timestamp) <;> simp [shown]

variable {B : Nat} {A : Ledger W}

theorem edgeWhere_next (closed : A.Closed) {op : Op W} (allowed : A.Allowed .strict B op)
    (stamp : Option Int) (shown : Option Int → Bool) (u v : NodeID) :
    (A.next B stamp op).edgeWhere B shown u v =
      if shown stamp then replayed B u v (A.edgeWhere B shown u v) op
      else A.edgeWhere B shown u v := by
  have known {src des : NodeID} (present : A.edge B src des ≠ none) :
      SORT.position B A.ids src ≠ none ∧ SORT.position B A.ids des ≠ none :=
    ⟨fun none => present (Ledger.edgeWhere_of_unknown (.inl none)),
      fun none => present (Ledger.edgeWhere_of_unknown (.inr none))⟩
  cases op with
  | insertEdge src des weight =>
      have source : SORT.position B ((A.enter B src).enter B des).ids src ≠ none := by
        rw [← Option.isSome_iff_ne_none, Ledger.position_enter_isSome, Ledger.position_enter_isSome]
        simp
      have target : SORT.position B ((A.enter B src).enter B des).ids des ≠ none := by
        rw [← Option.isSome_iff_ne_none, Ledger.position_enter_isSome]
        simp
      rw [Ledger.next, Ledger.edgeWhere_write stamp weight source target,
        (closed.enter src).edgeWhere_enter, closed.edgeWhere_enter, Ledger.said,
        if_neg (allowed trivial).1]
      by_cases here : shown stamp <;> simp [here, replayed]
  | updateEdge src des weight =>
      obtain ⟨some_weight, present⟩ := allowed trivial
      rw [Ledger.next, Ledger.edgeWhere_write stamp weight (known present).1 (known present).2,
        Ledger.said, if_neg some_weight]
      by_cases here : shown stamp <;> simp [here, replayed]
  | deleteEdge src des =>
      have present := allowed trivial
      rw [Ledger.next, Ledger.edgeWhere_write stamp 0 (known present).1 (known present).2, Ledger.said,
        if_pos rfl]
      by_cases here : shown stamp <;> simp [here, replayed]
  | createSnapshots _ _ | setExpandRate _ | getGlobalTimestamp | getNeighbours _ _ =>
      simp [Ledger.next, replayed]

def Shows (B : Nat) (A : Ledger W) (done : Trace W) : Prop :=
  ∀ timestamp u v, A.edgeWhere B (·.all (· ≤ timestamp)) u v = edgeAt B timestamp done u v

/-! ## Runs -/

variable {ws : List Nat} {g : RadixGraph W}

theorem trace_spec (P : Platform W) (settled : Settled .strict ws g A) {G : Digraph W}
    (denotes : A.Denotes ws.sum G) (done : Trace W) (shows : Shows ws.sum A done) {ops : List (Op W)}
    (wellformed : Admissible Digraph.next (Digraph.Wellformed .strict) G (ops.map (Op.masked ws.sum))) :
    ∃ rest g' A', trace P g ops = .ok (rest, g') ∧ rest.map Prod.fst = ops ∧
      Settled .strict ws g' A' ∧
      A'.Denotes ws.sum ((ops.map (Op.masked ws.sum)).foldl Digraph.next G) ∧
      Shows ws.sum A' (done ++ rest) ∧ g.global.ticks ≤ g'.global.ticks ∧
      g'.global.isMixedWorkloads = g.global.isMixedWorkloads := by
  induction ops generalizing g A G done with
  | nil => exact ⟨[], g, A, rfl, rfl, settled, denotes, by rwa [List.append_nil], le_rfl, rfl⟩
  | cons op ops ih =>
      have allowed := denotes.allowed wellformed.1
      obtain ⟨g₁, performed, settled₁, le, mixed⟩ := perform_spec P settled allowed
      have shows₁ : Shows ws.sum (A.next ws.sum (Kept.logTimestamp g₁.global) op)
          (done ++ [(op, Kept.logTimestamp g₁.global)]) := fun timestamp u v => by
        rw [edgeWhere_next settled.closed allowed, edgeAt_snoc, shows]
      obtain ⟨rest, g', A', ran, same, settled', denotes', shows', le', mixed'⟩ :=
        ih settled₁ (denotes.next _ op) _ shows₁ wellformed.2
      refine ⟨(op, Kept.logTimestamp g₁.global) :: rest, g', A', ?_, by rw [List.map_cons, same], settled',
        denotes', ?_, le.trans le', mixed'.trans mixed⟩
      · rw [trace, performed, ok_bind, ran, ok_bind]
      · rwa [List.append_assoc] at shows'

theorem start_spec (P : Platform W) (settled : Settled .strict ws g {}) (empty : g.vertexIndex.vertexTable = [])
    (how : Start W)
    (wellformed : Admissible Digraph.next (Digraph.Wellformed .strict) {} (how.ops.map (Op.masked ws.sum))) :
    ∃ before g' A', start P g how = .ok (before, g') ∧ before.map Prod.fst = how.ops ∧
      Settled .strict ws g' A' ∧
      A'.Denotes ws.sum ((how.ops.map (Op.masked ws.sum)).foldl Digraph.next {}) ∧
      Shows ws.sum A' before ∧ g'.global.isMixedWorkloads = true := by
  cases how with
  | atOnce =>
      refine ⟨[], g.switchToMixed, {}, rfl, rfl, ⟨settled.index, settled.clean, settled.rate,
        fun k v at_k => ?_, settled.closed⟩, Ledger.denotes_empty _, fun _ _ _ => rfl, rfl⟩
      simp [switchToMixed, empty] at at_k
  | after ops sortNeighbours makeDense =>
      obtain ⟨before, g₁, A, ran, same, settled₁, denotes, shows, -, -⟩ :=
        trace_spec P settled (Ledger.denotes_empty _) [] (fun _ _ _ => rfl) wellformed
      have tracks : Tracks .strict ws g₁.global.isMixedWorkloads g₁.switchToMixed A :=
        ⟨settled₁.index, settled₁.clean, settled₁.rate, settled₁.kept, settled₁.closed⟩
      obtain ⟨g', snapshots, settled', -, mixed⟩ :=
        createSnapshots_spec P tracks sortNeighbours makeDense
      rw [Start.ops] at ran
      exact ⟨before, g', A, by simp only [start, ran, ok_bind, snapshots], same, settled', denotes,
        shows, mixed⟩

/-- Versioned reads are sound: in mixed mode a read of any vertex at any timestamp either finds no
version or lists the edges that the operations up to the timestamp leave, each once. -/
theorem versioned_reads_sound (P : Platform W) (global : GlobalInfo) {index : SORT W} {ws : List Nat}
    (constructed : SORT.Constructed index ws) {L : Nat} (positive : 0 < L) (how : Start W)
    (ops : List (Op W)) (wellformed : Admissible Digraph.next (Digraph.Wellformed .strict) {}
      ((how.ops ++ ops).map (Op.masked ws.sum))) :
    ∃ done g, mixedRun P (construct global index L positive) how ops = .ok (done, g) ∧
      done.map Prod.fst = how.ops ++ ops ∧
      (g.global.ticks < 2 ^ 31 → ∀ u timestamp, ∃ found neighbours g',
        g.getNeighbours u [] timestamp = .ok (found, neighbours, g') ∧
        (found = true → ∃ edges, g.listing neighbours = .ok edges ∧
          edges.length = neighbours.length ∧ (edges.map fun edge => masked ws.sum edge.1).Nodup ∧
          ∀ v w, (∃ id, masked ws.sum id = masked ws.sum v ∧ (id, w) ∈ edges) ↔
            edgeAt ws.sum timestamp done u v = some w)) := by
  have settled := construct_tracks .strict global constructed positive
  have empty : (construct global index L positive).vertexIndex.vertexTable = [] :=
    List.length_eq_zero_iff.mp constructed.dictionary.length
  rw [List.map_append, admissible_append] at wellformed
  obtain ⟨before, g₁, A₁, started, same₁, settled₁, denotes₁, shows₁, mixed⟩ :=
    start_spec P settled empty how wellformed.1
  obtain ⟨rest, g, A, ran, same, settled', denotes, shows, -, -⟩ :=
    trace_spec P settled₁ denotes₁ before shows₁ wellformed.2
  refine ⟨before ++ rest, g, by simp only [mixedRun, started, ok_bind, ran],
    by rw [List.map_append, same₁, same], fun few u timestamp => ?_⟩
  obtain ⟨found, neighbours, g', read, -, -, reads⟩ := getNeighbours_spec settled' u timestamp
  refine ⟨found, neighbours, g', read, fun success => ?_⟩
  cases place : SORT.position ws.sum A.ids u with
  | none =>
      rw [place] at reads
      rw [reads.1] at success
      cases success
  | some k =>
      rw [place] at reads
      obtain ⟨edges, listed, length, distinct, member⟩ :=
        listing_spec settled' (·.all (· ≤ timestamp)) place (reads.versioned trivial few success)
      refine ⟨edges, listed, length, distinct, fun v w => ?_⟩
      rw [← shows]
      constructor
      · rintro ⟨id, same, inside⟩
        rw [Ledger.edgeWhere_congr A same.symm]
        exact ((member id w).mp inside).2
      · intro present
        obtain ⟨id, known, same⟩ := Ledger.known_of_edgeWhere present
        refine ⟨id, same, (member id w).mpr ⟨known, ?_⟩⟩
        rwa [Ledger.edgeWhere_congr A same]

theorem versioned_reads_sound_switched : ∃ (done : Trace Nat) (g : RadixGraph Nat),
    mixedRun Platform.exact (construct ⟨0, false⟩ (.ofVector [2, 3]) 1 (by decide))
      (.after [.insertEdge 0 1 1, .insertEdge 0 2 4] true true)
      [.updateEdge 0 1 2, .getGlobalTimestamp, .deleteEdge 0 2] = .ok (done, g) ∧
    (g.global.ticks < 2 ^ 31 → ∀ timestamp, ∃ found neighbours g',
      g.getNeighbours 0 [] timestamp = .ok (found, neighbours, g') ∧
      (found = true → ∃ edges, g.listing neighbours = .ok edges ∧
        ∀ v w, (∃ id, masked 5 id = masked 5 v ∧ (id, w) ∈ edges) ↔
          edgeAt 5 timestamp done 0 v = some w)) := by
  have constructed : SORT.Constructed (SORT.ofVector [2, 3] : SORT Nat) [2, 3] := .vector (by decide)
  obtain ⟨done, g, ran, -, reads⟩ := versioned_reads_sound Platform.exact ⟨0, false⟩ constructed
    (show 0 < 1 by decide)
    (.after [.insertEdge 0 1 1, .insertEdge 0 2 4] true true)
    [.updateEdge 0 1 2, .getGlobalTimestamp, .deleteEdge 0 2]
    (by simp [Start.ops, Op.masked, masked, Admissible, Digraph.Wellformed, Digraph.next, Digraph.set,
      Ledger.said])
  refine ⟨done, g, ran, fun few timestamp => ?_⟩
  obtain ⟨found, neighbours, g', read, lists⟩ := reads few 0 timestamp
  refine ⟨found, neighbours, g', read, fun success => ?_⟩
  obtain ⟨edges, listed, -, -, member⟩ := lists success
  exact ⟨edges, listed, member⟩

end RadixGraph

end Radix
