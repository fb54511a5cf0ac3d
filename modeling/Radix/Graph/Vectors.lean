import Mathlib.Data.List.TakeWhile
import Radix.Graph.Integrity

/-!
# The vector that a read fills

Copying a snapshot segment resizes and overwrites the vector of the caller; the walk over the log appends
to what the vector holds.
-/

namespace Radix

open Lib Lib.LastWrite

variable {W : Type} [Zero W]

def WeightedEdgeArray.SeesLog (arr : WeightedEdgeArray W) (timestamp : Int) : Prop :=
  arr.snapshotDeg < arr.physicalSize ∧
    (arr.timestamp = none ∨ ∃ (k : Nat) (stamp : Int), k < arr.physicalSize - arr.snapshotDeg ∧
      arr.stamp k = .ok stamp ∧ stamp ≤ timestamp)

theorem visibleCount_pos {timestamp : Int} {stamps : List Int} :
    0 < visibleCount timestamp stamps ↔ ∃ stamp ∈ stamps, stamp ≤ timestamp := by
  rw [visibleCount, List.length_pos_iff, ne_eq, List.dropWhile_eq_nil_iff]
  simp

theorem Laid.seesLog_iff {arr : WeightedEdgeArray W} {snap log : List (WeightedEdge W)} {stamps : Option (List Int)}
    (laid : Laid arr snap log stamps) (timestamp : Int) :
    arr.SeesLog timestamp ↔ visibleLog timestamp stamps log ≠ [] := by
  have entries : arr.snapshotDeg < arr.physicalSize ↔ log ≠ [] := by
    rw [laid.physicalSize, laid.snapshotDeg, ← List.length_pos_iff]
    omega
  have count : arr.physicalSize - arr.snapshotDeg = log.length := by
    rw [laid.physicalSize, laid.snapshotDeg, Nat.add_sub_cancel_left]
  rw [WeightedEdgeArray.SeesLog, entries, count]
  cases stamps with
  | none =>
      have unstamped : arr.timestamp = none := laid.timestamp
      simp [unstamped, visibleLog]
  | some ts =>
      have length := laid.stamped ts rfl
      have stamped : arr.timestamp ≠ none := by simp [laid.timestamp]
      have early : (∃ (k : Nat) (stamp : Int), k < log.length ∧ arr.stamp k = .ok stamp ∧ stamp ≤ timestamp) ↔
          ∃ stamp ∈ ts, stamp ≤ timestamp := by
        constructor
        · rintro ⟨k, stamp, inside, read, old⟩
          have here : ts[k]? = some ts[k] := List.getElem?_eq_getElem (length ▸ inside)
          rw [laid.stamp here, Except.ok.injEq] at read
          exact ⟨stamp, read ▸ List.getElem_mem _, old⟩
        · rintro ⟨stamp, member, old⟩
          obtain ⟨k, here⟩ := List.getElem?_of_mem member
          exact ⟨k, stamp, length ▸ (List.getElem?_eq_some_iff.mp here).1, laid.stamp here, old⟩
      simp only [stamped, false_or, early, visibleLog, ne_eq, List.take_eq_nil_iff, not_or, ← visibleCount_pos,
        Nat.pos_iff_ne_zero]
      tauto

namespace RadixGraph

variable [DecidableEq W] {rules : Rules} {ws : List Nat} {g : RadixGraph W} {A : Ledger W}

def readInto (g : RadixGraph W) (u : NodeID) (timestamp : Int) (p : List (WeightedEdge W)) :
    Result (Bool × List (WeightedEdge W)) := do
  let (found, neighbours, _) ← g.getNeighbours u p timestamp
  .ok (found, neighbours)

def readOffsetInto (g : RadixGraph W) (src : Int) (timestamp : Int) (p : List (WeightedEdge W)) :
    Result (Bool × List (WeightedEdge W)) := do
  let (found, neighbours, _) ← g.getNeighboursByOffset src p timestamp
  .ok (found, neighbours)

/-- A call that returns `true` leaves in the vector what it leaves in an empty one, and a call that returns
`false` leaves the vector alone. -/
def Overwrites (read : List (WeightedEdge W) → Result (Bool × List (WeightedEdge W))) (p : List (WeightedEdge W)) :
    Prop :=
  ∃ found left left', read p = .ok (found, left) ∧ read [] = .ok (found, left') ∧
    left = if found then left' else p

def ReadsLog (g : RadixGraph W) (k : Nat) (timestamp : Int) : Prop :=
  ∃ (v : Vertex W) (arr : WeightedEdgeArray W), g.vertexIndex.vertexTable[k]? = some v ∧
    ¬ (v.delTime ≠ -1 ∧ v.delTime ≤ timestamp) ∧ v.next.find? (·.readableAt timestamp) = some arr ∧
    arr.SeesLog timestamp

omit [DecidableEq W] in
theorem readable_stored {chain : List (WeightedEdgeArray W)} {head : WeightedEdgeArray W}
    {snap log : List (WeightedEdge W)} {stamps : Option (List Int)} (stored : Stored chain head snap log stamps)
    (timestamp : Int) : chain.find? (·.readableAt timestamp) =
      if head.snapshotTimestamp ≤ timestamp then some head else none := by
  obtain ⟨older, rfl, retired⟩ := stored.chain
  have freed : older.find? (·.readableAt timestamp) = none := by
    rw [List.find?_eq_none]
    intro arr member
    simp [WeightedEdgeArray.readableAt, (retired arr member).1]
  have filled : head.edge.isSome := by simp [stored.laid.edge]
  by_cases recent : head.snapshotTimestamp ≤ timestamp
  · rw [if_pos recent, List.find?_cons_of_pos]
    simp [WeightedEdgeArray.readableAt, recent, filled]
  · rw [if_neg recent, List.find?_cons_of_neg, freed]
    simp [WeightedEdgeArray.readableAt, recent]

theorem listed_eq_fresh {p snap log : List (WeightedEdge W)} :
    listed p snap log = listed [] snap log ↔ p = [] ∨ log = [] := by
  unfold listed
  by_cases unseen : log = []
  · simp [unseen]
  · simp [unseen]

theorem overwrites_of_true {read : List (WeightedEdge W) → Result (Bool × List (WeightedEdge W))}
    {p snap log : List (WeightedEdge W)} (filled : read p = .ok (true, listed p snap log))
    (fresh : read [] = .ok (true, listed [] snap log)) : Overwrites read p ↔ p = [] ∨ ¬ log ≠ [] := by
  have same : listed p snap log = listed [] snap log ↔ p = [] ∨ log = [] := listed_eq_fresh
  rw [not_ne_iff, ← same]
  constructor
  · rintro ⟨found, left, left', at_p, at_nil, same⟩
    rw [filled, Except.ok.injEq, Prod.mk.injEq] at at_p
    rw [fresh, Except.ok.injEq, Prod.mk.injEq] at at_nil
    obtain ⟨rfl, rfl⟩ := at_p
    rwa [at_nil.2]
  · exact fun same => ⟨true, _, _, filled, fresh, same⟩

omit [DecidableEq W] in
theorem overwrites_of_false {read : List (WeightedEdge W) → Result (Bool × List (WeightedEdge W))}
    {p : List (WeightedEdge W)} (filled : read p = .ok (false, p)) (fresh : read [] = .ok (false, [])) :
    Overwrites read p := ⟨false, p, [], filled, fresh, rfl⟩

theorem neighboursAt_overwrites (holds : Holds rules ws g A) {k : Nat} (inside : k < A.ids.length) (timestamp : Int)
    {read : List (WeightedEdge W) → Result (Bool × List (WeightedEdge W))}
    (reads : ∀ p, read p = (g.neighboursAt k p timestamp).map fun r => (r.1, r.2.1)) (p : List (WeightedEdge W)) :
    Overwrites read p ↔ p = [] ∨ ¬ g.ReadsLog k timestamp := by
  obtain ⟨v, head, snap, log, stamps, past, at_k, time, stored, -, -, answers⟩ :=
      neighboursAt_into holds inside timestamp
  obtain ⟨bitmap, -, filled⟩ := answers p
  obtain ⟨bitmap', -, fresh⟩ := answers []
  have read_p := reads p
  have read_nil := reads []
  rw [filled] at read_p
  rw [fresh] at read_nil
  have chosen : g.ReadsLog k timestamp ↔ ¬ (g.gone k ≠ -1 ∧ g.gone k ≤ timestamp) ∧
      head.snapshotTimestamp ≤ timestamp ∧ visibleLog timestamp stamps log ≠ [] := by
    rw [ReadsLog, at_k, ← time, ← stored.laid.seesLog_iff]
    constructor
    · rintro ⟨u, arr, same, open', found, sees⟩
      obtain rfl := Option.some.inj same
      rw [readable_stored stored] at found
      split at found
      · rename_i recent
        obtain rfl := Option.some.inj found
        exact ⟨open', recent, sees⟩
      · cases found
    · rintro ⟨open', recent, sees⟩
      exact ⟨v, head, rfl, open', by rw [readable_stored stored, if_pos recent], sees⟩
  rw [chosen]
  by_cases closed : g.gone k ≠ -1 ∧ g.gone k ≤ timestamp
  · rw [if_pos closed] at read_p read_nil
    exact iff_of_true (overwrites_of_false read_p read_nil) (.inr fun reading => reading.1 closed)
  · rw [if_neg closed] at read_p read_nil
    by_cases recent : head.snapshotTimestamp ≤ timestamp
    · rw [if_pos recent] at read_p read_nil
      rw [overwrites_of_true read_p read_nil, and_iff_right closed, and_iff_right recent]
    · rw [if_neg recent] at read_p read_nil
      exact iff_of_true (overwrites_of_false read_p read_nil) (.inr fun reading => recent reading.2.1)

/-- In every state of a run, a read leaves in the vector what it leaves in an empty one, or leaves it alone if
it fails, exactly if the vector is empty or the read sees no entry of a log. -/
theorem overwrites_iff (P : Platform W) (global : GlobalInfo) {index : SORT W} {ws : List Nat}
    (constructed : SORT.Constructed index ws) {L : Nat} (positive : 0 < L) (acts : List (Action W)) :
    ∃ g, actions P (construct global index L positive) acts = .ok g ∧
      ∀ (timestamp : Int) (p : List (WeightedEdge W)),
        (∀ u : NodeID, Overwrites (g.readInto u timestamp) p ↔
          p = [] ∨ ¬ ∃ k, g.recordOf u = some k ∧ g.ReadsLog k timestamp) ∧
        ∀ k : Nat, Overwrites (g.readOffsetInto k timestamp) p ↔ p = [] ∨ ¬ g.ReadsLog k timestamp := by
  obtain ⟨g, A, ran, holds, -⟩ := actions_holds P (construct_holds .lax global constructed positive) acts
  refine ⟨g, ran, fun timestamp p => ⟨fun u => ?_, fun k => ?_⟩⟩
  · obtain ⟨root, -, reads⟩ := getNeighbours_into holds u timestamp
    rw [recordOf_holds holds]
    cases known : SORT.position ws.sum A.ids u with
    | none =>
        have fails (q : List (WeightedEdge W)) : g.readInto u timestamp q = .ok (false, q) := by
          rw [readInto, reads, known]
          rfl
        exact iff_of_true (overwrites_of_false (fails p) (fails [])) (.inr (by simp))
    | some k =>
        have direct (q : List (WeightedEdge W)) : g.readInto u timestamp q =
            (g.neighboursAt k q timestamp).map fun r => (r.1, r.2.1) := by
          rw [readInto, reads, known]
          dsimp only
          cases g.neighboursAt k q timestamp <;> rfl
        rw [neighboursAt_overwrites holds (SORT.position_isLt known) timestamp direct]
        simp
  · by_cases inside : k < A.ids.length
    · refine neighboursAt_overwrites holds inside timestamp (fun q => ?_) p
      rw [← holds.dictionary.cnt] at inside
      rw [readOffsetInto, getNeighboursByOffset, if_neg (by omega), if_neg (by omega), Int.toNat_natCast]
      cases g.neighboursAt k q timestamp <;> rfl
    · have fails (q : List (WeightedEdge W)) : g.readOffsetInto k timestamp q = .ok (false, q) := by
        have large : (g.vertexIndex.cnt : Int) ≤ k := by
          rw [holds.dictionary.cnt]
          omega
        rw [readOffsetInto, getNeighboursByOffset, if_pos large]
        rfl
      refine iff_of_true (overwrites_of_false (fails p) (fails [])) (.inr ?_)
      rintro ⟨v, arr, at_k, -⟩
      rw [← holds.dictionary.length] at inside
      exact inside (List.getElem?_eq_some_iff.mp at_k).1

/-- After a snapshot a read replaces what the vector held. -/
theorem overwrites_iff_edge : ∃ g : RadixGraph Nat,
    actions Platform.exact (construct ⟨0, true⟩ (.ofVector [1]) 1 (by decide))
      [.op (.insertEdge 0 1 1), .op (.createSnapshots true true)] = .ok g ∧
      Overwrites (g.readInto 0 maxTimestamp) [{ weight := 5, idx := 0 }] := by
  obtain ⟨g, ran, reads⟩ := overwrites_iff Platform.exact ⟨0, true⟩
    (show SORT.Constructed (SORT.ofVector [1] : SORT Nat) [1] from .vector (by decide)) (show 0 < 1 by decide)
    [.op (.insertEdge 0 1 1), .op (.createSnapshots true true)]
  have evaluated : (do
      let g ← (actions Platform.exact (construct ⟨0, true⟩ (.ofVector [1]) 1 (by decide))
        [.op (.insertEdge 0 1 1), .op (.createSnapshots true true)]).toOption
      let v ← g.vertexIndex.vertexTable[0]?
      some (g.recordOf 0, v.next.map fun (arr : WeightedEdgeArray Nat) => arr.physicalSize - arr.snapshotDeg)) =
      some (some 0, [0]) := by decide +kernel
  obtain ⟨g', ran', evaluated⟩ := Option.bind_eq_some_iff.mp evaluated
  obtain rfl := Except.ok.inj (ran.symm.trans (toOption_eq_some.mp ran'))
  obtain ⟨v, at_0, evaluated⟩ := Option.bind_eq_some_iff.mp evaluated
  obtain ⟨record, unlogged⟩ := Prod.mk.inj (Option.some.inj evaluated)
  refine ⟨g, ran, ((reads maxTimestamp _).1 0).mpr (.inr ?_)⟩
  rintro ⟨k, at_k, u, arr, here, -, found, logged, -⟩
  obtain rfl := Option.some.inj (record.symm.trans at_k)
  obtain rfl := Option.some.inj (at_0.symm.trans here)
  have none : arr.physicalSize - arr.snapshotDeg ∈ [0] := unlogged ▸ List.mem_map_of_mem (List.mem_of_find?_eq_some found)
  rw [List.mem_singleton] at none
  omega

/-- Reading the same vertex twice into one vector lists its edge twice. -/
theorem listed_twice : ∃ g : RadixGraph Nat,
    actions Platform.exact (construct ⟨0, true⟩ (.ofVector [1]) 1 (by decide)) [.op (.insertEdge 0 1 1)] = .ok g ∧
      g.readInto 0 maxTimestamp [{ weight := 1, idx := 1 }] =
        .ok (true, [{ weight := 1, idx := 1 }, { weight := 1, idx := 1 }]) ∧
      ¬ Overwrites (g.readInto 0 maxTimestamp) [{ weight := 1, idx := 1 }] := by
  refine ⟨_, rfl, rfl, ?_⟩
  rintro ⟨found, left, left', filled, fresh, same⟩
  cases filled
  cases fresh
  cases same

end RadixGraph

end Radix
