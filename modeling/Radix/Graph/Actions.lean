import Radix.Graph.Deletion

/-!
# Runs with deletions of vertices

The graph without its deletion times takes the steps of a ledger in which updates and deletions of
edges at deleted vertices do nothing.
-/

namespace Radix

open Lib Lib.LastWrite

namespace RadixGraph

variable {W : Type} [Zero W] [DecidableEq W]

/-- The operations of a graph together with `DeleteVertex` and reads under an internal id. -/
inductive Action (W : Type) where
  | op (op : Op W)
  | deleteVertex (id : NodeID)
  | getNeighboursByOffset (src : Nat) (timestamp : Int)
  deriving DecidableEq

def act (P : Platform W) (g : RadixGraph W) : Action W → Result (RadixGraph W)
  | .op op => perform P g op
  | .deleteVertex id => do
      let (_, g) ← g.deleteVertex id
      .ok g
  | .getNeighboursByOffset src timestamp => do
      let (_, _, g) ← g.getNeighboursByOffset src [] timestamp
      .ok g

def actions (P : Platform W) (g : RadixGraph W) (acts : List (Action W)) : Result (RadixGraph W) :=
  acts.foldlM (act P) g

/-- The results of `GetNeighbours` with a fresh vector. -/
def readVertex (g : RadixGraph W) (src : NodeID) (timestamp : Int) :
    Result (Bool × List (WeightedEdge W)) := do
  let (found, neighbours, _) ← g.getNeighbours src [] timestamp
  .ok (found, neighbours)

def readOffset (g : RadixGraph W) (src : Int) (timestamp : Int) :
    Result (Bool × List (WeightedEdge W)) := do
  let (found, neighbours, _) ← g.getNeighboursByOffset src [] timestamp
  .ok (found, neighbours)

end RadixGraph

namespace Ledger

variable {W : Type} [Zero W]

def Alive (B : Nat) (A : Ledger W) (gone : Nat → Int) (id : NodeID) : Prop :=
  ∃ k, SORT.position B A.ids id = some k ∧ gone k = -1

instance (B : Nat) (A : Ledger W) (gone : Nat → Int) (id : NodeID) : Decidable (A.Alive B gone id) :=
  match known : SORT.position B A.ids id with
  | none => isFalse fun ⟨_, there, _⟩ => by simp [known] at there
  | some k =>
      if alive : gone k = -1 then isTrue ⟨k, known, alive⟩
      else isFalse fun ⟨j, there, none'⟩ => alive (by
        obtain rfl : k = j := Option.some.inj (known.symm.trans there)
        exact none')

def liveNext (B : Nat) (A : Ledger W) (gone : Nat → Int) (stamp : Option Int) :
    RadixGraph.Action W → Ledger W
  | .op (.updateEdge src des weight) =>
      if A.Alive B gone src ∧ A.Alive B gone des then A.write B stamp src des weight else A
  | .op (.deleteEdge src des) =>
      if A.Alive B gone src ∧ A.Alive B gone des then A.write B stamp src des 0 else A
  | .op op => A.next B stamp op
  | _ => A

def goneAfter (B : Nat) (A : Ledger W) (gone : Nat → Int) (now : Int) :
    RadixGraph.Action W → Nat → Int
  | .deleteVertex id => match SORT.position B A.ids id with
      | none => gone
      | some k => Function.update gone k now
  | _ => gone

theorem goneAfter_unknown {B : Nat} {A : Ledger W} {id : NodeID} (unknown : SORT.position B A.ids id = none)
    (gone : Nat → Int) (now : Int) : A.goneAfter B gone now (.deleteVertex id) = gone := by
  rw [goneAfter, unknown]

theorem goneAfter_known {B : Nat} {A : Ledger W} {id : NodeID} {k : Nat}
    (known : SORT.position B A.ids id = some k) (gone : Nat → Int) (now : Int) :
    A.goneAfter B gone now (.deleteVertex id) = Function.update gone k now := by
  rw [goneAfter, known]

def Admits [DecidableEq W] (rules : Rules) (B : Nat) (A : Ledger W) : RadixGraph.Action W → Prop
  | .op op => A.Allowed rules B op
  | _ => True

end Ledger

namespace RadixGraph

variable {W : Type} [Zero W] [DecidableEq W] {rules : Rules} {ws : List Nat} {g g' : RadixGraph W}
  {A : Ledger W}

abbrev Holds (rules : Rules) (ws : List Nat) (g : RadixGraph W) (A : Ledger W) : Prop :=
  Settled rules ws g.revived A

/-! ## Looking up vertices -/

theorem Holds.dictionary (holds : Holds rules ws g A) : g.vertexIndex.Dictionary ws A.ids := by
  have index := holds.index
  refine ⟨⟨index.shaped.1, index.shaped.2, index.shaped.3⟩, index.levels, index.root, index.found,
    index.distinct, index.cnt, ?_⟩
  rw [← index.table]
  simp [revived, SORT.revived, Vertex.revived]

theorem Holds.reroot (holds : Holds rules ws g A) {root : Ptr}
    (dict : { g.vertexIndex with root := root }.Dictionary ws A.ids) :
    Holds rules ws { g with vertexIndex := { g.vertexIndex with root := root } } A := by
  refine ⟨⟨⟨dict.shaped.1, dict.shaped.2, dict.shaped.3⟩, dict.levels, dict.root, dict.found,
    dict.distinct, dict.cnt, ?_⟩, holds.clean, holds.rate, holds.kept, holds.closed⟩
  exact holds.index.table

theorem Holds.vertex (holds : Holds rules ws g A) {k : Nat} (inside : k < A.ids.length) :
    ∃ v, g.vertexIndex.vertexTable[k]? = some v ∧ v.idx = k ∧ v.delTime = g.gone k ∧
      Kept rules g.global.ticks g.global.isMixedWorkloads v.revived (A.hist k) := by
  obtain ⟨v, at_k, -, idx⟩ := holds.dictionary.vertexAt (List.getElem?_eq_getElem inside)
  refine ⟨v, at_k, idx, by simp [gone, at_k], holds.kept k v.revived ?_⟩
  simp [revived, SORT.revived, at_k]

theorem Holds.gone_unborn (holds : Holds rules ws g A) {k : Nat} (outside : A.ids.length ≤ k) :
    g.gone k = -1 := by
  rw [← holds.dictionary.length] at outside
  simp [gone, outside]

omit [DecidableEq W] in
theorem Ledger.alive_iff {B k : Nat} {id : NodeID} {gone : Nat → Int}
    (known : SORT.position B A.ids id = some k) : A.Alive B gone id ↔ gone k = -1 := by
  constructor
  · rintro ⟨j, there, alive⟩
    rw [known] at there
    cases there
    exact alive
  · exact fun alive => ⟨k, known, alive⟩

theorem liveVertex_holds (holds : Holds rules ws g A) (id : NodeID) :
    ∃ found root, g.liveVertex id =
        .ok (found, { g with vertexIndex := { g.vertexIndex with root := root } }) ∧
      Holds rules ws { g with vertexIndex := { g.vertexIndex with root := root } } A ∧
      (A.Alive ws.sum g.gone id → ∃ k v, SORT.position ws.sum A.ids id = some k ∧
        g.vertexIndex.vertexTable[k]? = some v ∧ v.idx = k ∧ found = some (k, v)) ∧
      (¬ A.Alive ws.sum g.gone id → found = none) := by
  obtain ⟨root, retrieved, dict⟩ := holds.dictionary.query g.global id
  rw [liveVertex, retrieved, ok_bind]
  cases known : SORT.position ws.sum A.ids id with
  | none =>
      refine ⟨none, root, rfl, holds.reroot dict, ?_, fun _ => rfl⟩
      rintro ⟨k, there, -⟩
      rw [known] at there
      cases there
  | some k =>
      obtain ⟨v, at_k, idx, time, -⟩ := holds.vertex (SORT.position_isLt known)
      refine ⟨if v.delTime ≠ -1 then none else some (k, v), root, ?_, holds.reroot dict, fun alive => ?_,
        fun dead => ?_⟩
      · simp [SORT.record, SORT.vertexAt, at_k]
      · rw [Ledger.alive_iff known, ← time] at alive
        exact ⟨k, v, rfl, at_k, idx, by simp [alive]⟩
      · rw [Ledger.alive_iff known, ← time] at dead
        simp [dead]

/-! ## Writing edges -/

omit [DecidableEq W] in
theorem enterVertex_gone (dict : g.vertexIndex.Dictionary ws A.ids) {id : NodeID} {k : Nat}
    (entered : g.enterVertex id = .ok (k, g')) :
    g'.gone = g.gone ∧ g'.vertexIndex.Dictionary ws (A.enter ws.sum id).ids := by
  obtain ⟨t, retrieved, dict', table⟩ := dict.enter g.global id
  rw [enterVertex, retrieved, ok_bind] at entered
  have same : g' = { g with vertexIndex := t } := by
    cases position : SORT.position ws.sum (SORT.enter ws.sum A.ids id) id with
    | none =>
        rw [position] at entered
        cases entered
    | some j =>
        rw [position] at entered
        cases entered
        rfl
  subst same
  refine ⟨funext fun j => ?_, dict'⟩
  simp only [gone, table]
  split
  · rw [List.getElem?_append]
    split
    · rfl
    · rename_i outside
      rw [List.getElem?_eq_none (Nat.not_lt.mp outside), List.getElem?_singleton]
      split <;> rfl
  · rfl

theorem insertEdge_holds (P : Platform W) (holds : Holds rules ws g A) (src des : NodeID) {weight : W}
    (allowed : rules.Tidy → weight ≠ 0 ∧ A.edge ws.sum src des = none) :
    ∃ g', g.insertEdge P src des weight = .ok (true, g') ∧
      Holds rules ws g' (A.next ws.sum (Kept.logTimestamp g'.global) (.insertEdge src des weight)) ∧
      g'.gone = g.gone ∧ g.global.ticks ≤ g'.global.ticks ∧
      g'.global.isMixedWorkloads = g.global.isMixedWorkloads := by
  obtain ⟨g₁, inserted, settled, le, mixed, -⟩ := insertEdge_spec P holds src des allowed
  rw [insertEdge_revived, map_eq_ok] at inserted
  obtain ⟨⟨b, g'⟩, inserted, same⟩ := inserted
  obtain ⟨rfl, rfl⟩ := Prod.mk.inj same
  refine ⟨g', inserted, settled, ?_, le, mixed⟩
  obtain ⟨⟨k, g₁⟩, entered, inserted⟩ := bind_eq_ok.mp inserted
  obtain ⟨⟨l, g₂⟩, entered', inserted⟩ := bind_eq_ok.mp inserted
  obtain ⟨v, -, inserted⟩ := bind_eq_ok.mp inserted
  obtain ⟨g₃, inserted, ⟨⟩⟩ := bind_eq_ok.mp inserted
  obtain ⟨first, dict⟩ := enterVertex_gone holds.dictionary entered
  obtain ⟨second, -⟩ := enterVertex_gone dict entered'
  exact (insertAt_gone P inserted).trans (second.trans first)

theorem logEdge_holds (P : Platform W) (holds : Holds rules ws g A) (src des : NodeID) (weight : W)
    (delta : Int) (permitted : ∀ k l, SORT.position ws.sum A.ids src = some k →
      SORT.position ws.sum A.ids des = some l →
      Carries.Permitted rules (replayEdges (A.hist k).edges) { weight := weight, idx := (l : Int) } delta) :
    ∃ g', g.logEdge P src des weight delta =
        .ok (decide (A.Alive ws.sum g.gone src ∧ A.Alive ws.sum g.gone des), g') ∧
      Holds rules ws g' (if A.Alive ws.sum g.gone src ∧ A.Alive ws.sum g.gone des then
        A.write ws.sum (Kept.logTimestamp g'.global) src des weight else A) ∧
      g'.gone = g.gone ∧ g.global.ticks ≤ g'.global.ticks ∧
      g'.global.isMixedWorkloads = g.global.isMixedWorkloads ∧
      (¬ (A.Alive ws.sum g.gone src ∧ A.Alive ws.sum g.gone des) →
        ∃ root, g' = { g with vertexIndex := { g.vertexIndex with root := root } }) := by
  obtain ⟨found, root, looked, holds₁, source, dead⟩ := liveVertex_holds holds src
  by_cases alive : A.Alive ws.sum g.gone src
  · obtain ⟨k, v, known, -, -, rfl⟩ := source alive
    obtain ⟨found', root', looked', holds₂, target, dead'⟩ := liveVertex_holds holds₁ des
    change (A.Alive ws.sum g.gone des → _) at target
    change (¬ A.Alive ws.sum g.gone des → _) at dead'
    by_cases alive' : A.Alive ws.sum g.gone des
    · obtain ⟨l, u, known', -, idx, rfl⟩ := target alive'
      obtain ⟨g₁, inserted, settled, le, mixed, -⟩ :=
        insertAt_spec P holds₂ known known' weight (permitted k l known known')
      rw [insertAt_revived, map_eq_ok] at inserted
      obtain ⟨g', inserted, rfl⟩ := inserted
      have same := insertAt_gone P inserted
      refine ⟨g', ?_, ?_, same, le, mixed, fun not => absurd ⟨alive, alive'⟩ not⟩
      · rw [logEdge, looked, ok_bind]
        simp only [looked', ok_bind, idx, inserted, alive, alive', and_self, decide_true]
      · rwa [if_pos ⟨alive, alive'⟩]
    · obtain rfl := dead' alive'
      refine ⟨{ g with vertexIndex := { g.vertexIndex with root := root' } }, ?_, ?_, rfl, le_rfl, rfl,
        fun _ => ⟨root', rfl⟩⟩
      · rw [logEdge, looked, ok_bind]
        simp only [looked', ok_bind, alive', and_false, decide_false]
      · rwa [if_neg fun both => alive' both.2]
  · obtain rfl := dead alive
    refine ⟨{ g with vertexIndex := { g.vertexIndex with root := root } }, ?_, ?_, rfl, le_rfl, rfl,
      fun _ => ⟨root, rfl⟩⟩
    · rw [logEdge, looked, ok_bind]
      simp only [alive, false_and, decide_false]
    · rwa [if_neg fun both => alive both.1]

/-! ## Reading -/

/-- The version that a read of vertex `k` finds, unless the vertex was deleted by then. -/
theorem neighboursAt_into (holds : Holds rules ws g A) {k : Nat} (inside : k < A.ids.length) (timestamp : Int) :
    ∃ v head snap log stamps past,
      g.vertexIndex.vertexTable[k]? = some v ∧ v.delTime = g.gone k ∧ Stored v.next head snap log stamps ∧
      stamps.isSome = g.global.isMixedWorkloads ∧
      Carries rules g.global.ticks head.deg head.snapshotTimestamp snap log stamps past (A.hist k) ∧
      ∀ neighbours, ∃ bitmap', bitmap'.Clean ∧ g.neighboursAt k neighbours timestamp =
        .ok (if g.gone k ≠ -1 ∧ g.gone k ≤ timestamp then (false, neighbours, g)
          else if head.snapshotTimestamp ≤ timestamp then
            (true, listed neighbours snap (visibleLog timestamp stamps log), { g with bitmap := bitmap' })
          else (false, neighbours, { g with bitmap := bitmap' })) := by
  obtain ⟨v, at_k, -, time, -, head, snap, log, stamps, past, stored, aligned, carries⟩ := holds.vertex inside
  have stored : Stored v.next head snap log stamps := stored
  have clean : g.bitmap.Clean := holds.clean
  have unchanged : g.vertexIndex.setVertex k v = g.vertexIndex := by
    obtain ⟨inside, rfl⟩ := List.getElem?_eq_some_iff.mp at_k
    rw [SORT.setVertex, List.set_getElem_self]
  refine ⟨v, head, snap, log, stamps, past, at_k, time, stored, aligned, carries, fun neighbours => ?_⟩
  obtain ⟨bitmap', read, clean'⟩ := getNeighboursOf_spec g.global clean stored timestamp neighbours
  refine ⟨bitmap', clean', ?_⟩
  rw [neighboursAt, SORT.vertexAt, at_k, ok_bind, ← time]
  split
  · rfl
  · rw [read, ok_bind]
    by_cases recent : head.snapshotTimestamp ≤ timestamp
    · simp only [if_pos recent, unchanged]
    · simp only [if_neg recent, unchanged]

theorem neighboursAt_holds (holds : Holds rules ws g A) {k : Nat} (inside : k < A.ids.length)
    (timestamp : Int) : ∃ v head snap log stamps past bitmap',
      g.vertexIndex.vertexTable[k]? = some v ∧ Stored v.next head snap log stamps ∧
      stamps.isSome = g.global.isMixedWorkloads ∧
      Carries rules g.global.ticks head.deg head.snapshotTimestamp snap log stamps past (A.hist k) ∧
      bitmap'.Clean ∧ g.neighboursAt k [] timestamp =
        .ok (if g.gone k ≠ -1 ∧ g.gone k ≤ timestamp then (false, [], g)
          else if head.snapshotTimestamp ≤ timestamp then
            (true, listed [] snap (visibleLog timestamp stamps log), { g with bitmap := bitmap' })
          else (false, [], { g with bitmap := bitmap' })) := by
  obtain ⟨v, head, snap, log, stamps, past, at_k, -, stored, aligned, carries, reads⟩ :=
    neighboursAt_into holds inside timestamp
  obtain ⟨bitmap', clean, read⟩ := reads []
  exact ⟨v, head, snap, log, stamps, past, bitmap', at_k, stored, aligned, carries, clean, read⟩

theorem neighboursAt_kept (holds : Holds rules ws g A) {k : Nat} (inside : k < A.ids.length)
    (timestamp : Int) : ∃ found neighbours bitmap', bitmap'.Clean ∧
      g.neighboursAt k [] timestamp = .ok (found, neighbours, { g with bitmap := bitmap' }) := by
  obtain ⟨v, head, snap, log, stamps, past, bitmap', -, -, -, -, clean, read⟩ :=
    neighboursAt_holds holds inside timestamp
  rw [read]
  split
  · exact ⟨_, _, g.bitmap, holds.clean, rfl⟩
  · split <;> exact ⟨_, _, bitmap', clean, rfl⟩

theorem Holds.rebitmap (holds : Holds rules ws g A) {bitmap : SegmentedBitmap} (clean : bitmap.Clean) :
    Holds rules ws { g with bitmap := bitmap } A :=
  ⟨holds.index, clean, holds.rate, holds.kept, holds.closed⟩

theorem getNeighbours_into (holds : Holds rules ws g A) (src : NodeID) (timestamp : Int) :
    ∃ root, { g.vertexIndex with root := root }.Dictionary ws A.ids ∧ ∀ neighbours,
      g.getNeighbours src neighbours timestamp = match SORT.position ws.sum A.ids src with
        | none => .ok (false, neighbours, { g with vertexIndex := { g.vertexIndex with root := root } })
        | some k => (g.neighboursAt k neighbours timestamp).map fun r =>
            (r.1, r.2.1, { r.2.2 with vertexIndex := { r.2.2.vertexIndex with root := root } }) := by
  obtain ⟨root, retrieved, dict⟩ := holds.dictionary.query g.global src
  refine ⟨root, dict, fun neighbours => ?_⟩
  rw [getNeighbours, retrieved, ok_bind]
  cases SORT.position ws.sum A.ids src with
  | none => rfl
  | some k => exact neighboursAt_root g root k neighbours timestamp

theorem getNeighbours_holds (holds : Holds rules ws g A) (src : NodeID) (timestamp : Int) :
    ∃ root, { g.vertexIndex with root := root }.Dictionary ws A.ids ∧
      g.getNeighbours src [] timestamp = match SORT.position ws.sum A.ids src with
        | none => .ok (false, [], { g with vertexIndex := { g.vertexIndex with root := root } })
        | some k => (g.neighboursAt k [] timestamp).map fun r =>
            (r.1, r.2.1, { r.2.2 with vertexIndex := { r.2.2.vertexIndex with root := root } }) := by
  obtain ⟨root, dict, reads⟩ := getNeighbours_into holds src timestamp
  exact ⟨root, dict, reads []⟩

/-! ## Every action -/

theorem deleteVertex_holds (holds : Holds rules ws g A) (id : NodeID) :
    ∃ g', g.deleteVertex id = .ok ((SORT.position ws.sum A.ids id).isSome, g') ∧
      Holds rules ws g' A ∧ g'.global = g.global ∧
      g'.gone = A.goneAfter ws.sum g.gone g.global.globalTimestamp (.deleteVertex id) := by
  obtain ⟨root, retrieved, dict⟩ := holds.dictionary.query g.global id
  rw [deleteVertex, SORT.deleteVertex, retrieved, ok_bind]
  cases known : SORT.position ws.sum A.ids id with
  | none =>
      refine ⟨_, rfl, holds.reroot dict, rfl, ?_⟩
      rw [Ledger.goneAfter_unknown known]
      rfl
  | some k =>
      obtain ⟨v, at_k, -, time, -⟩ := holds.vertex (SORT.position_isLt known)
      let v' : Vertex W := { v with delTime := g.global.globalTimestamp }
      let index : SORT W := { g.vertexIndex with root := root }
      have stored : index.vertexAt k = .ok v := by simp [index, SORT.vertexAt, at_k]
      have same : (index.setVertex k v').revived = index.revived := by
        obtain ⟨inside, rfl⟩ := List.getElem?_eq_some_iff.mp at_k
        have old : v'.revived = g.vertexIndex.vertexTable[k].revived := rfl
        rw [SORT.setVertex_revived, old]
        simp only [index, SORT.revived, SORT.setVertex]
        rw [← List.map_set, List.set_getElem_self]
      refine ⟨{ g with vertexIndex := index.setVertex k v' }, ?_, ?_, rfl, ?_⟩
      · change (((index.vertexAt k >>= fun v => .ok (true, index.setVertex k
          { v with delTime := g.global.globalTimestamp })) : Result (Bool × SORT W)) >>= _) = _
        rw [stored]
        rfl
      · have kept := holds.reroot dict
        unfold Holds revived at kept ⊢
        rwa [same]
      · rw [Ledger.goneAfter_known known]
        funext j
        have inside := (List.getElem?_eq_some_iff.mp at_k).1
        by_cases here : j = k
        · subst here
          simp [gone, SORT.setVertex, index, inside, v']
        · simp [gone, SORT.setVertex, index, here, Ne.symm here]

theorem createSnapshots_holds (P : Platform W) (holds : Holds rules ws g A) (sortNeighbours makeDense : Bool) :
    ∃ g', g.createSnapshots P sortNeighbours makeDense = .ok g' ∧ Holds rules ws g' A ∧ g'.gone = g.gone ∧
      g.global.ticks ≤ g'.global.ticks ∧ g'.global.isMixedWorkloads = g.global.isMixedWorkloads := by
  obtain ⟨g₁, made, settled, le, mixed⟩ := createSnapshots_spec P holds sortNeighbours makeDense
  rw [createSnapshots_revived, map_eq_ok] at made
  obtain ⟨g', made, rfl⟩ := made
  exact ⟨g', made, settled, createSnapshots_gone P _ _ made, le, mixed⟩

theorem act_holds (P : Platform W) (loose : ¬ rules.Strict) (holds : Holds rules ws g A)
    {action : Action W} (allowed : A.Admits rules ws.sum action) :
    ∃ g', act P g action = .ok g' ∧
      Holds rules ws g' (A.liveNext ws.sum g.gone (Kept.logTimestamp g'.global) action) ∧
      g'.gone = A.goneAfter ws.sum g.gone g.global.globalTimestamp action ∧
      g.global.ticks ≤ g'.global.ticks ∧
      g'.global.isMixedWorkloads = g.global.isMixedWorkloads := by
  cases action with
  | deleteVertex id =>
      obtain ⟨g', deleted, holds', global, times⟩ := deleteVertex_holds holds id
      exact ⟨g', by rw [act, deleted, ok_bind], holds', times, global ▸ le_rfl, global ▸ rfl⟩
  | getNeighboursByOffset src timestamp =>
      rw [act, getNeighboursByOffset]
      by_cases large : (g.vertexIndex.cnt : Int) ≤ src
      · exact ⟨g, by rw [if_pos large, ok_bind], holds, rfl, le_rfl, rfl⟩
      · have inside : src < A.ids.length := by
          have counted := holds.dictionary.cnt
          omega
        obtain ⟨found, neighbours, bitmap, clean, read⟩ := neighboursAt_kept holds inside timestamp
        refine ⟨{ g with bitmap := bitmap }, ?_, holds.rebitmap clean, rfl, le_rfl, rfl⟩
        rw [if_neg large, if_neg (by omega), Int.toNat_natCast, read, ok_bind]
  | op op =>
      cases op with
      | insertEdge src des weight =>
          obtain ⟨g', inserted, holds', times, le, mixed⟩ := insertEdge_holds P holds src des allowed
          exact ⟨g', by rw [act, perform, inserted, ok_bind], holds', times, le, mixed⟩
      | updateEdge src des weight =>
          obtain ⟨g', logged, holds', times, le, mixed, -⟩ := logEdge_holds P holds src des weight 0
            fun k l _ _ => .update fun exactly => absurd exactly loose
          exact ⟨g', by rw [act, perform, updateEdge, logged, ok_bind], holds', times, le, mixed⟩
      | deleteEdge src des =>
          obtain ⟨g', logged, holds', times, le, mixed, -⟩ := logEdge_holds P holds src des 0 (-1)
            fun k l _ _ => .deletion fun exactly => absurd exactly loose
          exact ⟨g', by rw [act, perform, deleteEdge, logged, ok_bind], holds', times, le, mixed⟩
      | createSnapshots sortNeighbours makeDense =>
          exact createSnapshots_holds P holds sortNeighbours makeDense
      | setExpandRate ratio =>
          refine ⟨g.setExpandRate ratio, rfl, ?_, ?_, ?_, ?_⟩
          all_goals
            unfold setExpandRate
            split
          · rename_i larger
            exact ⟨holds.index, holds.clean, larger, holds.kept, holds.closed⟩
          · exact holds
          all_goals rfl
      | getGlobalTimestamp =>
          exact ⟨_, rfl, ⟨holds.index, holds.clean, holds.rate,
            fun k v at_k => (holds.kept k v at_k).later (Nat.le_succ _), holds.closed⟩, rfl,
            Nat.le_succ _, rfl⟩
      | getNeighbours src timestamp =>
          obtain ⟨root, dict, read⟩ := getNeighbours_holds holds src timestamp
          cases known : SORT.position ws.sum A.ids src with
          | none =>
              rw [known] at read
              exact ⟨_, by rw [act, perform, read, ok_bind], holds.reroot dict, rfl, le_rfl, rfl⟩
          | some k =>
              obtain ⟨found, neighbours, bitmap, clean, direct⟩ :=
                neighboursAt_kept holds (SORT.position_isLt known) timestamp
              simp only [known, direct] at read
              exact ⟨_, by rw [act, perform, read]; rfl, (holds.reroot dict).rebitmap clean, rfl, le_rfl, rfl⟩

/-! ## Runs -/

omit [DecidableEq W] in
theorem Ledger.admits_lax [DecidableEq W] (B : Nat) (A : Ledger W) (action : Action W) :
    A.Admits .lax B action := by
  cases action with
  | op op => cases op <;> first | trivial | exact False.elim
  | deleteVertex _ | getNeighboursByOffset _ _ => trivial

theorem construct_holds (rules : Rules) (global : GlobalInfo) {index : SORT W}
    (constructed : SORT.Constructed index ws) {L : Nat} (positive : 0 < L) :
    Holds rules ws (construct global index L positive) {} := by
  have settled := construct_tracks rules global constructed positive
  have empty : index.vertexTable = [] := List.length_eq_zero_iff.mp constructed.dictionary.length
  have same : (construct global index L positive).revived = construct global index L positive := by
    have unchanged : index.revived = index := by
      rw [SORT.revived, empty, List.map_nil, ← empty]
    simp [construct, fresh, revived, unchanged]
  unfold Holds
  rwa [same]

omit [DecidableEq W] in
theorem Ledger.liveNext_extends (B : Nat) (A : Ledger W) (gone : Nat → Int) (stamp : Option Int)
    (action : Action W) : A.ids <+: (A.liveNext B gone stamp action).ids := by
  cases action with
  | op op =>
      cases op with
      | insertEdge src des weight =>
          simp only [Ledger.liveNext, Ledger.next, Ledger.write_ids]
          exact (enter_extends B A.ids src).trans (enter_extends B _ des)
      | updateEdge src des weight | deleteEdge src des =>
          simp only [Ledger.liveNext]
          split
          · exact (Ledger.write_ids (A := A) (B := B) ..).symm ▸ List.prefix_rfl
          · exact List.prefix_rfl
      | createSnapshots _ _ | setExpandRate _ | getGlobalTimestamp | getNeighbours _ _ => exact List.prefix_rfl
  | deleteVertex _ | getNeighboursByOffset _ _ => exact List.prefix_rfl

theorem actions_holds (P : Platform W) (holds : Holds .lax ws g A) (acts : List (Action W)) :
    ∃ g' A', actions P g acts = .ok g' ∧ Holds .lax ws g' A' ∧ A.ids <+: A'.ids := by
  have steps (g : RadixGraph W) (action : Action W)
      (before : ∃ A', Holds .lax ws g A' ∧ A.ids <+: A'.ids) (_ : True) :
      ∃ g', act P g action = .ok g' ∧ ∃ A', Holds .lax ws g' A' ∧ A.ids <+: A'.ids := by
    obtain ⟨A', holds, extends'⟩ := before
    obtain ⟨g', acted, holds', -⟩ := act_holds P id holds (Ledger.admits_lax ws.sum A' action)
    exact ⟨g', acted, _, holds', extends'.trans (Ledger.liveNext_extends ws.sum A' g.gone _ action)⟩
  obtain ⟨g', ran, A', holds', extends'⟩ :=
    foldlM_along steps ⟨A, holds, List.prefix_rfl⟩ (along_of_forall (fun _ _ => trivial) g acts)
  exact ⟨g', A', ran, holds', extends'⟩

end RadixGraph

end Radix
