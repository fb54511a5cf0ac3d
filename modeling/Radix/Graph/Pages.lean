import Radix.Graph.Actions

/-!
# What an action does to one record

The page of a record is what its current array holds. An action that writes an edge extends one page
by a log entry, after compacting the page if it is full; `CreateSnapshots` compacts all pages.
-/

namespace Radix

open Lib Lib.LastWrite

variable {W : Type} [Zero W]

structure Page (W : Type) [Zero W] where
  snap : List (WeightedEdge W) := []
  log : List (WeightedEdge W) := []
  stamps : Option (List Int)
  deg : Int := 0
  snapshotTimestamp : Int := 0
  free : Nat

namespace Page

def size (p : Page W) : Nat := p.snap.length + p.log.length

def fresh (info : GlobalInfo) : Page W where
  stamps := info.freshStamps
  free := 8

def logged (p : Page W) (ticks : Nat) (e : WeightedEdge W) (delta : Int) : Page W :=
  { p with
    log := p.log ++ [e]
    stamps := p.stamps.map (· ++ [GlobalInfo.timestampAt ticks])
    deg := p.deg + delta
    free := p.free - 1 }

def ofSnapshot (info : GlobalInfo) (drawn : Nat) (snap : List (WeightedEdge W)) (free : Nat) : Page W where
  snap := snap
  stamps := info.freshStamps
  deg := snap.length
  snapshotTimestamp := GlobalInfo.timestampAt drawn
  free := free

def Heads (p : Page W) (chain : List (WeightedEdgeArray W)) : Prop :=
  ∃ head, Stored chain head p.snap p.log p.stamps ∧ head.deg = p.deg ∧
    head.snapshotTimestamp = p.snapshotTimestamp ∧ head.cap = p.size + p.free

theorem Heads.unique {p q : Page W} {chain : List (WeightedEdgeArray W)} (left : p.Heads chain)
    (right : q.Heads chain) : p = q := by
  obtain ⟨head, stored, deg, timestamp, cap⟩ := left
  obtain ⟨head', stored', deg', timestamp', cap'⟩ := right
  obtain ⟨older, chained, -⟩ := stored.chain
  obtain ⟨older', chained', -⟩ := stored'.chain
  obtain ⟨rfl, -⟩ := List.cons.inj (chained.symm.trans chained')
  have laid := stored.laid
  have laid' := stored'.laid
  have snap_length : p.snap.length = q.snap.length := laid.snapshotDeg.symm.trans laid'.snapshotDeg
  have log_length : p.log.length = q.log.length := by
    have := laid.physicalSize.symm.trans laid'.physicalSize
    omega
  obtain ⟨entries, -⟩ := List.append_inj (Option.some.inj (laid.edge.symm.trans laid'.edge))
    (by simp [snap_length, log_length])
  obtain ⟨snap, log⟩ := List.append_inj entries snap_length
  have stamps : p.stamps = q.stamps := by
    have same := laid.timestamp.symm.trans laid'.timestamp
    cases left : p.stamps with
    | none =>
        rw [left] at same
        cases right : q.stamps with
        | none => rfl
        | some ts => simp [right] at same
    | some ts =>
        rw [left] at same
        cases right : q.stamps with
        | none => simp [right] at same
        | some ts' =>
            rw [right] at same
            have length := (laid.stamped ts left).trans (log_length.trans (laid'.stamped ts' right).symm)
            have front := (List.append_inj (Option.some.inj same) (by simp [length])).1
            rw [List.map_injective_iff.mpr (Option.some_injective _) front]
  have free : p.free = q.free := by
    have := cap.symm.trans cap'
    simp only [size, snap_length, log_length] at this
    omega
  cases p
  cases q
  simp_all

theorem fresh_heads (info : GlobalInfo) : (fresh info : Page W).Heads [SORT.newArray info] :=
  ⟨_, Kept.newArray_stored info, rfl, rfl, rfl⟩

variable [DecidableEq W]

def kept (p : Page W) : List (WeightedEdge W) :=
  if (p.size : Int) = p.deg then p.snap ++ p.log else scan WeightedEdge.idx WeightedEdge.live p.snap p.log

def read (p : Page W) (timestamp : Int) : Bool × List (WeightedEdge W) :=
  if p.snapshotTimestamp ≤ timestamp then
    (true, listed [] p.snap (visibleLog timestamp p.stamps p.log))
  else (false, [])

/-- Writing an entry, which may compact the page first and takes its timestamps from the counter. -/
inductive Logs (info : GlobalInfo) (e : WeightedEdge W) (delta : Int) (p : Page W) (ticks' : Nat) :
    Page W → Prop
  | room : 0 < p.free → ticks' = Carries.ticksAfter p.stamps info.ticks →
      Logs info e delta p ticks' (p.logged info.ticks e delta)
  | full (drawn free : Nat) : p.free = 0 → info.ticks ≤ drawn →
      ticks' = Carries.ticksAfter info.freshStamps (drawn + 1) →
      Logs info e delta p ticks' ((ofSnapshot info drawn p.kept (free + 1)).logged (drawn + 1) e delta)

inductive Snapshot (info : GlobalInfo) (sorted : Bool) (p : Page W) (ticks' : Nat) : Page W → Prop
  | mk (drawn free : Nat) (snap : List (WeightedEdge W)) : snap.Perm p.kept →
      (sorted → snap.Pairwise fun a b => a.idx ≤ b.idx) → info.ticks ≤ drawn → drawn < ticks' →
      Snapshot info sorted p ticks' (ofSnapshot info drawn snap free)

theorem Heads.compacted {p : Page W} {chain : List (WeightedEdgeArray W)} {head : WeightedEdgeArray W}
    (stored : Stored chain head p.snap p.log p.stamps) (deg : head.deg = p.deg) :
    Radix.compacted head p.snap p.log = p.kept := by
  rw [Radix.compacted, kept, deg, stored.laid.physicalSize, size]

theorem Heads.insert (P : Platform W) {expandRate : ℚ} (rate : 1 < expandRate) (info : GlobalInfo)
    {bitmap : SegmentedBitmap} (clean : bitmap.Clean) {src : Vertex W} {p : Page W}
    (heads : p.Heads src.next) {des : Int} (nonneg : 0 ≤ des) (weight : W) (delta : Int) :
    ∃ chain bitmap' info' p', Radix.insert P expandRate info bitmap src des weight delta =
        .ok ({ src with next := chain }, bitmap', info') ∧ bitmap'.Clean ∧ p'.Heads chain ∧
      Logs info { weight := weight, idx := des } delta p info'.ticks p' := by
  obtain ⟨head, stored, deg, timestamp, cap⟩ := heads
  obtain ⟨chain, bitmap', info₁, head₁, head', snap, log, stamps, inserted, clean', prepared, stored', deg',
    timestamp', room⟩ := insert_spec P rate info clean stored nonneg weight delta
  have size : head.physicalSize = p.size := stored.laid.physicalSize
  have ticks : (if stamps.isSome then info₁.tick else info₁).ticks =
      Carries.ticksAfter stamps info₁.ticks := by
    cases stamps <;> rfl
  have bound := stored'.laid.room
  simp only [List.length_append, List.length_singleton] at bound
  let p' : Page W := {
    snap := snap
    log := log ++ [{ weight := weight, idx := des }]
    stamps := stamps.map (· ++ [info₁.globalTimestamp])
    deg := head'.deg
    snapshotTimestamp := head'.snapshotTimestamp
    free := head'.cap - (snap.length + (log.length + 1)) }
  have heads' : p'.Heads chain := ⟨head', stored', rfl, rfl, by
    simp only [p', Page.size, List.length_append, List.length_singleton]
    omega⟩
  refine ⟨chain, bitmap', _, p', inserted, clean', heads', ?_⟩
  rw [ticks]
  cases prepared with
  | room same snap_same log_same stamps_same deg_same timestamp_same =>
      subst same snap_same log_same stamps_same
      rcases room with ⟨slot, cap', -⟩ | ⟨-, later⟩
      · have free : 0 < p.free := by omega
        have left : head'.cap - (p.snap.length + (p.log.length + 1)) = p.free - 1 := by
          rw [cap', cap, Page.size]
          omega
        have shape : p' = p.logged info₁.ticks { weight := weight, idx := des } delta := by
          simp only [p', logged, left, deg', deg_same, deg, timestamp', timestamp_same, timestamp]
          rfl
        rw [shape]
        exact .room free rfl
      · exact absurd later (lt_irrefl _)
  | full more mixed snap_new log_new stamps_new deg_new timestamp_new =>
      rcases room with ⟨-, -, same⟩ | ⟨full, -⟩
      · exact absurd same more.ne'
      · rw [Heads.compacted stored deg] at snap_new
        subst snap_new log_new stamps_new
        obtain ⟨drawn, next⟩ : ∃ drawn, info₁.ticks = drawn + 1 := ⟨info₁.ticks - 1, by omega⟩
        have shape : p' = (ofSnapshot info drawn p.kept
            (head'.cap - (p.kept.length + 1) + 1)).logged (drawn + 1) { weight := weight, idx := des }
              delta := by
          simp only [p', logged, ofSnapshot, deg', deg_new, timestamp', timestamp_new, next,
            GlobalInfo.globalTimestamp]
          simp
        rw [shape, next]
        exact .full drawn _ (by omega) (by omega) rfl

theorem Heads.snapshot (P : Platform W) {expandRate : ℚ} (rate : 1 < expandRate) (info : GlobalInfo)
    {bitmap : SegmentedBitmap} (clean : bitmap.Clean) {p : Page W} {chain : List (WeightedEdgeArray W)}
    (heads : p.Heads chain) (sortNeighbours makeDense : Bool) :
    ∃ next older newArr bitmap' p', chain = next :: older ∧
      logCompaction info bitmap next (RadixGraph.snapshotArray P expandRate makeDense next.deg) =
        .ok (newArr, bitmap', info.tick) ∧ bitmap'.Clean ∧
      p'.Heads (RadixGraph.sortEdges P sortNeighbours newArr :: older) ∧
      Snapshot info sortNeighbours p (info.ticks + 1) p' := by
  obtain ⟨head, stored, deg, timestamp, cap⟩ := heads
  obtain ⟨older, chained, retired⟩ := stored.chain
  obtain ⟨newArr, bitmap', compaction, clean', laid, deg', size, timestamp', unread, -⟩ :=
    logCompaction_spec stored.laid info clean (m := if makeDense then (max head.deg 0).toNat else
      P.snapshotCapacity (max head.deg 0).toNat expandRate) (fun insertions => by
        have := P.snapshotCapacity_ge (max head.deg 0).toNat rate
        split <;> omega)
  obtain ⟨snap, same, sorted, laid', others⟩ := sortEdges_spec P sortNeighbours laid
  rw [Heads.compacted stored deg] at same
  have room := laid'.room
  rw [List.length_nil, Nat.add_zero, others.cap] at room
  refine ⟨head, older, newArr, bitmap', ofSnapshot info info.ticks snap (newArr.cap - snap.length), chained,
    compaction, clean', ⟨_, ⟨⟨older, rfl, retired⟩, laid', ?_, ?_⟩, ?_, ?_, ?_⟩,
    .mk info.ticks _ snap same sorted le_rfl (Nat.lt_succ_self _)⟩
  · rw [others.size, others.physicalSize, size]
  · rw [others.threadsRead, unread]
  · have length := laid'.physicalSize
    rw [List.length_nil, Nat.add_zero, others.physicalSize] at length
    rw [others.deg, deg', length]
    rfl
  · rw [others.snapshotTimestamp, timestamp']
    rfl
  · rw [others.cap]
    simp only [ofSnapshot, Page.size, List.length_nil]
    omega

theorem Snapshot.widen {info info' : GlobalInfo} {sorted : Bool} {p p' : Page W} {ticks ticks' : Nat}
    (snapshot : p.Snapshot info sorted ticks p') (mixed : info.isMixedWorkloads = info'.isMixedWorkloads)
    (from_then : info'.ticks ≤ info.ticks) (until_then : ticks ≤ ticks') :
    p.Snapshot info' sorted ticks' p' := by
  obtain ⟨drawn, free, snap, same, ordered, low, high⟩ := snapshot
  have shape : ofSnapshot info drawn snap free = ofSnapshot info' drawn snap free := by
    simp only [ofSnapshot, GlobalInfo.freshStamps, mixed]
  rw [shape]
  exact .mk drawn free snap same ordered (from_then.trans low) (high.trans_le until_then)

end Page

namespace Ledger

/-- The entry that an update or a deletion writes where both ends are known and not deleted. -/
def liveEntry (B : Nat) (A : Ledger W) (gone : Nat → Int) (src des : NodeID) (weight : W) (delta : Int) :
    Option (Nat × WeightedEdge W × Int) :=
  match SORT.position B A.ids src, SORT.position B A.ids des with
  | some k, some l =>
      if gone k = -1 ∧ gone l = -1 then some (k, { weight := weight, idx := (l : Int) }, delta) else none
  | _, _ => none

def entry (B : Nat) (A : Ledger W) (gone : Nat → Int) :
    RadixGraph.Action W → Option (Nat × WeightedEdge W × Int)
  | .op (.insertEdge src des weight) =>
      let ids := SORT.enter B (SORT.enter B A.ids src) des
      match SORT.position B ids src, SORT.position B ids des with
      | some k, some l => some (k, { weight := weight, idx := (l : Int) }, 1)
      | _, _ => none
  | .op (.updateEdge src des weight) => A.liveEntry B gone src des weight 0
  | .op (.deleteEdge src des) => A.liveEntry B gone src des 0 (-1)
  | _ => none

theorem liveEntry_alive {B : Nat} {A : Ledger W} {gone : Nat → Int} {src des : NodeID} {weight : W}
    {delta : Int} {k l : Nat} (source : SORT.position B A.ids src = some k) (alive : gone k = -1)
    (target : SORT.position B A.ids des = some l) (alive' : gone l = -1) :
    A.liveEntry B gone src des weight delta = some (k, { weight := weight, idx := (l : Int) }, delta) := by
  simp only [liveEntry, source, target, alive, alive', and_self, if_true]

theorem liveEntry_eq_some {B : Nat} {A : Ledger W} {gone : Nat → Int} {src des : NodeID} {weight : W}
    {delta d : Int} {k : Nat} {e : WeightedEdge W} (entry : A.liveEntry B gone src des weight delta = some (k, e, d)) :
    ∃ l : Nat, SORT.position B A.ids src = some k ∧ SORT.position B A.ids des = some l ∧ gone k = -1 ∧
      gone l = -1 ∧ e = { weight := weight, idx := (l : Int) } ∧ d = delta := by
  unfold liveEntry at entry
  split at entry
  · rename_i j l source target
    split at entry
    · rename_i alive
      cases entry
      exact ⟨l, source, target, alive.1, alive.2, rfl, rfl⟩
    · cases entry
  · cases entry

theorem insertEntry_eq_some {B : Nat} {A : Ledger W} {gone : Nat → Int} {src des : NodeID} {weight : W} {d : Int}
    {k : Nat} {e : WeightedEdge W}
    (entry : A.entry B gone (.op (.insertEdge src des weight)) = some (k, e, d)) :
    ∃ l : Nat, SORT.position B ((A.enter B src).enter B des).ids src = some k ∧
      SORT.position B ((A.enter B src).enter B des).ids des = some l ∧
      e = { weight := weight, idx := (l : Int) } ∧ d = 1 := by
  simp only [Ledger.entry] at entry
  split at entry
  · rename_i j l source target
    cases entry
    exact ⟨l, source, target, rfl, rfl⟩
  · cases entry

theorem liveEntry_dead {B : Nat} {A : Ledger W} {gone : Nat → Int} {src des : NodeID} {weight : W}
    {delta : Int} (dead : ¬ (A.Alive B gone src ∧ A.Alive B gone des)) :
    A.liveEntry B gone src des weight delta = none := by
  unfold liveEntry
  split
  · rename_i k l source target
    exact if_neg fun alive => dead ⟨⟨k, source, alive.1⟩, ⟨l, target, alive.2⟩⟩
  · rfl

end Ledger

namespace RadixGraph

def Paged (g : RadixGraph W) (k : Nat) (p : Page W) : Prop :=
  ∃ v, g.vertexIndex.vertexTable[k]? = some v ∧ p.Heads v.next

theorem Paged.unique {g : RadixGraph W} {k : Nat} {p q : Page W} (left : g.Paged k p)
    (right : g.Paged k q) : p = q := by
  obtain ⟨v, at_k, heads⟩ := left
  obtain ⟨u, at_k', heads'⟩ := right
  obtain rfl := Option.some.inj (at_k.symm.trans at_k')
  exact heads.unique heads'

theorem Paged.of_record {g g' : RadixGraph W} {k : Nat} {p : Page W}
    (same : g'.vertexIndex.vertexTable[k]? = g.vertexIndex.vertexTable[k]?) (paged : g.Paged k p) :
    g'.Paged k p := by
  obtain ⟨v, at_k, heads⟩ := paged
  exact ⟨v, same.trans at_k, heads⟩

def SameChains (g g' : RadixGraph W) : Prop :=
  ∀ j : Nat, (g'.vertexIndex.vertexTable[j]?).map Vertex.next = (g.vertexIndex.vertexTable[j]?).map Vertex.next

theorem Paged.of_chains {g g' : RadixGraph W} {k : Nat} {p : Page W} (same : SameChains g g')
    (paged : g'.Paged k p) : g.Paged k p := by
  obtain ⟨v, at_k, heads⟩ := paged
  have next := same k
  rw [at_k, Option.map_some] at next
  obtain ⟨u, at_k', equal⟩ := Option.map_eq_some_iff.mp next.symm
  exact ⟨u, at_k', equal ▸ heads⟩

variable [DecidableEq W] {rules : Rules} {ws : List Nat} {g g' : RadixGraph W} {A : Ledger W}

theorem Holds.page (holds : Holds rules ws g A) {k : Nat} (inside : k < A.ids.length) :
    ∃ p past, g.Paged k p ∧ p.stamps.isSome = g.global.isMixedWorkloads ∧
      Carries rules g.global.ticks p.deg p.snapshotTimestamp p.snap p.log p.stamps past (A.hist k) := by
  obtain ⟨v, at_k, -, -, -, head, snap, log, stamps, past, stored, aligned, carries⟩ := holds.vertex inside
  refine ⟨⟨snap, log, stamps, head.deg, head.snapshotTimestamp, head.cap - (snap.length + log.length)⟩, past,
    ⟨v, at_k, head, stored, rfl, rfl, ?_⟩, aligned, carries⟩
  have room := stored.laid.room
  simp only [Page.size]
  omega

theorem Paged.inside (holds : Holds rules ws g A) {k : Nat} {p : Page W} (paged : g.Paged k p) :
    k < A.ids.length := by
  obtain ⟨v, at_k, -⟩ := paged
  rw [← holds.dictionary.length]
  exact (List.getElem?_eq_some_iff.mp at_k).1

theorem Paged.carries (holds : Holds rules ws g A) {k : Nat} {p : Page W} (paged : g.Paged k p) :
    p.stamps.isSome = g.global.isMixedWorkloads ∧ ∃ past,
      Carries rules g.global.ticks p.deg p.snapshotTimestamp p.snap p.log p.stamps past (A.hist k) := by
  obtain ⟨q, past, paged', aligned, carries⟩ := holds.page (paged.inside holds)
  obtain rfl := paged.unique paged'
  exact ⟨aligned, past, carries⟩

theorem Paged.read (holds : Holds rules ws g A) {k : Nat} {p : Page W} (paged : g.Paged k p)
    (timestamp : Int) : ∃ bitmap', bitmap'.Clean ∧ g.neighboursAt k [] timestamp =
      .ok (if g.gone k ≠ -1 ∧ g.gone k ≤ timestamp then (false, [], g)
        else ((p.read timestamp).1, (p.read timestamp).2, { g with bitmap := bitmap' })) := by
  obtain ⟨v, head, snap, log, stamps, past, bitmap', at_k, stored, -, -, clean, read⟩ :=
    neighboursAt_holds holds (paged.inside holds) timestamp
  have room := stored.laid.room
  obtain rfl : p = ⟨snap, log, stamps, head.deg, head.snapshotTimestamp,
      head.cap - (snap.length + log.length)⟩ :=
    paged.unique ⟨v, at_k, head, stored, rfl, rfl, by simp only [Page.size]; omega⟩
  refine ⟨bitmap', clean, ?_⟩
  rw [read]
  split
  · rfl
  · simp only [Page.read]
    split <;> rfl

def answer (g : RadixGraph W) (k : Nat) (p : Page W) (timestamp : Int) : Bool × List (WeightedEdge W) :=
  if g.gone k ≠ -1 ∧ g.gone k ≤ timestamp then (false, []) else p.read timestamp

theorem Paged.readVertex (holds : Holds rules ws g A) {k : Nat} {p : Page W} (paged : g.Paged k p)
    {id : NodeID} (known : SORT.position ws.sum A.ids id = some k) (timestamp : Int) :
    g.readVertex id timestamp = .ok (g.answer k p timestamp) := by
  obtain ⟨root, -, direct⟩ := getNeighbours_holds holds id timestamp
  obtain ⟨bitmap, -, read⟩ := paged.read holds timestamp
  rw [RadixGraph.readVertex, direct, known]
  simp only [read, answer]
  split <;> rfl

theorem readVertex_unknown (holds : Holds rules ws g A) {id : NodeID}
    (unknown : SORT.position ws.sum A.ids id = none) (timestamp : Int) :
    g.readVertex id timestamp = .ok (false, []) := by
  obtain ⟨root, -, direct⟩ := getNeighbours_holds holds id timestamp
  rw [RadixGraph.readVertex, direct, unknown]
  rfl

theorem Paged.readOffset (holds : Holds rules ws g A) {k : Nat} {p : Page W} (paged : g.Paged k p)
    (timestamp : Int) : g.readOffset k timestamp = .ok (g.answer k p timestamp) := by
  obtain ⟨bitmap, -, read⟩ := paged.read holds timestamp
  have inside := paged.inside holds
  rw [← holds.dictionary.cnt] at inside
  rw [RadixGraph.readOffset, getNeighboursByOffset, if_neg (by omega), if_neg (by omega),
    Int.toNat_natCast, read, answer]
  split <;> rfl

theorem readOffset_unknown (holds : Holds rules ws g A) {k : Nat} (outside : A.ids.length ≤ k)
    (timestamp : Int) : g.readOffset k timestamp = .ok (false, []) := by
  rw [← holds.dictionary.cnt] at outside
  rw [RadixGraph.readOffset, getNeighboursByOffset, if_pos (by omega)]
  rfl

theorem getInternalID_holds (holds : Holds rules ws g A) (id : NodeID) :
    g.getInternalID id = .ok (match SORT.position ws.sum A.ids id with
      | none => -1
      | some k => if g.gone k = -1 then (k : Int) else -1) := by
  obtain ⟨found, root, looked, -, source, dead⟩ := liveVertex_holds holds id
  rw [getInternalID, looked, ok_bind]
  by_cases alive : A.Alive ws.sum g.gone id
  · obtain ⟨k, v, known, -, idx, rfl⟩ := source alive
    simp only [known, idx, if_pos ((Ledger.alive_iff known).mp alive)]
  · obtain rfl := dead alive
    cases known : SORT.position ws.sum A.ids id with
    | none => rfl
    | some k =>
        rw [Ledger.alive_iff known] at alive
        simp only [if_neg alive]

def WritesEdge (g : RadixGraph W) : Action W → Prop
  | .op (.insertEdge _ _ _) => True
  | .op (.updateEdge src des _) | .op (.deleteEdge src des) =>
      g.getInternalID src ≠ .ok (-1) ∧ g.getInternalID des ≠ .ok (-1)
  | _ => False

theorem writesEdge_of_entry (holds : Holds rules ws g A) {action : Action W}
    {written : Nat × WeightedEdge W × Int} (entry : A.entry ws.sum g.gone action = some written) :
    g.WritesEdge action := by
  have known {id : NodeID} {k : Nat} (source : SORT.position ws.sum A.ids id = some k)
      (alive : g.gone k = -1) : g.getInternalID id ≠ .ok (-1) := by
    rw [getInternalID_holds holds, source]
    simp only [if_pos alive, ne_eq, Except.ok.injEq]
    omega
  match action with
  | .op (.insertEdge _ _ _) => trivial
  | .op (.updateEdge _ _ _) | .op (.deleteEdge _ _) =>
      obtain ⟨k, e, d⟩ := written
      obtain ⟨l, source, target, alive, alive', -, -⟩ := Ledger.liveEntry_eq_some entry
      exact ⟨known source alive, known target alive'⟩

theorem Paged.insertAt (P : Platform W) {k : Nat} {p : Page W} (paged : g.Paged k p) {l : Nat} {weight : W}
    {delta : Int} (ran : g.insertAt P k l weight delta = .ok g') (clean : g.bitmap.Clean)
    (rate : 1 < g.expandRate) :
    (∃ p', g'.Paged k p' ∧
      p.Logs g.global { weight := weight, idx := (l : Int) } delta g'.global.ticks p') ∧
      ∀ j, j ≠ k → g'.vertexIndex.vertexTable[j]? = g.vertexIndex.vertexTable[j]? := by
  obtain ⟨v, at_k, heads⟩ := paged
  obtain ⟨chain, bitmap', info', p', inserted, -, heads', logs⟩ :=
    heads.insert P rate g.global clean (Int.natCast_nonneg l) weight delta
  have inside := (List.getElem?_eq_some_iff.mp at_k).1
  simp only [RadixGraph.insertAt, SORT.vertexAt, at_k, ok_bind, inserted, Except.ok.injEq] at ran
  subst ran
  refine ⟨⟨p', ⟨{ v with next := chain }, by simp [SORT.setVertex, inside], heads'⟩, logs⟩, fun j other => ?_⟩
  simp [SORT.setVertex, Ne.symm other]

/-! ## Snapshots -/

structure Snapping (sorted : Bool) (g₀ : RadixGraph W) (done : List Nat) (g : RadixGraph W) : Prop where
  clean : g.bitmap.Clean
  expandRate : g.expandRate = g₀.expandRate
  ticks : g₀.global.ticks ≤ g.global.ticks
  mixed : g.global.isMixedWorkloads = g₀.global.isMixedWorkloads
  todo : ∀ k, k ∉ done → g.vertexIndex.vertexTable[k]? = g₀.vertexIndex.vertexTable[k]?
  snapped : ∀ k ∈ done, ∀ p, g₀.Paged k p →
    ∃ p', g.Paged k p' ∧ p.Snapshot g₀.global sorted g.global.ticks p'

theorem Snapping.step (P : Platform W) {sorted : Bool} (makeDense : Bool) {g₀ : RadixGraph W}
    (rate : 1 < g₀.expandRate) (holds : Holds rules ws g₀ A) {done : List Nat} (snapping : Snapping sorted g₀ done g)
    {i : Nat} (fresh : i ∉ done) (inside : i < A.ids.length) :
    ∃ g', snapshotVertex P sorted makeDense g i = .ok g' ∧ Snapping sorted g₀ (done ++ [i]) g' := by
  obtain ⟨p, -, ⟨v, at_i, heads⟩, -, -⟩ := holds.page inside
  have here : g.vertexIndex.vertexTable[i]? = some v := (snapping.todo i fresh).trans at_i
  obtain ⟨next, older, newArr, bitmap', p', chain, compaction, clean, heads', snapshot⟩ :=
    heads.snapshot P (snapping.expandRate ▸ rate) g.global snapping.clean sorted makeDense
  have bound := (List.getElem?_eq_some_iff.mp here).1
  refine ⟨{ g with
    vertexIndex := g.vertexIndex.setVertex i { v with next := sortEdges P sorted newArr :: older }
    bitmap := bitmap', global := g.global.tick }, ?_, clean, snapping.expandRate,
    snapping.ticks.trans (Nat.le_succ _), snapping.mixed, fun k outside => ?_, fun k member q paged => ?_⟩
  · simp only [snapshotVertex, SORT.vertexAt, here, ok_bind, chain, compaction]
  · simp only [List.mem_append, List.mem_singleton, not_or] at outside
    rw [← snapping.todo k outside.1]
    simp [SORT.setVertex, Ne.symm outside.2]
  · by_cases same : k = i
    · subst same
      obtain rfl := paged.unique ⟨v, at_i, heads⟩
      exact ⟨p', ⟨{ v with next := _ }, by simp [SORT.setVertex, bound], heads'⟩,
        snapshot.widen snapping.mixed snapping.ticks le_rfl⟩
    · have before : k ∈ done := by simpa [same] using member
      obtain ⟨q', paged', earlier⟩ := snapping.snapped k before q paged
      refine ⟨q', paged'.of_record ?_, earlier.widen rfl le_rfl (Nat.le_succ _)⟩
      simp [SORT.setVertex, Ne.symm same]

theorem createSnapshots_pages (P : Platform W) (holds : Holds rules ws g A) (sorted makeDense : Bool)
    (ran : g.createSnapshots P sorted makeDense = .ok g') {k : Nat} {p : Page W} (paged : g.Paged k p) :
    ∃ p', g'.Paged k p' ∧ p.Snapshot g.global sorted g'.global.ticks p' := by
  have perm := P.order_perm g.global g.vertexIndex.cnt
  have distinct : (P.order g.global g.vertexIndex.cnt).Nodup := perm.nodup_iff.mpr List.nodup_range
  obtain ⟨g₁, looped, snapping⟩ := foldlM_invariant (P.order g.global g.vertexIndex.cnt)
    (Snapping sorted g) (fun done i s earlier snapping => by
      have member : i ∈ List.range g.vertexIndex.cnt := perm.subset (earlier.subset (by simp))
      have once := distinct.sublist earlier.sublist
      refine Snapping.step P makeDense (show 1 < g.expandRate from holds.rate) holds snapping ?_ ?_
      · exact fun again => (List.nodup_append.mp once).2.2 i again i (by simp) rfl
      · rwa [List.mem_range, holds.dictionary.cnt] at member)
    (show Snapping sorted g [] g from ⟨holds.clean, rfl, le_rfl, rfl, fun _ _ => rfl, by simp⟩)
  rw [createSnapshots, looped, ok_bind] at ran
  cases ran
  refine snapping.snapped k ?_ p paged
  rw [perm.mem_iff, List.mem_range, holds.dictionary.cnt]
  exact paged.inside holds

/-! ## One action -/

structure Entered (g : RadixGraph W) (index : SORT W) : Prop where
  old : ∀ j, j < g.vertexIndex.vertexTable.length →
    index.vertexTable[j]? = g.vertexIndex.vertexTable[j]?
  new : ∀ j v, index.vertexTable[j]? = some v → g.vertexIndex.vertexTable.length ≤ j →
    v.delTime = -1 ∧ v.next = [SORT.newArray g.global]
  length : g.vertexIndex.vertexTable.length ≤ index.vertexTable.length

omit [DecidableEq W] in
theorem enterVertex_entered {ids : List NodeID} (dict : g.vertexIndex.Dictionary ws ids) (id : NodeID) :
    ∃ k index, g.enterVertex id = .ok (k, { g with vertexIndex := index }) ∧
      SORT.position ws.sum (SORT.enter ws.sum ids id) id = some k ∧
      index.Dictionary ws (SORT.enter ws.sum ids id) ∧ Entered g index := by
  obtain ⟨index, retrieved, dict', table⟩ := dict.enter g.global id
  obtain ⟨k, found⟩ : ∃ k, SORT.position ws.sum (SORT.enter ws.sum ids id) id = some k := by
    rw [SORT.position_enter_self]
    cases old : SORT.position ws.sum ids id <;> simp
  refine ⟨k, index, by rw [enterVertex, retrieved, ok_bind, found]; rfl, found, dict',
    fun j inside => ?_, fun j v at_j outside => ?_, ?_⟩
  · rw [table]
    split
    · exact List.getElem?_append_left inside
    · rfl
  · rw [table] at at_j
    split at at_j
    · rw [List.getElem?_append_right outside] at at_j
      obtain rfl := List.mem_singleton.mp (List.mem_of_getElem? at_j)
      exact ⟨rfl, rfl⟩
    · rw [List.getElem?_eq_none outside] at at_j
      cases at_j
  · rw [table]
    split <;> simp

namespace Entered

variable {index index' : SORT W}

omit [DecidableEq W] in
theorem root (g : RadixGraph W) (root : Ptr) : Entered g { g.vertexIndex with root := root } where
  old _ _ := rfl
  new j v at_j outside := by
    rw [List.getElem?_eq_none outside] at at_j
    cases at_j
  length := le_rfl

omit [DecidableEq W] in
theorem trans (first : Entered g index) (second : Entered { g with vertexIndex := index } index') :
    Entered g index' where
  old j inside := (second.old j (inside.trans_le first.length)).trans (first.old j inside)
  new j v at_j outside := by
    by_cases between : j < index.vertexTable.length
    · exact first.new j v ((second.old j between).symm.trans at_j) outside
    · exact second.new j v at_j (Nat.not_lt.mp between)
  length := first.length.trans second.length

theorem page (entered : Entered g index) (holds : Holds rules ws g A) {j : Nat}
    (inside : j < index.vertexTable.length) :
    ∃ p, ({ g with vertexIndex := index } : RadixGraph W).Paged j p ∧
      (g.Paged j p ∨ A.ids.length ≤ j ∧ p = .fresh g.global) := by
  by_cases old : j < g.vertexIndex.vertexTable.length
  · obtain ⟨p, -, paged, -⟩ := holds.page (holds.dictionary.length ▸ old)
    exact ⟨p, paged.of_record (entered.old j old), .inl paged⟩
  · have outside := Nat.not_lt.mp old
    have at_j := List.getElem?_eq_getElem inside
    obtain ⟨-, next⟩ := entered.new j _ at_j outside
    rw [holds.dictionary.length] at outside
    exact ⟨.fresh g.global, ⟨_, at_j, next ▸ Page.fresh_heads g.global⟩, .inr ⟨outside, rfl⟩⟩

end Entered

theorem insertEdge_entered (P : Platform W) (holds : Holds rules ws g A) (src des : NodeID) (weight : W) :
    ∃ (k l : Nat) (index : SORT W),
      SORT.position ws.sum (SORT.enter ws.sum (SORT.enter ws.sum A.ids src) des) src = some k ∧
      SORT.position ws.sum (SORT.enter ws.sum (SORT.enter ws.sum A.ids src) des) des = some l ∧
      index.Dictionary ws (SORT.enter ws.sum (SORT.enter ws.sum A.ids src) des) ∧ Entered g index ∧
      g.insertEdge P src des weight = (do
        let g' ← { g with vertexIndex := index }.insertAt P k l weight 1
        .ok (true, g')) := by
  obtain ⟨k, index, first, source, dict, entered⟩ := enterVertex_entered holds.dictionary src
  obtain ⟨l, index', second, target, dict', entered'⟩ :=
    enterVertex_entered (g := { g with vertexIndex := index }) dict des
  obtain ⟨id, here, -⟩ := SORT.position_lt target
  obtain ⟨u, at_l, -, idx⟩ := dict'.vertexAt here
  refine ⟨k, l, index', ?_, target, dict', entered.trans entered', ?_⟩
  · rw [SORT.position_enter, source, Option.some_or]
  · simp only [insertEdge, first, second, ok_bind, SORT.vertexAt, at_l, idx]

/-- `UpdateEdge` and `DeleteEdge` write their entry, or find a vertex missing and do nothing. -/
theorem logEdge_cases (P : Platform W) (holds : Holds rules ws g A) (src des : NodeID) (weight : W)
    (delta : Int) {b : Bool} (ran : g.logEdge P src des weight delta = .ok (b, g')) :
    (∃ (k l : Nat) (root : Ptr), k < A.ids.length ∧
      A.liveEntry ws.sum g.gone src des weight delta = some (k, { weight := weight, idx := (l : Int) }, delta) ∧
      b = true ∧
      ({ g with vertexIndex := { g.vertexIndex with root := root } } : RadixGraph W).insertAt P k l weight delta =
        .ok g') ∨
    A.liveEntry ws.sum g.gone src des weight delta = none ∧ b = false ∧
      ∃ root, g' = { g with vertexIndex := { g.vertexIndex with root := root } } ∧ Holds rules ws g' A := by
  obtain ⟨found, root, looked, holds₁, source, dead⟩ := liveVertex_holds holds src
  rw [logEdge, looked, ok_bind] at ran
  by_cases alive : A.Alive ws.sum g.gone src
  · obtain ⟨k, v, known, -, -, rfl⟩ := source alive
    obtain ⟨found', root', looked', holds₂, target, dead'⟩ := liveVertex_holds holds₁ des
    change (A.Alive ws.sum g.gone des → _) at target
    change (¬ A.Alive ws.sum g.gone des → _) at dead'
    simp only [looked', ok_bind] at ran
    by_cases alive' : A.Alive ws.sum g.gone des
    · obtain ⟨l, u, known', -, idx, rfl⟩ := target alive'
      obtain ⟨g₁, inserted, ⟨⟩⟩ := bind_eq_ok.mp ran
      rw [idx] at inserted
      exact .inl ⟨k, l, root', SORT.position_isLt known, Ledger.liveEntry_alive known
        ((Ledger.alive_iff known).mp alive) known' ((Ledger.alive_iff known').mp alive'), rfl, inserted⟩
    · obtain rfl := dead' alive'
      cases ran
      exact .inr ⟨Ledger.liveEntry_dead fun both => alive' both.2, rfl, root', rfl, holds₂⟩
  · obtain rfl := dead alive
    cases ran
    exact .inr ⟨Ledger.liveEntry_dead fun both => alive both.1, rfl, root, rfl, holds₁⟩

theorem deleteVertex_chains (holds : Holds rules ws g A) (id : NodeID) {b : Bool}
    (ran : g.deleteVertex id = .ok (b, g')) :
    SameChains g g' ∧ g'.global = g.global ∧ g'.isSorted = g.isSorted := by
  obtain ⟨root, retrieved, dict⟩ := holds.dictionary.query g.global id
  rw [deleteVertex, SORT.deleteVertex, retrieved, ok_bind] at ran
  cases known : SORT.position ws.sum A.ids id with
  | none =>
      rw [known] at ran
      cases ran
      exact ⟨fun _ => rfl, rfl, rfl⟩
  | some k =>
      obtain ⟨v, at_k, -⟩ := holds.vertex (SORT.position_isLt known)
      have inside := (List.getElem?_eq_some_iff.mp at_k).1
      simp only [known, SORT.record, SORT.vertexAt, at_k, ok_bind, Except.ok.injEq, Prod.mk.injEq] at ran
      obtain ⟨-, rfl⟩ := ran
      refine ⟨fun j => ?_, rfl, rfl⟩
      simp only [SORT.setVertex, List.getElem?_set]
      by_cases here : k = j
      · subst here
        rw [if_pos rfl, if_pos inside, at_k]
        rfl
      · rw [if_neg here]

theorem neighboursAt_index (holds : Holds rules ws g A) {k : Nat} (inside : k < A.ids.length)
    {timestamp : Int} {found : Bool} {neighbours : List (WeightedEdge W)}
    (ran : g.neighboursAt k [] timestamp = .ok (found, neighbours, g')) :
    g'.vertexIndex = g.vertexIndex ∧ g'.global = g.global ∧ g'.isSorted = g.isSorted := by
  obtain ⟨found', neighbours', bitmap, -, read⟩ := neighboursAt_kept holds inside timestamp
  rw [read] at ran
  cases ran
  exact ⟨rfl, rfl, rfl⟩

inductive Taken (P : Platform W) (g g' : RadixGraph W) (action : Action W) :
    Option (Nat × WeightedEdge W × Int) → Prop
  | wrote (k l : Nat) (weight : W) (delta : Int) (index : SORT W) :
      (∀ sorted makeDense, action ≠ .op (.createSnapshots sorted makeDense)) →
      k < index.vertexTable.length → Entered g index →
      ({ g with vertexIndex := index } : RadixGraph W).insertAt P k l weight delta = .ok g' →
      Taken P g g' action (some (k, { weight := weight, idx := (l : Int) }, delta))
  | snapshots (sorted makeDense : Bool) : action = .op (.createSnapshots sorted makeDense) →
      g.createSnapshots P sorted makeDense = .ok g' → Taken P g g' action none
  | quiet : (∀ sorted makeDense, action ≠ .op (.createSnapshots sorted makeDense)) → SameChains g g' →
      g.global.ticks ≤ g'.global.ticks → g'.isSorted = g.isSorted → Taken P g g' action none

theorem act_cases (P : Platform W) (holds : Holds rules ws g A) {action : Action W}
    (ran : act P g action = .ok g') : Taken P g g' action (A.entry ws.sum g.gone action) := by
  have logged {src des : NodeID} {weight : W} {delta : Int} {action : Action W} {b : Bool}
      (calm : ∀ sorted makeDense, action ≠ .op (.createSnapshots sorted makeDense))
      (ran : g.logEdge P src des weight delta = .ok (b, g')) :
      Taken P g g' action (A.liveEntry ws.sum g.gone src des weight delta) := by
    rcases logEdge_cases P holds src des weight delta ran with
      ⟨k, l, root, inside, entry, -, inserted⟩ | ⟨silent, -, root, rfl, -⟩
    · rw [entry]
      rw [← holds.dictionary.length] at inside
      exact .wrote k l weight delta { g.vertexIndex with root := root } calm inside (.root g root) inserted
    · rw [silent]
      exact .quiet calm (fun _ => rfl) le_rfl rfl
  cases action with
  | deleteVertex id =>
      obtain ⟨⟨b, g₁⟩, deleted, ⟨⟩⟩ := bind_eq_ok.mp ran
      obtain ⟨chains, global, sorted⟩ := deleteVertex_chains holds id deleted
      exact .quiet (by simp) chains (global ▸ le_rfl) sorted
  | getNeighboursByOffset src timestamp =>
      obtain ⟨⟨found, neighbours, g₁⟩, read, ⟨⟩⟩ := bind_eq_ok.mp ran
      rw [getNeighboursByOffset] at read
      split at read
      · cases read
        exact .quiet (by simp) (fun _ => rfl) le_rfl rfl
      · rename_i small
        rw [if_neg (by omega), Int.toNat_natCast] at read
        have inside : src < A.ids.length := by
          have := holds.dictionary.cnt
          omega
        obtain ⟨index, global, sorted⟩ := neighboursAt_index holds inside read
        exact .quiet (by simp) (fun _ => by rw [index]) (global ▸ le_rfl) sorted
  | op op =>
      cases op with
      | insertEdge src des weight =>
          obtain ⟨⟨b, g₁⟩, inserted, ⟨⟩⟩ := bind_eq_ok.mp ran
          obtain ⟨k, l, index, source, target, dict, entered, direct⟩ :=
            insertEdge_entered P holds src des weight
          rw [direct] at inserted
          obtain ⟨g₂, inserted, ⟨⟩⟩ := bind_eq_ok.mp inserted
          simp only [Ledger.entry, source, target]
          exact .wrote k l weight 1 index (by simp) (dict.length ▸ SORT.position_isLt source) entered inserted
      | updateEdge src des weight =>
          obtain ⟨⟨b, g₁⟩, ran, ⟨⟩⟩ := bind_eq_ok.mp ran
          exact logged (by simp) ran
      | deleteEdge src des =>
          obtain ⟨⟨b, g₁⟩, ran, ⟨⟩⟩ := bind_eq_ok.mp ran
          exact logged (by simp) ran
      | createSnapshots sorted makeDense => exact .snapshots sorted makeDense rfl ran
      | setExpandRate ratio =>
          cases ran
          refine .quiet (by simp) (fun _ => ?_) ?_ ?_
          all_goals
            unfold setExpandRate
            split <;> rfl
      | getGlobalTimestamp =>
          cases ran
          exact .quiet (by simp) (fun _ => rfl) (Nat.le_succ _) rfl
      | getNeighbours src timestamp =>
          obtain ⟨⟨found, neighbours, g₁⟩, read, ⟨⟩⟩ := bind_eq_ok.mp ran
          obtain ⟨root, -, direct⟩ := getNeighbours_holds holds src timestamp
          rw [direct] at read
          cases known : SORT.position ws.sum A.ids src with
          | none =>
              rw [known] at read
              cases read
              exact .quiet (by simp) (fun _ => rfl) le_rfl rfl
          | some k =>
              rw [known, map_eq_ok] at read
              obtain ⟨⟨b, l, g₂⟩, read, ⟨⟩⟩ := read
              obtain ⟨index, global, sorted⟩ := neighboursAt_index holds (SORT.position_isLt known) read
              exact .quiet (by simp) (fun _ => by simp only [index]) (by simp only [global, le_rfl]) sorted

inductive Turned (entry : Option (Nat × WeightedEdge W × Int)) (action : Action W) (info : GlobalInfo)
    (ticks' k : Nat) (p : Page W) : Page W → Prop
  | logs (e : WeightedEdge W) (delta : Int) (p' : Page W) : entry = some (k, e, delta) →
      p.Logs info e delta ticks' p' → Turned entry action info ticks' k p p'
  | snapshot (sorted makeDense : Bool) (p' : Page W) : action = .op (.createSnapshots sorted makeDense) →
      p.Snapshot info sorted ticks' p' → Turned entry action info ticks' k p p'
  | same : (∀ e delta, entry ≠ some (k, e, delta)) →
      (∀ sorted makeDense, action ≠ .op (.createSnapshots sorted makeDense)) →
      Turned entry action info ticks' k p p

theorem act_pages (P : Platform W) (holds : Holds rules ws g A) {action : Action W}
    (ran : act P g action = .ok g') {j : Nat} {p' : Page W} (paged : g'.Paged j p') :
    ∃ p, (g.Paged j p ∨ A.ids.length ≤ j ∧ p = .fresh g.global) ∧
      Turned (A.entry ws.sum g.gone action) action g.global g'.global.ticks j p p' := by
  have taken := act_cases P holds ran
  generalize A.entry ws.sum g.gone action = entry at taken ⊢
  cases taken with
  | wrote k l weight delta index calm inside entered inserted =>
      obtain ⟨p, at_k, before⟩ := entered.page holds inside
      obtain ⟨⟨q, at_k', logs⟩, others⟩ := at_k.insertAt P inserted holds.clean holds.rate
      by_cases here : j = k
      · subst here
        obtain rfl := paged.unique at_k'
        exact ⟨p, before, .logs _ _ _ rfl logs⟩
      · have still := paged.of_record (others j here).symm
        obtain ⟨v, at_j, -⟩ := still
        obtain ⟨q', paged', before'⟩ := entered.page holds (List.getElem?_eq_some_iff.mp at_j).1
        obtain rfl := (paged.of_record (others j here).symm).unique paged'
        exact ⟨p', before', .same (fun e d same => here (by cases same; rfl)) calm⟩
  | snapshots sorted makeDense same made =>
      have inside : j < A.ids.length := by
        obtain ⟨g₁, made', holds', -⟩ := createSnapshots_holds P holds sorted makeDense
        obtain rfl := Except.ok.inj (made'.symm.trans made)
        exact paged.inside holds'
      obtain ⟨p, past, before, -, -⟩ := holds.page inside
      obtain ⟨q, paged', snapshot⟩ := createSnapshots_pages P holds sorted makeDense made before
      obtain rfl := paged.unique paged'
      exact ⟨p, .inl before, .snapshot sorted makeDense _ same snapshot⟩
  | quiet calm chains le sorted =>
      exact ⟨p', .inl (paged.of_chains chains), .same (by simp) calm⟩

end RadixGraph

end Radix
