import Radix.Graph.Amortized
import Radix.Graph.Refinement
import Radix.Graph.Schedules

/-!
# Updates take amortized constant time

The potential of a graph is the credit of all its logs. Updates add to it what they do not spend, and
snapshots, which empty the logs, only lower it as long as they leave room for new ones.
-/

namespace Radix

open Lib Lib.LastWrite Lib.Traced Tracing

variable {W : Type} [Zero W]

def Vertex.logged (v : Vertex W) : Nat :=
  match v.next with
  | [] => 0
  | head :: _ => head.logged

theorem Vertex.logged_of_next {v : Vertex W} {head : WeightedEdgeArray W} {older : List (WeightedEdgeArray W)}
    (next : v.next = head :: older) : v.logged = head.logged := by
  rw [logged, next]

namespace RadixGraph

def logged (g : RadixGraph W) : Nat := (g.vertexIndex.vertexTable.map Vertex.logged).sum

def Roomy (r : ℚ) (g : RadixGraph W) : Prop :=
  ∀ v ∈ g.vertexIndex.vertexTable, ∀ head older, v.next = head :: older → head.Roomy r

theorem sum_set {α : Type} (f : α → Nat) {xs : List α} {k : Nat} {x : α} (here : xs[k]? = some x) (y : α) :
    ((xs.set k y).map f).sum + f x = (xs.map f).sum + f y := by
  induction xs generalizing k with
  | nil => cases here
  | cons a xs ih =>
      cases k with
      | zero =>
          cases here
          simp only [List.set_cons_zero, List.map_cons, List.sum_cons]
          omega
      | succ k =>
          have rest := ih (k := k) (by simpa using here)
          simp only [List.set_cons_succ, List.map_cons, List.sum_cons]
          omega

theorem Roomy.setVertex {r : ℚ} {g g' : RadixGraph W} (roomy : g.Roomy r) {k : Nat} {v : Vertex W}
    (table : g'.vertexIndex.vertexTable = g.vertexIndex.vertexTable.set k v)
    (here : ∀ head older, v.next = head :: older → head.Roomy r) : g'.Roomy r := by
  intro u member
  rw [table] at member
  rcases List.mem_or_eq_of_mem_set member with old | rfl
  · exact roomy u old
  · exact here

variable [DecidableEq W] {ws : List Nat} {g : RadixGraph W} {A : Ledger W} {r : ℚ}

theorem enterVertex_roomy (settled : Settled .strict ws g A) (roomy : g.Roomy r) (id : NodeID) :
    ∃ k index, g.enterVertex id = .ok (k, { g with vertexIndex := index }) ∧
      SORT.position ws.sum (A.enter ws.sum id).ids id = some k ∧
      Settled .strict ws { g with vertexIndex := index } (A.enter ws.sum id) ∧
      ({ g with vertexIndex := index } : RadixGraph W).Roomy r ∧
      ({ g with vertexIndex := index } : RadixGraph W).logged = g.logged := by
  obtain ⟨k, index, entered, source, settled', -⟩ := enterVertex_spec settled id
  obtain ⟨index', retrieved, -, table⟩ := settled.index.enter g.global id
  have same : index = index' := by
    rw [enterVertex, retrieved, ok_bind] at entered
    cases found : SORT.position ws.sum (SORT.enter ws.sum A.ids id) id with
    | none =>
        rw [found] at entered
        cases entered
    | some j =>
        rw [found] at entered
        cases entered
        rfl
  subst same
  refine ⟨k, index, entered, source, settled', ?_, ?_⟩
  · intro v member
    change v ∈ index.vertexTable at member
    rw [table] at member
    split at member
    · rcases List.mem_append.mp member with old | new
      · exact roomy v old
      · intro head older next
        rw [List.mem_singleton.mp new] at next
        cases next
        simp [WeightedEdgeArray.Roomy, SORT.newArray, WeightedEdgeArray.new]
    · exact roomy v member
  · change (index.vertexTable.map Vertex.logged).sum = g.logged
    rw [table]
    split
    · simp [logged, Vertex.logged, WeightedEdgeArray.logged, SORT.newArray, WeightedEdgeArray.new]
    · rfl

theorem counted_of_carries {ticks : Nat} {head : WeightedEdgeArray W} {snap log : List (WeightedEdge W)}
    {stamps : Option (List Int)} {past h : History W} (laid : Laid head snap log stamps)
    (carries : Carries .strict ticks head.deg head.snapshotTimestamp snap log stamps past h) :
    head.deg = (compacted head snap log).length := by
  obtain ⟨l, represents, deg⟩ := carries.count trivial
  rw [deg, (represents.perm (carries.compacted laid.physicalSize trivial)).length_eq]

theorem insertAt_paid (P : Platform W) (one : 1 < r) (least : r ≤ g.expandRate) (settled : Settled .strict ws g A)
    (roomy : g.Roomy r) {k : Nat} (inside : k < A.ids.length) {l : Nat} {weight : W} {delta : Int} {g' : RadixGraph W}
    (ran : g.insertAt P k l weight delta = .ok g') :
    g'.Roomy r ∧ g'.expandRate = g.expandRate ∧
      ((Tracing.insertAt P g k l weight delta).events.length : ℚ) + credit r * g'.logged ≤
        credit r * g.logged + price r := by
  have bound : k < g.vertexIndex.vertexTable.length := by rwa [settled.index.length]
  have at_k := List.getElem?_eq_getElem bound
  obtain ⟨-, head, snap, log, stamps, past, stored, -, carries⟩ := settled.kept k _ at_k
  obtain ⟨older, next, -⟩ := stored.chain
  have vertexAt : g.vertexIndex.vertexAt k = .ok g.vertexIndex.vertexTable[k] := by rw [SORT.vertexAt, at_k]
  rw [RadixGraph.insertAt, vertexAt, ok_bind] at ran
  obtain ⟨⟨src', bitmap', info'⟩, inserted, ⟨⟩⟩ := bind_eq_ok.mp ran
  rw [← insert_result] at inserted
  obtain ⟨head', older', next', roomy', paid⟩ := insert_paid P one least g.global settled.clean stored
    (counted_of_carries stored.laid carries) (roomy _ (List.getElem_mem bound) head older next)
    (Int.natCast_nonneg l) weight delta inserted
  refine ⟨roomy.setVertex rfl fun other rest same => ?_, rfl, ?_⟩
  · rw [next'] at same
    cases same
    exact roomy'
  · have events : (Tracing.insertAt P g k l weight delta).events =
        (Tracing.insert P g.expandRate g.global g.bitmap g.vertexIndex.vertexTable[k] l weight delta).events := by
      rw [Tracing.insertAt, lift_bind_events vertexAt, bind_events inserted]
      exact List.append_nil _
    have total := sum_set Vertex.logged at_k src'
    rw [Vertex.logged_of_next next, Vertex.logged_of_next next'] at total
    have total : ((g.vertexIndex.vertexTable.set k src').map Vertex.logged).sum + head.logged =
      g.logged + head'.logged := total
    have total : ((((g.vertexIndex.vertexTable.set k src').map Vertex.logged).sum : ℕ) : ℚ) =
        g.logged + head'.logged - head.logged := by
      rw [eq_sub_iff_add_eq]
      exact_mod_cast total
    rw [events]
    change _ + credit r * (((g.vertexIndex.vertexTable.set k src').map Vertex.logged).sum : ℕ) ≤ _
    rw [total]
    linarith

theorem price_nonneg (one : 1 < r) : 0 ≤ price r := by
  have := credit_nonneg one
  rw [price]
  linarith

theorem insertEdge_paid (P : Platform W) (one : 1 < r) (least : r ≤ g.expandRate) (settled : Settled .strict ws g A)
    (roomy : g.Roomy r) {src des : NodeID} {weight : W} {b : Bool} {g' : RadixGraph W}
    (ran : g.insertEdge P src des weight = .ok (b, g')) :
    g'.Roomy r ∧ g'.expandRate = g.expandRate ∧
      ((Tracing.insertEdge P g src des weight).events.length : ℚ) + credit r * g'.logged ≤
        credit r * g.logged + price r := by
  obtain ⟨k, index, entered, source, settled₁, roomy₁, logged₁⟩ := enterVertex_roomy settled roomy src
  obtain ⟨l, index', entered', target, settled₂, roomy₂, logged₂⟩ := enterVertex_roomy settled₁ roomy₁ des
  obtain ⟨u, at_l, idx, -⟩ := settled₂.vertex target
  have at_l : index'.vertexTable[l]? = some u := at_l
  have vertexAt : index'.vertexAt l = .ok u := by rw [SORT.vertexAt, at_l]
  have inside : k < ((A.enter ws.sum src).enter ws.sum des).ids.length := by
    have here : SORT.position ws.sum ((A.enter ws.sum src).enter ws.sum des).ids src = some k := by
      rw [Ledger.enter, SORT.position_enter, source, Option.some_or]
    exact SORT.position_isLt here
  simp only [RadixGraph.insertEdge, entered, entered', vertexAt, ok_bind, idx] at ran
  obtain ⟨g₁, inserted, ⟨⟩⟩ := bind_eq_ok.mp ran
  obtain ⟨roomy', rate, paid⟩ :=
    insertAt_paid (g := { g with vertexIndex := index' }) P one least settled₂ roomy₂ inside inserted
  refine ⟨roomy', rate, ?_⟩
  have events : (Tracing.insertEdge P g src des weight).events =
      (Tracing.insertAt P { g with vertexIndex := index' } k l weight 1).events := by
    rw [Tracing.insertEdge, lift_bind_events entered]
    simp only [lift_bind_events entered', lift_bind_events vertexAt, idx]
    rw [bind_events (by rw [insertAt_result, inserted])]
    exact List.append_nil _
  rw [events, ← logged₁, ← logged₂]
  exact paid

theorem liveVertex_root (settled : Settled .strict ws g A) (id : NodeID) :
    ∃ found root, g.liveVertex id = .ok (found, { g with vertexIndex := { g.vertexIndex with root := root } }) ∧
      Settled .strict ws { g with vertexIndex := { g.vertexIndex with root := root } } A ∧
      ∀ k v, found = some (k, v) → k < A.ids.length ∧ v.idx = k := by
  obtain ⟨root, retrieved, dict⟩ := settled.index.query g.global id
  obtain ⟨found, g', looked, settled', -, source⟩ := liveVertex_spec settled id
  have same : g' = { g with vertexIndex := { g.vertexIndex with root := root } } := by
    rw [liveVertex, retrieved, ok_bind] at looked
    cases known : SORT.position ws.sum A.ids id with
    | none =>
        rw [known] at looked
        cases looked
        rfl
    | some k =>
        rw [known] at looked
        obtain ⟨v, -, looked⟩ := bind_eq_ok.mp looked
        cases looked
        rfl
  subst same
  refine ⟨found, root, looked, settled', fun k v here => ?_⟩
  cases known : SORT.position ws.sum A.ids id with
  | none =>
      rw [known] at source
      rw [source] at here
      cases here
  | some j =>
      rw [known] at source
      obtain ⟨u, -, idx, rfl⟩ := source
      cases here
      exact ⟨SORT.position_isLt known, idx⟩

theorem logEdge_paid (P : Platform W) (one : 1 < r) (least : r ≤ g.expandRate) (settled : Settled .strict ws g A)
    (roomy : g.Roomy r) {src des : NodeID} {weight : W} {delta : Int} {b : Bool} {g' : RadixGraph W}
    (ran : g.logEdge P src des weight delta = .ok (b, g')) :
    g'.Roomy r ∧ g'.expandRate = g.expandRate ∧
      ((Tracing.logEdge P g src des weight delta).events.length : ℚ) + credit r * g'.logged ≤
        credit r * g.logged + price r := by
  have free := price_nonneg one
  obtain ⟨found, root, looked, settled₁, place⟩ := liveVertex_root settled src
  rw [RadixGraph.logEdge, looked, ok_bind] at ran
  rw [Tracing.logEdge, lift_bind_events looked]
  cases found with
  | none =>
      cases ran
      refine ⟨roomy, rfl, ?_⟩
      simpa [pure, RadixGraph.logged] using free
  | some source =>
      obtain ⟨k, v⟩ := source
      obtain ⟨found', root', looked', settled₂, place'⟩ := liveVertex_root settled₁ des
      simp only [looked', ok_bind] at ran
      simp only [lift_bind_events looked']
      cases found' with
      | none =>
          cases ran
          refine ⟨roomy, rfl, ?_⟩
          simpa [pure, RadixGraph.logged] using free
      | some target =>
          obtain ⟨l, u⟩ := target
          obtain ⟨-, idx⟩ := place' l u rfl
          simp only [idx] at ran ⊢
          obtain ⟨g₁, inserted, ⟨⟩⟩ := bind_eq_ok.mp ran
          obtain ⟨roomy', rate, paid⟩ := insertAt_paid
            (g := { g with vertexIndex := { g.vertexIndex with root := root' } }) P one least settled₂ roomy
            (place k v rfl).1 inserted
          refine ⟨roomy', rate, ?_⟩
          rw [bind_events (by rw [insertAt_result, inserted])]
          simpa [pure, RadixGraph.logged] using paid

/-! ## Snapshots -/

theorem snapshotVertex_roomy (P : Platform W) (one : 1 < r) {g₀ : RadixGraph W} (least : r ≤ g₀.expandRate)
    {versioned sortNeighbours : Bool} {done : List Nat} (midway : Midway .strict ws versioned g₀ A done g)
    (roomy : g.Roomy r) {i : Nat} (inside : i < A.ids.length) {g' : RadixGraph W}
    (ran : snapshotVertex P sortNeighbours false g i = .ok g') : g'.Roomy r ∧ g'.logged ≤ g.logged := by
  have bound : i < g.vertexIndex.vertexTable.length := by rwa [midway.index.length]
  have at_i := List.getElem?_eq_getElem bound
  obtain ⟨-, head, snap, log, stamps, past, stored, -, carries⟩ := midway.kept i _ at_i
  obtain ⟨older, next, -⟩ := stored.chain
  have counted := counted_of_carries stored.laid carries
  have deg : (max head.deg 0).toNat = (compacted head snap log).length := by omega
  have rate : 1 < g.expandRate := midway.expandRate ▸ one.trans_le least
  obtain ⟨newArr, bitmap', compaction, -, laid, -, -, -, -, cap⟩ :=
    logCompaction_spec stored.laid g.global midway.clean
      (m := P.snapshotCapacity (max head.deg 0).toNat g.expandRate) (fun insertions => by
        have := P.snapshotCapacity_ge (max head.deg 0).toNat rate
        omega)
  obtain ⟨snap', same, -, laid', others⟩ := sortEdges_spec P sortNeighbours laid
  have target : snapshotArray P g.expandRate false head.deg =
      .new (P.snapshotCapacity (max head.deg 0).toNat g.expandRate) := rfl
  simp only [snapshotVertex, SORT.vertexAt, at_i, ok_bind, next, target, compaction] at ran
  cases ran
  have empty : (sortEdges P sortNeighbours newArr).logged = 0 := by
    have physical := laid'.physicalSize
    have boundary := laid'.snapshotDeg
    simp only [WeightedEdgeArray.logged, physical, boundary, List.length_nil]
    omega
  constructor
  · refine roomy.setVertex rfl fun arr rest chain => ?_
    cases chain
    have longer := P.mul_le_snapshotCapacity (max head.deg 0).toNat g.expandRate
    rw [deg] at longer cap
    rw [WeightedEdgeArray.Roomy, laid'.snapshotDeg, same.length_eq, others.cap]
    refine (mul_le_mul_of_nonneg_left (midway.expandRate ▸ least) (Nat.cast_nonneg _)).trans (longer.trans ?_)
    exact_mod_cast cap
  · have total := sum_set Vertex.logged at_i
      { g.vertexIndex.vertexTable[i] with next := sortEdges P sortNeighbours newArr :: older }
    have zero : Vertex.logged { g.vertexIndex.vertexTable[i] with next := sortEdges P sortNeighbours newArr :: older } =
      0 := empty
    rw [zero] at total
    exact (Nat.le_add_right _ _).trans total.le

theorem createSnapshots_roomy (P : Platform W) (one : 1 < r) (least : r ≤ g.expandRate)
    (settled : Settled .strict ws g A) (roomy : g.Roomy r) {sortNeighbours : Bool} {g' : RadixGraph W}
    (ran : g.createSnapshots P sortNeighbours false = .ok g') :
    g'.Roomy r ∧ g'.expandRate = g.expandRate ∧ g'.logged ≤ g.logged := by
  have perm := P.order_perm g.global g.vertexIndex.cnt
  have start : Midway .strict ws g.global.isMixedWorkloads g A [] g :=
    ⟨settled.index, settled.clean, rfl, le_rfl, rfl, fun k v at_k => by simpa using settled.kept k v at_k⟩
  obtain ⟨g₁, looped, midway, roomy', fewer⟩ := foldlM_invariant (P.order g.global g.vertexIndex.cnt)
    (fun done h => Midway .strict ws g.global.isMixedWorkloads g A done h ∧ h.Roomy r ∧ h.logged ≤ g.logged)
    (fun done i s earlier held => by
      obtain ⟨midway, roomy, fewer⟩ := held
      have member : i ∈ List.range g.vertexIndex.cnt := perm.subset (earlier.subset (by simp))
      have inside : i < A.ids.length := by rwa [List.mem_range, settled.index.cnt] at member
      obtain ⟨s', taken, midway'⟩ := snapshotVertex_spec P settled.rate sortNeighbours false midway inside
      obtain ⟨roomy', fewer'⟩ := snapshotVertex_roomy P one least midway roomy inside taken
      exact ⟨s', taken, midway', roomy', fewer'.trans fewer⟩) ⟨start, roomy, le_rfl⟩
  rw [createSnapshots, looped, ok_bind] at ran
  cases ran
  exact ⟨roomy', midway.expandRate, fewer⟩

/-! ## Runs -/

omit [Zero W] [DecidableEq W] in
def Op.Grows (r : ℚ) : Op W → Prop
  | .setExpandRate ratio => 1 < ratio → r ≤ ratio
  | .createSnapshots _ makeDense => makeDense = false
  | _ => True

/-- The operation, with a report of its accesses to edge arrays if it is an update. -/
def update (P : Platform W) (g : RadixGraph W) (op : Op W) : Tracing W (RadixGraph W) :=
  if op.writes then Tracing.act P g (.op op) else liftM (perform P g op)

def updates (P : Platform W) (g : RadixGraph W) (ops : List (Op W)) : Tracing W (RadixGraph W) :=
  ops.foldlM (update P) g

theorem update_result (P : Platform W) (g : RadixGraph W) (op : Op W) : (update P g op).result = perform P g op := by
  rw [update]
  split
  · exact act_result P g (.op op)
  · rfl

theorem updates_result (P : Platform W) (g : RadixGraph W) (ops : List (Op W)) :
    (updates P g ops).result = run P g ops := foldlM_result (update_result P) g ops

theorem getNeighbours_table (settled : Settled .strict ws g A) {src : NodeID} {timestamp : Int} {found : Bool}
    {neighbours : List (WeightedEdge W)} {g' : RadixGraph W}
    (read : g.getNeighbours src [] timestamp = .ok (found, neighbours, g')) :
    g'.vertexIndex.vertexTable = g.vertexIndex.vertexTable ∧ g'.expandRate = g.expandRate := by
  obtain ⟨root, retrieved, dict⟩ := settled.index.query g.global src
  rw [RadixGraph.getNeighbours, retrieved, ok_bind] at read
  cases known : SORT.position ws.sum A.ids src with
  | none =>
      rw [known] at read
      cases read
      exact ⟨rfl, rfl⟩
  | some k =>
      rw [known] at read
      have settled' : Settled .strict ws { g with vertexIndex := { g.vertexIndex with root := root } } A :=
        ⟨dict, settled.clean, settled.rate, settled.kept, settled.closed⟩
      obtain ⟨v, at_k, -, alive, head, snap, log, stamps, past, stored, -⟩ := settled'.vertex known
      obtain ⟨bitmap', -, started⟩ := neighboursAt_stored settled' at_k alive stored timestamp
      change RadixGraph.neighboursAt { g with vertexIndex := { g.vertexIndex with root := root } } k [] timestamp = _
        at read
      rw [started] at read
      split at read
      · cases read
        exact ⟨rfl, rfl⟩
      · cases read
        exact ⟨rfl, rfl⟩

theorem update_paid (P : Platform W) (one : 1 < r) (least : r ≤ g.expandRate) (settled : Settled .strict ws g A)
    (roomy : g.Roomy r) {op : Op W} (grows : op.Grows r) {g' : RadixGraph W} (ran : perform P g op = .ok g') :
    g'.Roomy r ∧ r ≤ g'.expandRate ∧ ((update P g op).events.length : ℚ) + credit r * g'.logged ≤
      credit r * g.logged + if op.writes then price r else 0 := by
  have unpriced {x : RadixGraph W} (fewer : x.logged ≤ g.logged) :
      ((0 : ℕ) : ℚ) + credit r * x.logged ≤ credit r * g.logged + 0 := by
    have := mul_le_mul_of_nonneg_left (Nat.cast_le (α := ℚ).mpr fewer) (credit_nonneg one)
    simpa using this
  have priced {op : Op W} (writes : op.writes = true) {x : Tracing W (Bool × RadixGraph W)} {b : Bool}
      (ran : x.result = .ok (b, g')) (same : Tracing.act P g (.op op) = x >>= fun r => pure r.2) :
      (update P g op).events = x.events := by
    rw [update, if_pos writes, same, bind_events ran]
    exact List.append_nil _
  cases op with
  | insertEdge src des weight =>
      obtain ⟨⟨b, g₁⟩, inserted, ⟨⟩⟩ := bind_eq_ok.mp ran
      obtain ⟨roomy', rate, paid⟩ := insertEdge_paid P one least settled roomy inserted
      refine ⟨roomy', rate ▸ least, ?_⟩
      rw [priced rfl ((insertEdge_result P g src des weight).trans inserted) rfl]
      exact paid
  | updateEdge src des weight =>
      obtain ⟨⟨b, g₁⟩, logged, ⟨⟩⟩ := bind_eq_ok.mp ran
      obtain ⟨roomy', rate, paid⟩ := logEdge_paid P one least settled roomy logged
      refine ⟨roomy', rate ▸ least, ?_⟩
      rw [priced rfl ((logEdge_result P g src des weight 0).trans logged) rfl]
      exact paid
  | deleteEdge src des =>
      obtain ⟨⟨b, g₁⟩, logged, ⟨⟩⟩ := bind_eq_ok.mp ran
      obtain ⟨roomy', rate, paid⟩ := logEdge_paid P one least settled roomy logged
      refine ⟨roomy', rate ▸ least, ?_⟩
      rw [priced rfl ((logEdge_result P g src des 0 (-1)).trans logged) rfl]
      exact paid
  | createSnapshots sortNeighbours makeDense =>
      have sparse : makeDense = false := grows
      subst sparse
      obtain ⟨roomy', rate, fewer⟩ := createSnapshots_roomy P one least settled roomy ran
      exact ⟨roomy', rate ▸ least, unpriced fewer⟩
  | setExpandRate ratio =>
      cases ran
      rw [setExpandRate]
      split
      · rename_i larger
        exact ⟨roomy, grows larger, unpriced le_rfl⟩
      · exact ⟨roomy, least, unpriced le_rfl⟩
  | getGlobalTimestamp =>
      cases ran
      exact ⟨roomy, least, unpriced le_rfl⟩
  | getNeighbours src timestamp =>
      obtain ⟨⟨found, neighbours, g₁⟩, read, ⟨⟩⟩ := bind_eq_ok.mp ran
      obtain ⟨table, rate⟩ := getNeighbours_table settled read
      refine ⟨?_, rate ▸ least, unpriced ?_⟩
      · rwa [Roomy, table]
      · rw [RadixGraph.logged, table]
        exact le_rfl

end RadixGraph

end Radix
