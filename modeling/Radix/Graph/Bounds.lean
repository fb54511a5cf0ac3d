import Radix.Graph.Accesses
import Radix.Graph.Pages

/-!
# Accesses stay in bounds
-/

namespace Radix

open Lib Lib.LastWrite Lib.Traced

variable {W : Type} [Zero W]

def Access.InBounds : Access W → Prop
  | .load arr i => i < arr.physicalSize ∧ ∃ e, arr.read i = .ok e ∧ 0 ≤ e.idx
  | .loadTarget num arr i => i < num ∧ num ≤ arr.cap
  | .store arr i => i < arr.cap
  | .stamp arr k => 0 ≤ k ∧ k < (arr.cap : Int) - arr.snapshotDeg

/-- An array between operations: as many slots claimed as written, and none beyond the allocation. -/
structure WeightedEdgeArray.Bounded (arr : WeightedEdgeArray W) : Prop where
  snapshotDeg : arr.snapshotDeg ≤ arr.physicalSize
  size : arr.physicalSize = arr.size
  cap : arr.size ≤ arr.cap
  allocated : ∃ edges, arr.edge = some edges ∧ edges.length = arr.cap

section Laid

variable {arr : WeightedEdgeArray W} {snap log : List (WeightedEdge W)} {stamps : Option (List Int)}

theorem Laid.load (laid : Laid arr snap log stamps) {i : Nat} (written : i < arr.physicalSize) :
    (Access.load arr i).InBounds := by
  refine ⟨written, ?_⟩
  rw [laid.physicalSize, ← List.length_append] at written
  have at_i := List.getElem?_eq_getElem written
  exact ⟨_, laid.readable i _ at_i, laid.indexed _ (List.getElem_mem written)⟩

theorem Laid.snapshotDeg_le (laid : Laid arr snap log stamps) : arr.snapshotDeg ≤ arr.physicalSize := by
  rw [laid.snapshotDeg, laid.physicalSize]
  exact Nat.le_add_right ..

theorem Laid.physicalSize_le (laid : Laid arr snap log stamps) : arr.physicalSize ≤ arr.cap :=
  laid.physicalSize ▸ laid.room

theorem Laid.stampInBounds (laid : Laid arr snap log stamps) {k : Nat}
    (inside : k < arr.physicalSize - arr.snapshotDeg) : (Access.stamp arr k).InBounds := by
  have room := laid.physicalSize_le
  exact ⟨Int.natCast_nonneg k, by omega⟩

end Laid

theorem Stored.bounded {chain : List (WeightedEdgeArray W)} {head : WeightedEdgeArray W}
    {snap log : List (WeightedEdge W)} {stamps : Option (List Int)}
    (stored : Stored chain head snap log stamps) : head.Bounded where
  snapshotDeg := stored.laid.snapshotDeg_le
  size := stored.size.symm
  cap := stored.size ▸ stored.laid.physicalSize_le
  allocated := by
    have room := stored.laid.room
    refine ⟨_, stored.laid.edge, ?_⟩
    simp only [List.length_append, List.length_replicate]
    omega

theorem store_cap {arr arr' : WeightedEdgeArray W} {i : Nat} {e : WeightedEdge W}
    (stored : arr.store i e = .ok arr') : arr'.cap = arr.cap := by
  unfold WeightedEdgeArray.store at stored
  split at stored
  · cases stored
  · split at stored
    · cases stored
      rfl
    · cases stored

theorem copyEdges_cap {src dst dst' : WeightedEdgeArray W} {i n : Nat}
    (copied : copyEdges src dst i n = .ok dst') : dst'.cap = dst.cap := by
  induction n generalizing i dst with
  | zero =>
      cases copied
      rfl
  | succ n ih =>
      obtain ⟨e, -, copied⟩ := bind_eq_ok.mp copied
      obtain ⟨arr, stored, copied⟩ := bind_eq_ok.mp copied
      exact (ih copied).trans (store_cap stored)

namespace Tracing

/-! ## Compaction -/

theorem read_within {load : WeightedEdgeArray W → Nat → Access W} {arr : WeightedEdgeArray W} {i : Nat}
    (inside : (load arr i).InBounds) : (read load arr i).Within Access.InBounds :=
  within_bind (within_report (by simpa using inside)) fun _ _ => within_liftM _

theorem store_within {arr : WeightedEdgeArray W} {i : Nat} (inside : i < arr.cap) (e : WeightedEdge W) :
    (store arr i e).Within Access.InBounds :=
  within_bind (within_report (by simpa [Access.InBounds] using inside)) fun _ _ => within_liftM _

theorem copyEdges_within {load : WeightedEdgeArray W → Nat → Access W} {src dst : WeightedEdgeArray W}
    {i n : Nat} (loads : ∀ j < i + n, (load src j).InBounds) (room : i + n ≤ dst.cap) :
    (copyEdges load src dst i n).Within Access.InBounds := by
  induction n generalizing i dst with
  | zero => exact within_pure dst
  | succ n ih =>
      rw [copyEdges]
      apply within_bind (read_within (loads i (by omega)))
      intro e _
      apply within_bind (store_within (by omega) e)
      intro dst' stored
      apply ih
      · intro j inside
        exact loads j (by omega)
      · rw [store_cap stored]
        omega

theorem pushCompacted_within {acc : WeightedEdgeArray W × Nat} (room : acc.2 ≤ acc.1.cap)
    (e : WeightedEdge W) : (pushCompacted acc e).Within Access.InBounds ∧
      ∀ acc', (pushCompacted acc e).result = .ok acc' → acc'.2 ≤ acc'.1.cap := by
  obtain ⟨arr, num⟩ := acc
  have last {arr' : WeightedEdgeArray W} (more : num < arr'.cap) :
      (store arr' num e >>= fun newArr => pure (newArr, num + 1)).Within Access.InBounds ∧
        ∀ acc', (store arr' num e >>= fun newArr => pure (newArr, num + 1)).result = .ok acc' →
          acc'.2 ≤ acc'.1.cap := by
    constructor
    · exact within_bind (store_within more e) fun _ _ => within_pure _
    · intro acc' taken
      rw [bind_result, store_result] at taken
      obtain ⟨arr'', stored, ⟨⟩⟩ := bind_eq_ok.mp taken
      rwa [← store_cap stored] at more
  rw [pushCompacted]
  split
  · have grown {arr' : WeightedEdgeArray W}
        (taken : (copyEdges (.loadTarget num) arr (.new (num + 8)) 0 num).result = .ok arr') :
        num < arr'.cap := by
      rw [copyEdges_result] at taken
      rw [copyEdges_cap taken]
      exact Nat.lt_add_of_pos_right (by omega)
    constructor
    · refine within_bind ?_ fun arr' taken => (last (grown taken)).1
      apply copyEdges_within
      · intro j inside
        exact ⟨by omega, room⟩
      · simp [WeightedEdgeArray.new]
    · intro acc' taken
      rw [bind_result] at taken
      obtain ⟨arr', copied, taken⟩ := bind_eq_ok.mp taken
      exact (last (grown copied)).2 acc' taken
  · rename_i more
    exact last (Nat.not_le.mp more)

theorem clearMarks_within {skipUnwritten : Bool} {arr : WeightedEdgeArray W} {i n : Nat}
    {bitmap : SegmentedBitmap} (loads : ∀ j < i + n, (Access.load arr j).InBounds) :
    (clearMarks skipUnwritten arr i n bitmap).Within Access.InBounds := by
  induction n generalizing i bitmap with
  | zero => exact within_pure bitmap
  | succ n ih =>
      have later (j : Nat) (inside : j < i + 1 + n) : (Access.load arr j).InBounds := loads j (by omega)
      rw [clearMarks]
      apply within_bind (read_within (loads i (by omega)))
      intro e _
      split
      · exact ih later
      · exact within_lift_bind fun bit _ => ih later

variable [DecidableEq W]

theorem backwardScan_within {σ : Type} {push : σ → WeightedEdge W → Tracing W σ} {holds : σ → Prop}
    (pushes : ∀ acc e, holds acc → (push acc e).Within Access.InBounds ∧
      ∀ acc', (push acc e).result = .ok acc' → holds acc')
    {skipUnwritten : Bool} {arr : WeightedEdgeArray W} {n : Nat}
    (loads : ∀ i < n, (Access.load arr i).InBounds) {acc : σ} (start : holds acc)
    {bitmap : SegmentedBitmap} :
    (backwardScan push skipUnwritten arr n acc bitmap).Within Access.InBounds := by
  induction n generalizing acc bitmap with
  | zero => exact within_pure _
  | succ i ih =>
      have earlier (j : Nat) (inside : j < i) : (Access.load arr j).InBounds := loads j (by omega)
      rw [backwardScan]
      apply within_bind (read_within (loads i (by omega)))
      intro e _
      split
      · exact ih earlier start
      · apply within_lift_bind
        intro bit _
        split
        · exact ih earlier start
        · by_cases live : e.live
          · simp only [if_pos live]
            obtain ⟨here, keeps⟩ := pushes acc e start
            exact within_bind here fun acc' pushed => ih earlier (keeps acc' pushed)
          · simp only [if_neg live]
            apply within_bind (within_pure acc)
            intro acc' same
            cases same
            exact ih earlier start

section Compaction

variable {arr : WeightedEdgeArray W} {snap log : List (WeightedEdge W)} {stamps : Option (List Int)}

/-- The unchecked copy runs only where the degree is the number of entries, and then the capacity,
which is computed from the degree, is large enough. -/
theorem compactEdges_within (laid : Laid arr snap log stamps) {newArr : WeightedEdgeArray W}
    (room : (arr.physicalSize : Int) = arr.deg → arr.physicalSize ≤ newArr.cap) (bitmap : SegmentedBitmap) :
    (compactEdges bitmap arr newArr).Within Access.InBounds := by
  rw [compactEdges]
  split
  · rename_i insertions
    refine within_bind ?_ fun _ _ => within_pure _
    apply copyEdges_within
    · intro j inside
      exact laid.load (by omega)
    · rw [Nat.zero_add]
      exact room insertions
  · have within : (backwardScan pushCompacted false arr arr.physicalSize (newArr, 0) bitmap).Within
        Access.InBounds :=
      backwardScan_within (fun acc e room => pushCompacted_within room e)
        (fun i inside => laid.load inside) (Nat.zero_le _)
    apply within_bind within
    rintro ⟨acc, marked⟩ _
    refine within_bind ?_ fun _ _ => within_pure _
    apply clearMarks_within
    intro j inside
    have below := laid.snapshotDeg_le
    exact laid.load (by omega)

theorem logCompaction_within (laid : Laid arr snap log stamps) {m : Nat}
    (room : (arr.physicalSize : Int) = arr.deg → arr.physicalSize ≤ m) (info : GlobalInfo)
    (bitmap : SegmentedBitmap) :
    (logCompaction info bitmap arr (.new m)).Within Access.InBounds :=
  within_bind (compactEdges_within laid room bitmap) fun _ _ => within_pure _

end Compaction

/-! ## Insert -/

theorem expand_within (P : Platform W) {expandRate : ℚ} (rate : 1 < expandRate) (info : GlobalInfo)
    (bitmap : SegmentedBitmap) {head : WeightedEdgeArray W} {snap log : List (WeightedEdge W)}
    {stamps : Option (List Int)} (laid : Laid head snap log stamps) (older : List (WeightedEdgeArray W)) :
    (expand P expandRate info bitmap (head :: older)).Within Access.InBounds := by
  have enough := P.capacity_ge (max head.deg 0).toNat (head.size - head.cap + 1) rate
  rw [expand]
  split
  · exact within_fail _
  · exact within_bind (logCompaction_within laid (by omega) info bitmap) fun _ _ => within_pure _

theorem claimSlot_within (P : Platform W) {expandRate : ℚ} (rate : 1 < expandRate) (rounds : Nat)
    (info : GlobalInfo) {bitmap : SegmentedBitmap} (clean : bitmap.Clean)
    {chain : List (WeightedEdgeArray W)} {head : WeightedEdgeArray W} {snap log : List (WeightedEdge W)}
    {stamps : Option (List Int)} (stored : Stored chain head snap log stamps) :
    (claimSlot P expandRate rounds info bitmap chain).Within Access.InBounds := by
  induction rounds generalizing info bitmap chain head snap log stamps with
  | zero => exact within_fail _
  | succ rounds ih =>
      obtain ⟨older, rfl, retired⟩ := stored.chain
      rw [claimSlot]
      split
      · exact within_pure _
      · rename_i full
        have bound := stored.laid.physicalSize_le
        rw [stored.size] at full
        obtain ⟨chain', head', bitmap', expanded, clean', stored', -⟩ := expand_spec P rate info clean
          stored.laid.claim retired stored.threadsRead (show head.physicalSize = head.cap by omega)
        apply within_bind (expand_within P rate info bitmap stored.laid.claim older)
        intro r taken
        rw [expand_result, expanded] at taken
        cases taken
        exact ih info.tick clean' stored'

theorem insert_within (P : Platform W) {expandRate : ℚ} (rate : 1 < expandRate) (info : GlobalInfo)
    {bitmap : SegmentedBitmap} (clean : bitmap.Clean) {src : Vertex W} {head : WeightedEdgeArray W}
    {snap log : List (WeightedEdge W)} {stamps : Option (List Int)}
    (stored : Stored src.next head snap log stamps) (des : Int) (weight : W) (delta : Int) :
    (insert P expandRate info bitmap src des weight delta).Within Access.InBounds := by
  obtain ⟨chain', head', bitmap', info', snap', log', stamps', claim, -, claimed, -⟩ :=
    claimSlot_spec P rate info clean stored
  apply within_bind (claimSlot_within P rate insertRounds info clean stored)
  intro r taken
  rw [claimSlot_result, claim] at taken
  cases taken
  obtain ⟨older, rfl, -⟩ := claimed.chain
  have slot := claimed.slot
  have below := claimed.laid.snapshotDeg_le
  have stamped := stampSlot_spec claimed.laid info' slot
  apply within_bind
  · rw [stampSlot]
    split
    · exact within_pure _
    · refine within_bind (within_report ?_) fun _ _ => within_liftM _
      simp only [List.mem_singleton, forall_eq, Access.InBounds]
      omega
  · intro r taken
    rw [stampSlot_result, stamped] at taken
    cases taken
    refine within_bind (store_within ?_ _) fun _ _ => within_pure _
    exact slot

/-! ## GetNeighbours -/

section GetNeighbours

variable {arr : WeightedEdgeArray W} {snap log : List (WeightedEdge W)} {stamps : Option (List Int)}

omit [DecidableEq W] in
theorem copyOut_within {i n : Nat} (loads : ∀ j < i + n, (Access.load arr j).InBounds)
    (neighbours : List (WeightedEdge W)) : (copyOut arr i n neighbours).Within Access.InBounds := by
  induction n generalizing i neighbours with
  | zero => exact within_pure neighbours
  | succ n ih =>
      rw [copyOut]
      apply within_bind (read_within (loads i (by omega)))
      intro e _
      apply ih
      intro j inside
      exact loads j (by omega)

omit [DecidableEq W] in
theorem copySnapshot_within (laid : Laid arr snap log stamps) {n : Nat} (written : n ≤ arr.physicalSize)
    (neighbours : List (WeightedEdge W)) : (copySnapshot arr n neighbours).Within Access.InBounds :=
  copyOut_within (fun j inside => laid.load (by omega)) _

omit [DecidableEq W] in
theorem cutLog_within (laid : Laid arr snap log stamps) (timestamp : Int) {n : Nat}
    (inside : n ≤ arr.physicalSize - arr.snapshotDeg) (neighbours : List (WeightedEdge W)) :
    (cutLog arr timestamp n neighbours).Within Access.InBounds := by
  induction n with
  | zero => exact within_pure _
  | succ k ih =>
      rw [cutLog]
      apply within_bind (within_report (by simpa using laid.stampInBounds inside))
      intro _ _
      apply within_lift_bind
      intro stamp _
      split
      · exact within_pure _
      · split
        · exact within_bind (copySnapshot_within laid laid.snapshotDeg_le neighbours) fun _ _ => within_pure _
        · exact ih (by omega)

theorem readArray_within (laid : Laid arr snap log stamps) (bitmap : SegmentedBitmap) (timestamp : Int)
    (neighbours : List (WeightedEdge W)) :
    (readArray bitmap arr timestamp neighbours).Within Access.InBounds := by
  rw [readArray]
  split
  · rename_i more
    have some_log : log ≠ [] := by
      rintro rfl
      rw [laid.snapshotDeg, laid.physicalSize] at more
      exact Nat.lt_irrefl _ more
    apply within_bind
    · rw [visibleSlots]
      split
      · exact within_pure _
      · exact cutLog_within laid timestamp le_rfl neighbours
    · intro r taken
      -- the cut lies within the log
      have few : r.1 ≤ arr.physicalSize := by
        obtain ⟨later, split⟩ := visibleLog_prefix timestamp stamps log
        have length := congrArg List.length split
        rw [List.length_append] at length
        rw [visibleSlots_result, visibleSlots_spec laid some_log] at taken
        have size := laid.physicalSize
        split at taken
        · cases taken
          exact Nat.zero_le _
        · cases taken
          simp only
          omega
      obtain ⟨cnt, neighbours⟩ := r
      have loads (i : Nat) (inside : i < cnt) : (Access.load arr i).InBounds :=
        laid.load (inside.trans_le few)
      have pushes (acc : List (WeightedEdge W)) (e : WeightedEdge W) (_ : True) :
          (pure (acc ++ [e]) : Tracing W _).Within Access.InBounds ∧
            ∀ acc', (pure (acc ++ [e]) : Tracing W _).result = .ok acc' → True :=
        ⟨within_pure _, fun _ _ => trivial⟩
      apply within_bind (backwardScan_within pushes loads trivial)
      rintro ⟨neighbours, bitmap⟩ _
      refine within_bind ?_ fun _ _ => within_pure _
      apply clearMarks_within
      intro j inside
      have below := laid.snapshotDeg_le
      exact laid.load (by omega)
  · exact within_bind (copySnapshot_within laid le_rfl neighbours) fun _ _ => within_pure _

theorem getNeighboursOf_within {src : Vertex W} {head : WeightedEdgeArray W}
    (stored : Stored src.next head snap log stamps) (info : GlobalInfo) (bitmap : SegmentedBitmap)
    (timestamp : Int) (neighbours : List (WeightedEdge W)) :
    (getNeighboursOf info bitmap src neighbours timestamp).Within Access.InBounds := by
  obtain ⟨older, chain, retired⟩ := stored.chain
  rw [getNeighboursOf]
  split
  · exact within_pure _
  · rename_i k found
    obtain ⟨inside, readable, -⟩ := List.findIdx?_eq_some_iff_getElem.mp found
    have current : k = 0 := by
      cases k with
      | zero => rfl
      | succ k =>
          have bound : k < older.length := by simpa [chain] using inside
          have freed := (retired older[k] (List.getElem_mem bound)).1
          simp only [chain, List.getElem_cons_succ] at readable
          simp [WeightedEdgeArray.readableAt, freed] at readable
    subst current
    simp only
    split
    · exact within_fail _
    · rename_i next chosen
      have laid : Laid next snap log stamps := by
        cases mixed : info.isMixedWorkloads with
        | false =>
            simp only [mixed, chain] at chosen
            cases chosen
            exact stored.laid
        | true =>
            simp only [mixed, chain] at chosen
            cases chosen
            exact stored.laid.acquire
      exact within_bind (readArray_within laid bitmap timestamp neighbours) fun _ _ => within_pure _

end GetNeighbours

/-! ## The graph -/

variable {rules : Rules} {ws : List Nat} {g : RadixGraph W} {A : Ledger W}

theorem insertAt_within (P : Platform W) {k : Nat} {p : Page W} (paged : g.Paged k p)
    (clean : g.bitmap.Clean) (rate : 1 < g.expandRate) (des : Int) (weight : W) (delta : Int) :
    (insertAt P g k des weight delta).Within Access.InBounds := by
  obtain ⟨v, at_k, head, stored, -⟩ := paged
  apply within_lift_bind
  intro src found
  rw [SORT.vertexAt, at_k] at found
  cases found
  exact within_bind (insert_within P rate g.global clean stored des weight delta) fun _ _ => within_pure _

theorem insertEdge_within (P : Platform W) (holds : RadixGraph.Holds rules ws g A) (src des : NodeID)
    (weight : W) : (insertEdge P g src des weight).Within Access.InBounds := by
  obtain ⟨k, index, first, source, dict, entered⟩ := RadixGraph.enterVertex_entered holds.dictionary src
  obtain ⟨l, index', second, -, dict', entered'⟩ :=
    RadixGraph.enterVertex_entered (g := { g with vertexIndex := index }) dict des
  apply within_lift_bind
  intro r ran
  rw [first] at ran
  cases ran
  apply within_lift_bind
  intro r ran
  rw [second] at ran
  cases ran
  apply within_lift_bind
  intro desVertex _
  refine within_bind ?_ fun _ _ => within_pure _
  have inside := dict.length ▸ SORT.position_isLt source
  obtain ⟨p, paged, -⟩ := (entered.trans entered').page holds (inside.trans_le entered'.length)
  exact insertAt_within P paged holds.clean holds.rate _ weight 1

theorem logEdge_within (P : Platform W) (holds : RadixGraph.Holds rules ws g A) (src des : NodeID)
    (weight : W) (delta : Int) : (logEdge P g src des weight delta).Within Access.InBounds := by
  obtain ⟨found, root, looked, holds₁, source, dead⟩ := RadixGraph.liveVertex_holds holds src
  apply within_lift_bind
  intro r ran
  rw [looked] at ran
  cases ran
  by_cases alive : A.Alive ws.sum g.gone src
  · obtain ⟨k, v, known, -, -, rfl⟩ := source alive
    obtain ⟨found', root', looked', holds₂, -⟩ := RadixGraph.liveVertex_holds holds₁ des
    apply within_lift_bind
    intro r ran
    rw [looked'] at ran
    cases ran
    cases found' with
    | none => exact within_pure _
    | some target =>
        obtain ⟨p, -, paged, -⟩ := holds₂.page (SORT.position_isLt known)
        refine within_bind ?_ fun _ _ => within_pure _
        exact insertAt_within P paged holds₂.clean holds₂.rate _ weight delta
  · obtain rfl := dead alive
    exact within_pure _

theorem neighboursAt_within {k : Nat} {p : Page W} (paged : g.Paged k p) (neighbours : List (WeightedEdge W))
    (timestamp : Int) : (neighboursAt g k neighbours timestamp).Within Access.InBounds := by
  obtain ⟨v, at_k, head, stored, -⟩ := paged
  apply within_lift_bind
  intro src found
  rw [SORT.vertexAt, at_k] at found
  cases found
  split
  · exact within_pure _
  · exact within_bind (getNeighboursOf_within stored g.global g.bitmap timestamp neighbours)
      fun _ _ => within_pure _

theorem getNeighbours_within (holds : RadixGraph.Holds rules ws g A) (src : NodeID)
    (neighbours : List (WeightedEdge W)) (timestamp : Int) :
    (getNeighbours g src neighbours timestamp).Within Access.InBounds := by
  obtain ⟨root, retrieved, dict⟩ := holds.dictionary.query g.global src
  apply within_lift_bind
  intro r ran
  rw [retrieved] at ran
  cases ran
  cases known : SORT.position ws.sum A.ids src with
  | none => exact within_pure _
  | some k =>
      obtain ⟨p, -, paged, -⟩ := (holds.reroot dict).page (SORT.position_isLt known)
      exact neighboursAt_within paged neighbours timestamp

theorem getNeighboursByOffset_within (holds : RadixGraph.Holds rules ws g A) (src : Nat)
    (neighbours : List (WeightedEdge W)) (timestamp : Int) :
    (getNeighboursByOffset g src neighbours timestamp).Within Access.InBounds := by
  rw [getNeighboursByOffset]
  split
  · exact within_pure _
  · rename_i small
    rw [if_neg (by omega), Int.toNat_natCast]
    have inside : src < A.ids.length := by
      have := holds.dictionary.cnt
      omega
    obtain ⟨p, -, paged, -⟩ := holds.page inside
    exact neighboursAt_within paged neighbours timestamp

structure Arrays (n : Nat) (g : RadixGraph W) : Prop where
  clean : g.bitmap.Clean
  rate : 1 < g.expandRate
  paged : ∀ k < n, ∃ p, g.Paged k p

omit [DecidableEq W] in
theorem sortEdges_within (P : Platform W) (sortNeighbours : Bool) {arr : WeightedEdgeArray W}
    {snap log : List (WeightedEdge W)} {stamps : Option (List Int)} (laid : Laid arr snap log stamps) :
    (sortEdges P sortNeighbours arr).Within Access.InBounds := by
  have all : ∀ access ∈ (List.range arr.physicalSize).flatMap fun i => [Access.load arr i, .store arr i],
      access.InBounds := by
    intro access member
    obtain ⟨i, inside, member⟩ := List.mem_flatMap.mp member
    rw [List.mem_range] at inside
    rcases List.mem_pair.mp member with rfl | rfl
    · exact laid.load inside
    · exact inside.trans_le laid.physicalSize_le
  rw [sortEdges]
  split
  · exact within_bind (within_report all) fun _ _ => within_pure _
  · exact within_bind (within_pure _) fun _ _ => within_pure _

theorem snapshotVertex_within (P : Platform W) (sortNeighbours makeDense : Bool) {n : Nat}
    (arrays : Arrays n g) {i : Nat} (inside : i < n) :
    (snapshotVertex P sortNeighbours makeDense g i).Within Access.InBounds ∧
      ∀ g', (snapshotVertex P sortNeighbours makeDense g i).result = .ok g' → Arrays n g' := by
  obtain ⟨p, v, at_i, heads⟩ := arrays.paged i inside
  obtain ⟨next, older, newArr, bitmap', p', chain, compaction, clean, heads', -⟩ :=
    heads.snapshot P arrays.rate g.global arrays.clean sortNeighbours makeDense
  constructor
  · obtain ⟨head, stored, -⟩ := heads
    obtain ⟨older', chain', -⟩ := stored.chain
    rw [chain] at chain'
    cases chain'
    apply within_lift_bind
    intro src found
    rw [SORT.vertexAt, at_i] at found
    cases found
    simp only [chain]
    let m := if makeDense then (max next.deg 0).toNat
      else P.snapshotCapacity (max next.deg 0).toNat g.expandRate
    have room (insertions : (next.physicalSize : Int) = next.deg) : next.physicalSize ≤ m := by
      have := P.snapshotCapacity_ge (max next.deg 0).toNat arrays.rate
      simp only [m]
      split <;> omega
    obtain ⟨newArr', bitmap₁, compaction', -, laid, -⟩ := logCompaction_spec stored.laid g.global arrays.clean room
    apply within_bind (logCompaction_within stored.laid room g.global g.bitmap)
    intro r ran
    rw [logCompaction_result, compaction'] at ran
    cases ran
    exact within_bind (sortEdges_within P sortNeighbours laid) fun _ _ => within_pure _
  · intro g' ran
    have bound := (List.getElem?_eq_some_iff.mp at_i).1
    simp only [snapshotVertex_result, RadixGraph.snapshotVertex, SORT.vertexAt, at_i, ok_bind, chain,
      compaction, Except.ok.injEq] at ran
    subst ran
    refine ⟨clean, arrays.rate, fun k inside' => ?_⟩
    by_cases here : k = i
    · subst here
      exact ⟨p', { v with next := _ }, by simp [SORT.setVertex, bound], heads'⟩
    · obtain ⟨q, paged⟩ := arrays.paged k inside'
      exact ⟨q, paged.of_record (by simp [SORT.setVertex, Ne.symm here])⟩

theorem createSnapshots_within (P : Platform W) (holds : RadixGraph.Holds rules ws g A)
    (sortNeighbours makeDense : Bool) :
    (createSnapshots P g sortNeighbours makeDense).Within Access.InBounds := by
  have start : Arrays g.vertexIndex.cnt g := by
    refine ⟨holds.clean, holds.rate, fun k inside => ?_⟩
    obtain ⟨p, -, paged, -⟩ := holds.page (holds.dictionary.cnt ▸ inside)
    exact ⟨p, paged⟩
  refine within_bind (within_foldlM (fun i member s arrays => ?_) start) fun _ _ => within_pure _
  have inside := (P.order_perm g.global g.vertexIndex.cnt).subset member
  exact snapshotVertex_within P sortNeighbours makeDense arrays (List.mem_range.mp inside)

theorem act_within (P : Platform W) (holds : RadixGraph.Holds rules ws g A) (action : RadixGraph.Action W) :
    (act P g action).Within Access.InBounds := by
  cases action with
  | op op =>
      cases op with
      | insertEdge src des weight =>
          exact within_bind (insertEdge_within P holds src des weight) fun _ _ => within_pure _
      | updateEdge src des weight =>
          exact within_bind (logEdge_within P holds src des weight 0) fun _ _ => within_pure _
      | deleteEdge src des =>
          exact within_bind (logEdge_within P holds src des 0 (-1)) fun _ _ => within_pure _
      | createSnapshots sortNeighbours makeDense =>
          exact createSnapshots_within P holds sortNeighbours makeDense
      | setExpandRate ratio => exact within_pure _
      | getGlobalTimestamp => exact within_pure _
      | getNeighbours src timestamp =>
          exact within_bind (getNeighbours_within holds src [] timestamp) fun _ _ => within_pure _
  | deleteVertex id => exact within_lift_bind fun _ _ => within_pure _
  | getNeighboursByOffset src timestamp =>
      exact within_bind (getNeighboursByOffset_within holds src [] timestamp) fun _ _ => within_pure _

end Tracing

namespace RadixGraph

variable [DecidableEq W]

/-- In every run all accesses are in bounds, and between the actions the current array of every vertex has
its counters within its capacity. -/
theorem accesses_inBounds (P : Platform W) (global : GlobalInfo) {index : SORT W} {ws : List Nat}
    (constructed : SORT.Constructed index ws) {L : Nat} (positive : 0 < L) (acts : List (Action W)) :
    (∀ access ∈ (Tracing.actions P (construct global index L positive) acts).events, access.InBounds) ∧
    ∃ g, (Tracing.actions P (construct global index L positive) acts).result = .ok g ∧
      actions P (construct global index L positive) acts = .ok g ∧
      ∀ k < g.getNumVertices, ∃ v arr older,
        g.vertexIndex.vertexAt k = .ok v ∧ v.next = arr :: older ∧ arr.Bounded := by
  have start : Holds .lax ws (construct global index L positive) {} :=
    construct_holds .lax global constructed positive
  have steps (action : Action W) (_ : action ∈ acts) (g : RadixGraph W) (fine : ∃ A, Holds .lax ws g A) :
      (Tracing.act P g action).Within Access.InBounds ∧
        ∀ g', (Tracing.act P g action).result = .ok g' → ∃ A, Holds .lax ws g' A := by
    obtain ⟨A, holds⟩ := fine
    refine ⟨Tracing.act_within P holds action, fun g' ran => ?_⟩
    obtain ⟨g₁, acted, holds', -⟩ := act_holds P id holds (Ledger.admits_lax ws.sum A action)
    rw [Tracing.act_result, acted] at ran
    cases ran
    exact ⟨_, holds'⟩
  obtain ⟨g, A, ran, holds, -⟩ := actions_holds P start acts
  refine ⟨(within_foldlM steps ⟨_, start⟩).all, g, ?_, ran, fun k inside => ?_⟩
  · rw [Tracing.actions_result, ran]
  · rw [getNumVertices, holds.dictionary.cnt] at inside
    obtain ⟨p, -, ⟨v, at_k, head, stored, -⟩, -⟩ := holds.page inside
    obtain ⟨older, chain, -⟩ := stored.chain
    exact ⟨v, head, older, by rw [SORT.vertexAt, at_k], chain, stored.bounded⟩

/-- Mixed mode, a deletion of an absent edge before a dense snapshot of no slots, and writes after it. -/
theorem accesses_inBounds_dense :
    let acts : List (Action Nat) := [.op (.insertEdge 0 1 1), .op (.deleteEdge 0 0), .op (.deleteEdge 0 0),
      .op (.createSnapshots true true), .op (.updateEdge 0 1 2), .op (.getNeighbours 0 4)]
    let run := Tracing.actions Platform.exact (construct ⟨0, true⟩ (.ofVector [1]) 1 (by decide)) acts
    (∀ access ∈ run.events, access.InBounds) ∧ ∃ g, run.result = .ok g ∧
      actions Platform.exact (construct ⟨0, true⟩ (.ofVector [1]) 1 (by decide)) acts = .ok g ∧
      ∀ k < g.getNumVertices, ∃ v arr older,
        g.vertexIndex.vertexAt k = .ok v ∧ v.next = arr :: older ∧ arr.Bounded :=
  accesses_inBounds Platform.exact ⟨0, true⟩ (.vector (by decide)) (by decide) _

end RadixGraph

end Radix
