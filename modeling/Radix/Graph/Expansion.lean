import Radix.Graph.Pages

/-!
# How often `Insert` expands an array

The loop `while (i >= next->cap)` of `Insert`, with its compactions counted and without a bound on the
rounds. A compaction is entered only where the wait for `physical_size == cap` ends at once.
-/

namespace Radix

open Lib

variable {W : Type} [Zero W] [DecidableEq W]

/-- The loop ends after `n` compactions with the slot `i`, the chain, the bitmap and the clock of `out`. -/
inductive Expansions (P : Platform W) (expandRate : ℚ) : Nat → GlobalInfo → SegmentedBitmap →
    List (WeightedEdgeArray W) → Nat × List (WeightedEdgeArray W) × SegmentedBitmap × GlobalInfo → Prop
  | slot {info bitmap next older} : next.size < next.cap →
      Expansions P expandRate 0 info bitmap (next :: older) (next.size, next.claim :: older, bitmap, info)
  | compaction {n info bitmap next older chain bitmap' info' out} : next.cap ≤ next.size →
      next.claim.physicalSize = next.claim.cap →
      expand P expandRate info bitmap (next.claim :: older) = .ok (chain, bitmap', info') →
      Expansions P expandRate n info' bitmap' chain out →
      Expansions P expandRate (n + 1) info bitmap (next :: older) out

namespace Expansions

variable {P : Platform W} {expandRate : ℚ} {n m rounds : Nat} {info : GlobalInfo} {bitmap : SegmentedBitmap}
  {chain : List (WeightedEdgeArray W)}
  {out out' : Nat × List (WeightedEdgeArray W) × SegmentedBitmap × GlobalInfo}

theorem claimSlot_iff : claimSlot P expandRate rounds info bitmap chain = .ok out ↔
    ∃ n < rounds, Expansions P expandRate n info bitmap chain out := by
  induction rounds generalizing info bitmap chain with
  | zero => simp [claimSlot]
  | succ rounds ih =>
      cases chain with
      | nil =>
          constructor
          · intro ran
            cases ran
          · rintro ⟨n, -, ⟨⟩⟩
      | cons next older =>
          rw [claimSlot]
          by_cases room : next.size < next.cap
          · rw [if_pos room]
            constructor
            · intro ran
              cases ran
              exact ⟨0, Nat.succ_pos _, .slot room⟩
            · rintro ⟨n, -, ran⟩
              cases ran with
              | slot => rfl
              | compaction full => exact absurd full (Nat.not_le.mpr room)
          · rw [if_neg room, bind_eq_ok]
            constructor
            · rintro ⟨⟨chain, bitmap', info'⟩, expanded, rest⟩
              obtain ⟨n, less, ran⟩ := ih.mp rest
              have written : next.claim.physicalSize = next.claim.cap := by
                by_contra waits
                rw [expand, if_pos waits] at expanded
                cases expanded
              exact ⟨n + 1, Nat.succ_lt_succ less, .compaction (Nat.not_lt.mp room) written expanded ran⟩
            · rintro ⟨n, less, ran⟩
              cases ran with
              | slot room' => exact absurd room' room
              | compaction full written expanded ran =>
                  exact ⟨_, expanded, ih.mpr ⟨_, Nat.lt_of_succ_lt_succ less, ran⟩⟩

theorem unique (ran : Expansions P expandRate n info bitmap chain out)
    (ran' : Expansions P expandRate m info bitmap chain out') : m = n ∧ out' = out := by
  induction ran generalizing m with
  | slot room =>
      cases ran' with
      | slot => exact ⟨rfl, rfl⟩
      | compaction full => exact absurd full (Nat.not_le.mpr room)
  | compaction full written expanded _ ih =>
      cases ran' with
      | slot room => exact absurd full (Nat.not_le.mpr room)
      | compaction full' written' expanded' ran' =>
          rw [expanded] at expanded'
          cases expanded'
          obtain ⟨rfl, rfl⟩ := ih ran'
          exact ⟨rfl, rfl⟩

theorem of_stored (rate : 1 < expandRate) (info : GlobalInfo) (clean : bitmap.Clean)
    {head : WeightedEdgeArray W} {snap log : List (WeightedEdge W)} {stamps : Option (List Int)}
    (stored : Stored chain head snap log stamps) :
    ∃ n i next older bitmap' info', n ≤ 2 ∧
      Expansions P expandRate n info bitmap chain (i, next :: older, bitmap', info') ∧ i < next.cap := by
  obtain ⟨chain', next, bitmap', info', snap', log', stamps', claim, -, claimed, -⟩ :=
    claimSlot_spec P rate info clean stored
  obtain ⟨older, rfl, -⟩ := claimed.chain
  obtain ⟨n, less, ran⟩ := claimSlot_iff.mp claim
  exact ⟨n, next.physicalSize, next, older, bitmap', info', Nat.lt_succ_iff.mp less, ran, claimed.slot⟩

end Expansions

namespace RadixGraph

omit [DecidableEq W] in
/-- What an operation has done when it calls `Insert`: the graph, and the source record and the `idx` of the
destination that it passes, if it gets there. -/
def insertCall (g : RadixGraph W) : Op W → Result (RadixGraph W × Option (Nat × Int))
  | .insertEdge src des _ => do
      let (k, g) ← g.enterVertex src
      let (l, g) ← g.enterVertex des
      let desVertex ← g.vertexIndex.vertexAt l
      .ok (g, some (k, desVertex.idx))
  | .updateEdge src des _ | .deleteEdge src des => do
      let (srcVertex, g) ← g.liveVertex src
      match srcVertex with
      | none => .ok (g, none)
      | some (k, _) => do
          let (desVertex, g) ← g.liveVertex des
          match desVertex with
          | none => .ok (g, none)
          | some (_, desVertex) => .ok (g, some (k, desVertex.idx))
  | _ => .ok (g, none)

def Op.callsInsert : Op W → Bool
  | .insertEdge .. | .updateEdge .. | .deleteEdge .. => true
  | _ => false

def Op.written : Op W → W × Int
  | .insertEdge _ _ weight => (weight, 1)
  | .updateEdge _ _ weight => (weight, 0)
  | .deleteEdge .. => (0, -1)
  | _ => (0, 0)

theorem logEdge_insertCall (P : Platform W) (g : RadixGraph W) (src des : NodeID) (weight : W) (delta : Int) :
    (do
      let (_, g) ← g.logEdge P src des weight delta
      .ok g) = (do
      let (g, call) ← g.insertCall (.updateEdge src des weight)
      match call with
      | none => .ok g
      | some (k, des) => g.insertAt P k des weight delta) := by
  simp only [logEdge, insertCall, bind_assoc]
  congr 1
  funext ran
  obtain ⟨found, g₁⟩ := ran
  cases found with
  | none => rfl
  | some source =>
      simp only [bind_assoc]
      congr 1
      funext ran'
      obtain ⟨found', g₂⟩ := ran'
      cases found' with
      | none => rfl
      | some target => simp only [bind_assoc, ok_bind, bind_ok]

/-- `InsertEdge`, `UpdateEdge` and `DeleteEdge` are the call of `Insert` after what comes before it. -/
theorem perform_insertCall (P : Platform W) (g : RadixGraph W) {op : Op W} (calls : op.callsInsert) :
    perform P g op = (do
      let (g, call) ← g.insertCall op
      match call with
      | none => .ok g
      | some (k, des) => g.insertAt P k des op.written.1 op.written.2) := by
  cases op with
  | insertEdge src des weight =>
      simp only [perform, insertEdge, insertCall, bind_assoc, Op.written]
      congr 1
      funext source
      congr 1
      funext target
      congr 1
      funext v
      simp only [ok_bind, bind_ok]
  | updateEdge src des weight => exact logEdge_insertCall P g src des weight 0
  | deleteEdge src des => exact logEdge_insertCall P g src des 0 (-1)
  | _ => cases calls

variable {rules : Rules} {ws : List Nat} {g : RadixGraph W} {A : Ledger W}

theorem enterVertex_holds (holds : Holds rules ws g A) (id : NodeID) :
    ∃ k g', g.enterVertex id = .ok (k, g') ∧ SORT.position ws.sum (A.enter ws.sum id).ids id = some k ∧
      Holds rules ws g' (A.enter ws.sum id) := by
  obtain ⟨k, index, entered, known, settled, -⟩ := enterVertex_spec holds id
  rw [enterVertex_revived, map_eq_ok] at entered
  obtain ⟨⟨k', g'⟩, entered, same⟩ := entered
  obtain ⟨rfl, revived⟩ := Prod.mk.inj same
  exact ⟨k', g', entered, known, by rwa [Holds, revived]⟩

theorem insertCall_holds (holds : Holds rules ws g A) (op : Op W) :
    ∃ g' call A', g.insertCall op = .ok (g', call) ∧ Holds rules ws g' A' ∧
      ∀ k des, call = some (k, des) → k < A'.ids.length := by
  have logged (src des : NodeID) (weight : W) :
      ∃ g' call A', g.insertCall (.updateEdge src des weight) = .ok (g', call) ∧ Holds rules ws g' A' ∧
        ∀ k des, call = some (k, des) → k < A'.ids.length := by
    obtain ⟨found, root, looked, holds₁, alive, dead⟩ := liveVertex_holds holds src
    rw [insertCall, looked, ok_bind]
    cases found with
    | none => exact ⟨_, none, A, rfl, holds₁, nofun⟩
    | some source =>
        obtain ⟨k, v⟩ := source
        obtain ⟨found', root', looked', holds₂, -⟩ := liveVertex_holds holds₁ des
        have here : A.Alive ws.sum g.gone src := by
          by_contra gone
          cases dead gone
        obtain ⟨j, u, known, -, -, same⟩ := alive here
        obtain ⟨rfl, rfl⟩ := Prod.mk.inj (Option.some.inj same)
        simp only [looked', ok_bind]
        cases found' with
        | none => exact ⟨_, none, A, rfl, holds₂, nofun⟩
        | some target =>
            refine ⟨_, some (k, target.2.idx), A, rfl, holds₂, fun k' des' same => ?_⟩
            cases same
            exact SORT.position_isLt known
  cases op with
  | insertEdge src des weight =>
      obtain ⟨k, g₁, first, known, holds₁⟩ := enterVertex_holds holds src
      obtain ⟨l, g₂, second, known', holds₂⟩ := enterVertex_holds holds₁ des
      obtain ⟨v, at_l, -⟩ := holds₂.vertex (SORT.position_isLt known')
      refine ⟨g₂, some (k, v.idx), _, ?_, holds₂, fun k' des' same => ?_⟩
      · simp only [insertCall, first, second, ok_bind, SORT.vertexAt, at_l]
      · cases same
        have kept : SORT.position ws.sum (SORT.enter ws.sum (SORT.enter ws.sum A.ids src) des) src = some k := by
          have first : SORT.position ws.sum (SORT.enter ws.sum A.ids src) src = some k := known
          rw [SORT.position_enter, first, Option.some_or]
        exact SORT.position_isLt kept
  | updateEdge src des weight => exact logged src des weight
  | deleteEdge src des => exact logged src des 0
  | _ => exact ⟨g, none, A, rfl, holds, nofun⟩

/-- Every call of `Insert` ends. In every state that a run reaches and for every operation, the loop of
`Insert` obtains a slot below the capacity after at most two compactions, and waits in none of them. -/
theorem insert_terminates (P : Platform W) (global : GlobalInfo) {index : SORT W}
    (constructed : SORT.Constructed index ws) {L : Nat} (positive : 0 < L) (acts : List (Action W)) :
    ∃ g, actions P (construct global index L positive) acts = .ok g ∧
      ∀ op, ∃ g' call, g.insertCall op = .ok (g', call) ∧ ∀ k des, call = some (k, des) →
        ∃ src, g'.vertexIndex.vertexAt k = .ok src ∧ ∃ n i next older bitmap info, n ≤ 2 ∧
          Expansions P g'.expandRate n g'.global g'.bitmap src.next (i, next :: older, bitmap, info) ∧
          i < next.cap := by
  have start := construct_holds .lax global constructed positive
  obtain ⟨g, A, ran, holds, -⟩ := actions_holds P start acts
  refine ⟨g, ran, fun op => ?_⟩
  obtain ⟨g', call, A', called, holds', inside⟩ := insertCall_holds holds op
  refine ⟨g', call, called, fun k des same => ?_⟩
  obtain ⟨src, at_k, -, -, -, head, snap, log, stamps, past, stored, -⟩ := holds'.vertex (inside k des same)
  exact ⟨src, by rw [SORT.vertexAt, at_k], Expansions.of_stored holds'.rate g'.global holds'.clean stored⟩

/-- A dense snapshot leaves no free slot; the next insertion expands. -/
theorem insert_terminates_dense : ∃ g : RadixGraph Nat,
    actions Platform.exact (construct ⟨0, false⟩ (.ofVector [1]) 1 (by decide))
      [.op (.insertEdge 0 1 1), .op (.createSnapshots false true)] = .ok g ∧
    ∀ op, ∃ g' call, g.insertCall op = .ok (g', call) ∧ ∀ k des, call = some (k, des) →
      ∃ src, g'.vertexIndex.vertexAt k = .ok src ∧ ∃ n i next older bitmap info, n ≤ 2 ∧
        Expansions Platform.exact g'.expandRate n g'.global g'.bitmap src.next
          (i, next :: older, bitmap, info) ∧ i < next.cap := by
  have constructed : SORT.Constructed (SORT.ofVector [1] : SORT Nat) [1] := .vector (by decide)
  exact insert_terminates Platform.exact ⟨0, false⟩ constructed (by decide) _

end RadixGraph

end Radix
