import Radix.Graph.Reports

/-!
# Translating ids

`GetExternalID` and `GetNeighboursByOffset` test an internal id against the number of vertices, but not
against 0, and `GetInternalID` answers -1 where it finds no vertex.
-/

namespace Radix

open Lib

namespace SORT

theorem enter_eraseDups {B : Nat} {ids : List NodeID} (bounded : ∀ a ∈ ids, a < 2 ^ B) {id : NodeID}
    (inRange : id < 2 ^ B) : enter B ids.eraseDups id = (ids ++ [id]).eraseDups := by
  have bounded' : ∀ a ∈ ids.eraseDups, a < 2 ^ B := fun a member => bounded a (List.mem_eraseDups.mp member)
  have old : position B ids.eraseDups id = none ↔ id ∉ ids := by
    rw [position_none_inRange bounded' inRange, List.mem_eraseDups]
  rw [enter, List.eraseDups_append]
  by_cases member : id ∈ ids
  · rw [if_neg (by simpa [old] using member)]
    simp [List.removeAll, member]
  · rw [if_pos (old.mpr member)]
    simp [List.removeAll, member, List.eraseDups_cons]

end SORT

namespace RadixGraph

variable {W : Type} [Zero W] [DecidableEq W] {ws : List Nat} {g g' : RadixGraph W} {A : Ledger W}

def Action.inserted : Action W → List NodeID
  | .op (.insertEdge src des _) => [src, des]
  | _ => []

def vertexOrder (acts : List (Action W)) : List NodeID := (acts.flatMap Action.inserted).eraseDups

omit [Zero W] [DecidableEq W] in
theorem Action.inserted_ids {action : Action W} {id : NodeID} (member : id ∈ action.inserted) : id ∈ action.ids := by
  match action with
  | .op (.insertEdge _ _ _) => simpa [Action.inserted, Action.ids, Op.ids] using member

omit [DecidableEq W] in
theorem liveNext_inserted {ids : List NodeID} (bounded : ∀ a ∈ ids, a < 2 ^ ws.sum) (same : A.ids = ids.eraseDups)
    {gone : Nat → Int} {stamp : Option Int} {action : Action W} (small : ∀ id ∈ action.ids, id < 2 ^ ws.sum) :
    (A.liveNext ws.sum gone stamp action).ids = (ids ++ action.inserted).eraseDups := by
  have unchanged {B : Ledger W} (kept : B.ids = A.ids) : B.ids = (ids ++ []).eraseDups := by
    rw [kept, same, List.append_nil]
  match action with
  | .op (.insertEdge src des weight) =>
      have source : src < 2 ^ ws.sum := small src (by simp [Action.ids, Op.ids])
      have target : des < 2 ^ ws.sum := small des (by simp [Action.ids, Op.ids])
      have more : ∀ a ∈ ids ++ [src], a < 2 ^ ws.sum := by
        intro a member
        rcases List.mem_append.mp member with old | new
        · exact bounded a old
        · rwa [List.mem_singleton.mp new]
      calc (A.liveNext ws.sum gone stamp (.op (.insertEdge src des weight))).ids
          = SORT.enter ws.sum (SORT.enter ws.sum A.ids src) des := Ledger.write_ids ..
        _ = ((ids ++ [src]) ++ [des]).eraseDups := by
            rw [same, SORT.enter_eraseDups bounded source, SORT.enter_eraseDups more target]
        _ = (ids ++ [src, des]).eraseDups := by rw [List.append_assoc, List.singleton_append]
  | .op (.updateEdge _ _ _) | .op (.deleteEdge _ _) =>
      refine unchanged ?_
      simp only [Ledger.liveNext]
      split
      · exact Ledger.write_ids ..
      · rfl
  | .op (.createSnapshots _ _) | .op (.setExpandRate _) | .op .getGlobalTimestamp | .op (.getNeighbours _ _)
  | .deleteVertex _ | .getNeighboursByOffset _ _ => exact unchanged rfl

theorem actions_order (P : Platform W) (global : GlobalInfo) {index : SORT W}
    (constructed : SORT.Constructed index ws) {L : Nat} (positive : 0 < L) {acts : List (Action W)}
    (small : ∀ action ∈ acts, ∀ id ∈ action.ids, id < 2 ^ ws.sum) :
    ∃ g A, actions P (construct global index L positive) acts = .ok g ∧ InRange ws g A ∧
      A.ids = vertexOrder acts := by
  let Kept (done : List (Action W)) (g : RadixGraph W) : Prop := ∃ A, InRange ws g A ∧ A.ids = vertexOrder done
  obtain ⟨g, ran, A, inRange, order⟩ := foldlM_invariant acts Kept
    (fun done action g earlier before => by
      obtain ⟨A, inRange, order⟩ := before
      have here := small action (earlier.subset (by simp))
      have bounded : ∀ a ∈ done.flatMap Action.inserted, a < 2 ^ ws.sum := by
        intro a member
        obtain ⟨action', inside, inserted⟩ := List.mem_flatMap.mp member
        exact small action' (earlier.subset (by simp [inside])) a (Action.inserted_ids inserted)
      obtain ⟨g', acted, inRange'⟩ := inRange.act P here
      refine ⟨g', acted, _, inRange', ?_⟩
      rw [liveNext_inserted bounded order here, vertexOrder, List.flatMap_append, List.flatMap_singleton])
    (show Kept [] (construct global index L positive) from ⟨{}, InRange.start global constructed positive, rfl⟩)
  exact ⟨g, A, ran, inRange, order⟩

/-! ## The translations -/

def Live (order : List NodeID) (g : RadixGraph W) (id : NodeID) : Prop :=
  ∃ (k : Nat) (v : Vertex W), order[k]? = some id ∧ g.vertexIndex.vertexTable[k]? = some v ∧ v.delTime = -1

structure Translates (order : List NodeID) (g : RadixGraph W) (offset : Int) (id : NodeID) : Prop where
  external : g.getExternalID offset =
    .ok (if 0 ≤ offset then order.getD offset.toNat NodeID.invalid else NodeID.invalid)
  outside : ¬ (0 ≤ offset ∧ offset < g.vertexIndex.cnt) → ∀ neighbours timestamp,
    g.getNeighboursByOffset offset neighbours timestamp = .ok (false, neighbours, g)
  live : Live order g id → ∃ internal, g.getInternalID id = .ok internal ∧ g.getExternalID internal = .ok id
  dead : ¬ Live order g id →
    ∃ internal, g.getInternalID id = .ok internal ∧ g.getExternalID internal = .ok NodeID.invalid

omit [DecidableEq W] in
theorem getExternalID_negative {offset : Int} (negative : offset < 0) :
    g.getExternalID offset = .error .outOfBounds := by
  rw [getExternalID, if_neg (by omega), if_pos negative]

theorem getExternalID_order (inRange : InRange ws g A) {offset : Int} (nonneg : 0 ≤ offset) :
    g.getExternalID offset = .ok (A.ids.getD offset.toNat NodeID.invalid) := by
  obtain ⟨k, rfl⟩ := Int.eq_ofNat_of_zero_le nonneg
  rw [Int.toNat_natCast, List.getD_eq_getElem?_getD]
  by_cases inside : k < A.ids.length
  · have here := List.getElem?_eq_getElem inside
    rw [getExternalID_holds inRange.holds here, here, Option.getD_some]
  · have large : (g.vertexIndex.cnt : Int) ≤ k := by
      rw [inRange.holds.dictionary.cnt]
      omega
    rw [getExternalID, if_pos large, List.getElem?_eq_none (Nat.not_lt.mp inside), Option.getD_none]

theorem live_iff (inRange : InRange ws g A) {id : NodeID} (small : id < 2 ^ ws.sum) :
    Live A.ids g id ↔ A.Alive ws.sum g.gone id := by
  have times {k : Nat} {v : Vertex W} (at_k : g.vertexIndex.vertexTable[k]? = some v) : g.gone k = v.delTime := by
    simp [gone, at_k]
  constructor
  · rintro ⟨k, v, here, at_k, alive⟩
    exact ⟨k, inRange.holds.dictionary.position_self here, (times at_k).trans alive⟩
  · rintro ⟨k, known, alive⟩
    obtain ⟨v, at_k, -⟩ := inRange.holds.vertex (SORT.position_isLt known)
    exact ⟨k, v, inRange.external small known, at_k, (times at_k).symm.trans alive⟩

theorem getInternalID_live (inRange : InRange ws g A) {id : NodeID} (small : id < 2 ^ ws.sum)
    (alive : Live A.ids g id) : ∃ internal, g.getInternalID id = .ok internal ∧ g.getExternalID internal = .ok id := by
  obtain ⟨k, known, gone⟩ := (live_iff inRange small).mp alive
  refine ⟨k, ?_, getExternalID_holds inRange.holds (inRange.external small known)⟩
  rw [getInternalID_holds inRange.holds, known]
  exact congrArg Except.ok (if_pos gone)

theorem getInternalID_dead (inRange : InRange ws g A) {id : NodeID} (small : id < 2 ^ ws.sum)
    (dead : ¬ Live A.ids g id) : g.getInternalID id = .ok (-1) := by
  rw [live_iff inRange small] at dead
  rw [getInternalID_holds inRange.holds]
  cases known : SORT.position ws.sum A.ids id with
  | none => rfl
  | some k => exact congrArg Except.ok (if_neg fun alive => dead ⟨k, known, alive⟩)

/-- In every state of a run over ids in range, the internal ids are the places in the order of insertion. The
calls translate ids and turn others away exactly for offsets that are not negative and for live ids: a
negative offset is taken for a place before the beginning of `vertex_table`, also the one that
`GetInternalID` returns for a missing vertex. -/
theorem translates_iff (P : Platform W) (global : GlobalInfo) {index : SORT W}
    (constructed : SORT.Constructed index ws) {L : Nat} (positive : 0 < L) {acts : List (Action W)}
    (small : ∀ action ∈ acts, ∀ id ∈ action.ids, id < 2 ^ ws.sum) :
    ∃ g, actions P (construct global index L positive) acts = .ok g ∧
      g.vertexIndex.cnt = (vertexOrder acts).length ∧
      ∀ (offset : Int) (id : NodeID), id < 2 ^ ws.sum →
        (Translates (vertexOrder acts) g offset id ↔ 0 ≤ offset ∧ Live (vertexOrder acts) g id) := by
  obtain ⟨g, A, ran, inRange, order⟩ := actions_order P global constructed positive small
  rw [← order]
  refine ⟨g, ran, inRange.holds.dictionary.cnt, fun offset id inside => ⟨fun translates => ⟨?_, ?_⟩, ?_⟩⟩
  · by_contra negative
    have external := translates.external
    rw [getExternalID_negative (Int.not_le.mp negative)] at external
    cases external
  · by_contra dead
    obtain ⟨internal, looked, external⟩ := translates.dead dead
    rw [getInternalID_dead inRange inside dead] at looked
    obtain rfl := Except.ok.inj looked
    rw [getExternalID_negative (by decide)] at external
    cases external
  · rintro ⟨nonneg, alive⟩
    refine ⟨?_, fun outside neighbours timestamp => ?_, fun _ => getInternalID_live inRange inside alive,
      fun dead => absurd alive dead⟩
    · rw [if_pos nonneg, getExternalID_order inRange nonneg]
    · rw [getNeighboursByOffset, if_pos (by omega)]

theorem translates_iff_edge : ∃ g : RadixGraph Nat,
    actions Platform.exact (construct ⟨0, true⟩ (.ofVector [3]) 1 (by decide)) [.op (.insertEdge 5 2 1)] = .ok g ∧
      g.vertexIndex.cnt = 2 ∧ Translates [5, 2] g 1 5 := by
  obtain ⟨g, ran, cnt, translates⟩ := translates_iff Platform.exact ⟨0, true⟩
    (show SORT.Constructed (SORT.ofVector [3] : SORT Nat) [3] from .vector (by decide)) (show 0 < 1 by decide)
    (show ∀ action ∈ [.op (.insertEdge 5 2 1)], ∀ id ∈ Action.ids action, id < 2 ^ [3].sum by decide)
  refine ⟨g, ran, cnt, (translates 1 5 (by decide)).mpr ⟨by decide, 0, ?_⟩⟩
  obtain rfl := Except.ok.inj ran
  exact ⟨_, rfl, rfl, rfl⟩

/-- The id 7 has not been inserted, and looking up its internal id reads before the table. -/
theorem untranslated_missing : ∃ g : RadixGraph Nat,
    actions Platform.exact (construct ⟨0, true⟩ (.ofVector [3]) 1 (by decide)) [.op (.insertEdge 5 2 1)] = .ok g ∧
      g.getInternalID 7 = .ok (-1) ∧ g.getExternalID (-1) = .error .outOfBounds ∧
      g.getNeighboursByOffset (-1) [] maxTimestamp = .error .outOfBounds ∧ ¬ Translates [5, 2] g (-1) 7 := by
  refine ⟨_, rfl, rfl, rfl, rfl, fun translates => ?_⟩
  have external := translates.external
  rw [getExternalID_negative (by decide)] at external
  cases external

end RadixGraph

end Radix
