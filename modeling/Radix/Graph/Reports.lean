import Radix.Graph.Permanence

/-!
# What the edge operations report

A call that returns `true` has its effect in the next read, and one that returns `false` changes no
answer, except that `InsertEdge` does not look at the deletion of its source.
-/

namespace Radix

open Lib Lib.LastWrite

inductive EdgeCall (W : Type) where
  | insertEdge (src des : NodeID) (weight : W)
  | updateEdge (src des : NodeID) (weight : W)
  | deleteEdge (src des : NodeID)
  deriving DecidableEq

namespace EdgeCall

variable {W : Type}

def src : EdgeCall W → NodeID
  | insertEdge src _ _ | updateEdge src _ _ | deleteEdge src _ => src

def des : EdgeCall W → NodeID
  | insertEdge _ des _ | updateEdge _ des _ | deleteEdge _ des => des

def op : EdgeCall W → RadixGraph.Op W
  | insertEdge src des weight => .insertEdge src des weight
  | updateEdge src des weight => .updateEdge src des weight
  | deleteEdge src des => .deleteEdge src des

variable [Zero W]

def weight : EdgeCall W → W
  | insertEdge _ _ weight | updateEdge _ _ weight => weight
  | deleteEdge _ _ => 0

def Weighted : EdgeCall W → Prop
  | insertEdge _ _ weight | updateEdge _ _ weight => weight ≠ 0
  | deleteEdge _ _ => True

variable [DecidableEq W]

def make (P : Platform W) (g : RadixGraph W) : EdgeCall W → Result (Bool × RadixGraph W)
  | insertEdge src des weight => g.insertEdge P src des weight
  | updateEdge src des weight => g.updateEdge P src des weight
  | deleteEdge src des => g.deleteEdge P src des

theorem act_iff_make {P : Platform W} {g g' : RadixGraph W} {call : EdgeCall W} :
    RadixGraph.act P g (.op call.op) = .ok g' ↔ ∃ done, call.make P g = .ok (done, g') := by
  have returned (made : Result (Bool × RadixGraph W)) :
      (made >>= fun r => .ok r.2) = .ok g' ↔ ∃ done, made = .ok (done, g') := by
    rw [bind_eq_ok]
    constructor
    · rintro ⟨⟨done, g₁⟩, same, ⟨⟩⟩
      exact ⟨done, same⟩
    · rintro ⟨done, same⟩
      exact ⟨(done, g'), same, rfl⟩
  cases call with
  | insertEdge src des weight => exact returned (g.insertEdge P src des weight)
  | updateEdge src des weight => exact returned (g.updateEdge P src des weight)
  | deleteEdge src des => exact returned (g.deleteEdge P src des)

end EdgeCall

namespace RadixGraph

variable {W : Type} [Zero W] [DecidableEq W]

def ShowsEffect (g : RadixGraph W) (call : EdgeCall W) : Prop :=
  ∃ neighbours, g.readVertex call.src maxTimestamp = .ok (true, neighbours) ∧ match call with
    | .insertEdge _ des weight | .updateEdge _ des weight =>
        ∃ e ∈ neighbours, g.getExternalID e.idx = .ok des ∧ e.weight = weight
    | .deleteEdge _ des => ∀ e ∈ neighbours, g.getExternalID e.idx ≠ .ok des

structure SameAnswers (g g' : RadixGraph W) : Prop where
  reads : ∀ u timestamp, g'.readVertex u timestamp = g.readVertex u timestamp
  internal : ∀ u, g'.getInternalID u = g.getInternalID u
  count : g'.getNumVertices = g.getNumVertices

def Honest (P : Platform W) (g : RadixGraph W) (call : EdgeCall W) : Prop :=
  ∃ done g', call.make P g = .ok (done, g') ∧ (done = true → g'.ShowsEffect call) ∧
    (done = false → SameAnswers g g')

def InsertsAtDeleted (g : RadixGraph W) : EdgeCall W → Prop
  | .insertEdge src _ _ => ∃ d, g.deletionTime src = .ok d ∧ d ≠ -1
  | _ => False

/-! ## Entries lead to known vertices -/

end RadixGraph

namespace Page

variable {W : Type} [Zero W]

def Leads (n : Nat) (p : Page W) : Prop := ∀ e ∈ p.snap ++ p.log, 0 ≤ e.idx ∧ e.idx < n

theorem Leads.more {n n' : Nat} {p : Page W} (leads : p.Leads n) (le : n ≤ n') : p.Leads n' := fun e member => by
  obtain ⟨nonneg, small⟩ := leads e member
  exact ⟨nonneg, by omega⟩

theorem fresh_leads (info : GlobalInfo) (n : Nat) : (fresh info : Page W).Leads n := by
  simp [Leads, fresh]

variable [DecidableEq W]

theorem mem_of_mem_kept {p : Page W} {e : WeightedEdge W} (member : e ∈ p.kept) : e ∈ p.snap ++ p.log := by
  unfold kept at member
  split at member
  · exact member
  · exact List.mem_append.mpr (mem_of_mem_scan member)

theorem Logs.last {info : GlobalInfo} {e : WeightedEdge W} {delta : Int} {p p' : Page W} {ticks' : Nat}
    (logs : p.Logs info e delta ticks' p') : ∃ log, p'.log = log ++ [e] := by
  cases logs with
  | room _ _ => exact ⟨p.log, rfl⟩
  | full drawn free _ _ _ => exact ⟨[], rfl⟩

theorem Logs.mem {info : GlobalInfo} {e d : WeightedEdge W} {delta : Int} {p p' : Page W} {ticks' : Nat}
    (logs : p.Logs info e delta ticks' p') (member : d ∈ p'.snap ++ p'.log) : d ∈ p.snap ++ p.log ∨ d = e := by
  cases logs with
  | room _ _ =>
      simp only [logged, List.mem_append, List.mem_singleton] at member ⊢
      tauto
  | full drawn free _ _ _ =>
      simp only [logged, ofSnapshot, List.nil_append, List.mem_append, List.mem_singleton] at member
      rcases member with old | new
      · exact .inl (mem_of_mem_kept old)
      · exact .inr new

theorem Snapshot.mem {info : GlobalInfo} {sorted : Bool} {d : WeightedEdge W} {p p' : Page W} {ticks' : Nat}
    (snapshot : p.Snapshot info sorted ticks' p') (member : d ∈ p'.snap ++ p'.log) : d ∈ p.snap ++ p.log := by
  obtain ⟨drawn, free, snap, same, -, -, -⟩ := snapshot
  simp only [ofSnapshot, List.append_nil] at member
  exact mem_of_mem_kept (same.mem_iff.mp member)

end Page

namespace RadixGraph

variable {W : Type} [Zero W] [DecidableEq W] {rules : Rules} {ws : List Nat} {g g' : RadixGraph W}
  {A A' : Ledger W}

omit [DecidableEq W] in
theorem entry_known {gone : Nat → Int} {action : Action W} {k : Nat} {e : WeightedEdge W} {delta : Int}
    (entry : A.entry ws.sum gone action = some (k, e, delta)) (stamp : Option Int) :
    0 ≤ e.idx ∧ e.idx < (A.liveNext ws.sum gone stamp action).ids.length := by
  have live {src des : NodeID} {weight : W} {d : Int} (action : Action W)
      (logged : A.liveEntry ws.sum gone src des weight d = some (k, e, delta)) :
      0 ≤ e.idx ∧ e.idx < (A.liveNext ws.sum gone stamp action).ids.length := by
    obtain ⟨l, -, target, -, -, rfl, -⟩ := Ledger.liveEntry_eq_some logged
    have inside := (SORT.position_isLt target).trans_le
      (Ledger.liveNext_extends ws.sum A gone stamp action).length_le
    exact ⟨Int.natCast_nonneg l, Int.ofNat_lt.mpr inside⟩
  match action with
  | .op (.insertEdge src des weight) =>
      obtain ⟨l, -, target, rfl, -⟩ := Ledger.insertEntry_eq_some entry
      refine ⟨Int.natCast_nonneg l, ?_⟩
      simp only [Ledger.liveNext, Ledger.next, Ledger.write_ids]
      exact Int.ofNat_lt.mpr (SORT.position_isLt target)
  | .op (.updateEdge src des weight) => exact live _ entry
  | .op (.deleteEdge src des) => exact live _ entry
  | .op (.createSnapshots _ _) | .op (.setExpandRate _) | .op .getGlobalTimestamp | .op (.getNeighbours _ _)
  | .deleteVertex _ | .getNeighboursByOffset _ _ => cases entry

def AllLead (g : RadixGraph W) (n : Nat) : Prop := ∀ k p, g.Paged k p → p.Leads n

theorem act_leads (P : Platform W) (holds : Holds rules ws g A) {action : Action W}
    (ran : act P g action = .ok g') (stamp : Option Int) (leads : g.AllLead A.ids.length) :
    g'.AllLead (A.liveNext ws.sum g.gone stamp action).ids.length := by
  intro k p' paged
  have longer := (Ledger.liveNext_extends ws.sum A g.gone stamp action).length_le
  obtain ⟨p, before, turned⟩ := act_pages P holds ran paged
  have old : p.Leads (A.liveNext ws.sum g.gone stamp action).ids.length := by
    rcases before with before | ⟨-, rfl⟩
    · exact (leads k p before).more longer
    · exact Page.fresh_leads g.global _
  cases turned with
  | logs e delta p' entry logs =>
      intro d member
      rcases logs.mem member with inside | rfl
      · exact old d inside
      · exact entry_known entry stamp
  | snapshot sorted makeDense p' same snapshot => exact fun d member => old d (snapshot.mem member)
  | same _ _ => exact old

/-! ## In-range runs -/

def Action.ids : Action W → List NodeID
  | .op written => written.ids
  | .deleteVertex id => [id]
  | .getNeighboursByOffset _ _ => []

omit [DecidableEq W] in
theorem liveNext_ids (B : Nat) (A : Ledger W) (gone : Nat → Int) (stamp : Option Int) (action : Action W) :
    ∀ a ∈ (A.liveNext B gone stamp action).ids, a ∈ A.ids ∨ a ∈ action.ids := by
  intro a member
  match action with
  | .op (.insertEdge src des weight) => exact next_ids B A stamp _ a member
  | .op (.updateEdge src des weight) =>
      simp only [Ledger.liveNext] at member
      split at member
      · exact next_ids B A stamp (.updateEdge src des weight) a member
      · exact .inl member
  | .op (.deleteEdge src des) =>
      simp only [Ledger.liveNext] at member
      split at member
      · exact next_ids B A stamp (.deleteEdge src des) a member
      · exact .inl member
  | .op (.createSnapshots _ _) | .op (.setExpandRate _) | .op .getGlobalTimestamp | .op (.getNeighbours _ _)
  | .deleteVertex _ | .getNeighboursByOffset _ _ => exact .inl member

structure InRange (ws : List Nat) (g : RadixGraph W) (A : Ledger W) : Prop where
  holds : Holds .lax ws g A
  ids : ∀ a ∈ A.ids, a < 2 ^ ws.sum
  leads : g.AllLead A.ids.length
  gone : g.GoneBy

theorem InRange.act (P : Platform W) (inRange : InRange ws g A) {action : Action W}
    (small : ∀ id ∈ action.ids, id < 2 ^ ws.sum) :
    ∃ g', act P g action = .ok g' ∧
      InRange ws g' (A.liveNext ws.sum g.gone (Kept.logTimestamp g'.global) action) := by
  obtain ⟨g', acted, holds', -⟩ := act_holds P id inRange.holds (Ledger.admits_lax ws.sum A action)
  refine ⟨g', acted, holds', fun a member => ?_, act_leads P inRange.holds acted _ inRange.leads,
    act_goneBy P inRange.holds acted inRange.gone⟩
  rcases liveNext_ids ws.sum A g.gone _ action a member with old | new
  · exact inRange.ids a old
  · exact small a new

theorem InRange.actions (P : Platform W) (inRange : InRange ws g A) {acts : List (Action W)}
    (small : ∀ action ∈ acts, ∀ id ∈ action.ids, id < 2 ^ ws.sum) :
    ∃ g' A', actions P g acts = .ok g' ∧ InRange ws g' A' := by
  have steps (g : RadixGraph W) (action : Action W) (before : ∃ A, InRange ws g A)
      (small : ∀ id ∈ action.ids, id < 2 ^ ws.sum) :
      ∃ g', RadixGraph.act P g action = .ok g' ∧ ∃ A', InRange ws g' A' := by
    obtain ⟨A, inRange⟩ := before
    obtain ⟨g', acted, inRange'⟩ := inRange.act P small
    exact ⟨g', acted, _, inRange'⟩
  obtain ⟨g', ran, A', inRange'⟩ := foldlM_along steps ⟨A, inRange⟩
    (along_of_each fun done action g' earlier _ => small action (earlier.subset (by simp)))
  exact ⟨g', A', ran, inRange'⟩

theorem InRange.start (global : GlobalInfo) {index : SORT W} (constructed : SORT.Constructed index ws) {L : Nat}
    (positive : 0 < L) : InRange ws (construct global index L positive) {} where
  holds := construct_holds .lax global constructed positive
  ids _ member := by cases member
  leads k p paged := by
    have inside := paged.inside (construct_holds .lax global constructed positive)
    exact absurd inside (Nat.not_lt_zero k)
  gone := (Timed.start global constructed positive).gone

/-! ## What is reported -/

theorem getExternalID_holds (holds : Holds rules ws g A) {l : Nat} {id : NodeID} (here : A.ids[l]? = some id) :
    g.getExternalID l = .ok id := by
  obtain ⟨v, at_l, node, -⟩ := holds.dictionary.vertexAt here
  have inside := (List.getElem?_eq_some_iff.mp here).1
  rw [← holds.dictionary.cnt] at inside
  rw [getExternalID, if_neg (by omega), if_neg (by omega), Int.toNat_natCast, SORT.vertexAt, at_l, ok_bind,
    node]

theorem InRange.external (inRange : InRange ws g A) {l : Nat} {id : NodeID} (small : id < 2 ^ ws.sum)
    (known : SORT.position ws.sum A.ids id = some l) : A.ids[l]? = some id := by
  obtain ⟨other, here, same⟩ := SORT.position_lt known
  have bound := inRange.ids other (List.mem_of_getElem? here)
  rw [Nat.ModEq, Nat.mod_eq_of_lt bound, Nat.mod_eq_of_lt small] at same
  rw [here, same]

theorem effect_shown (P : Platform W) (inRange : InRange ws g A) (inRange' : InRange ws g' A') {call : EdgeCall W}
    (weighted : call.Weighted) (small : call.des < 2 ^ ws.sum) {done : Bool}
    (made : call.make P g = .ok (done, g')) {k l : Nat} {delta : Int}
    (entry : A.entry ws.sum g.gone (.op call.op) = some (k, { weight := call.weight, idx := (l : Int) }, delta))
    (source : SORT.position ws.sum A'.ids call.src = some k)
    (target : SORT.position ws.sum A'.ids call.des = some l) (alive : g'.gone k = -1) :
    g'.ShowsEffect call := by
  obtain ⟨p', past, paged, -, carries⟩ := inRange'.holds.page (SORT.position_isLt source)
  obtain ⟨p, -, turned⟩ := act_pages P inRange.holds (EdgeCall.act_iff_make.mpr ⟨done, made⟩) paged
  obtain ⟨log, last⟩ : ∃ log, p'.log = log ++ [{ weight := call.weight, idx := (l : Int) }] := by
    cases turned with
    | logs e delta' p' entry' logs =>
        rw [entry] at entry'
        cases entry'
        exact logs.last
    | snapshot sorted makeDense p' same _ => cases call <;> cases same
    | same other _ => exact absurd entry (other _ _)
  have read : g'.readVertex call.src maxTimestamp = .ok (true, scan WeightedEdge.idx WeightedEdge.live p'.snap
      (log ++ [{ weight := call.weight, idx := (l : Int) }])) := by
    rw [paged.readVertex inRange'.holds source, answer, if_neg (by simp [alive]), Page.read,
      if_pos carries.shown.1, carries.visible_all, last, listed, if_neg (by simp), List.nil_append]
  have named : g'.getExternalID l = .ok call.des :=
    getExternalID_holds inRange'.holds (inRange'.external small target)
  refine ⟨_, read, ?_⟩
  have present (alive : call.weight ≠ 0) : ∃ e ∈ scan WeightedEdge.idx WeightedEdge.live p'.snap
      (log ++ [{ weight := call.weight, idx := (l : Int) }]),
      g'.getExternalID e.idx = .ok call.des ∧ e.weight = call.weight :=
    ⟨_, last_mem_scan (by simpa [WeightedEdge.live] using alive), named, rfl⟩
  cases call with
  | insertEdge src des weight => exact present weighted
  | updateEdge src des weight => exact present weighted
  | deleteEdge src des =>
      intro e member leads
      obtain ⟨nonneg, bound⟩ := inRange'.leads k p' paged e
        (List.mem_append.mpr (last ▸ mem_of_mem_scan member))
      obtain ⟨m, idx⟩ := Int.eq_ofNat_of_zero_le nonneg
      have here := List.getElem?_eq_getElem (show m < A'.ids.length by omega)
      rw [idx, getExternalID_holds inRange'.holds here, Except.ok.injEq] at leads
      have same : SORT.position ws.sum A'.ids des = some m :=
        inRange'.holds.dictionary.position_self (here.trans (congrArg some leads))
      obtain rfl := Option.some.inj (same.symm.trans target)
      obtain rfl := mem_scan_last member idx
      have dead := scan_live member
      simp [WeightedEdge.live, EdgeCall.weight] at dead

theorem sameAnswers_root (holds : Holds rules ws g A) {root : Ptr}
    (holds' : Holds rules ws { g with vertexIndex := { g.vertexIndex with root := root } } A) :
    SameAnswers g { g with vertexIndex := { g.vertexIndex with root := root } } where
  reads u timestamp := by
    cases known : SORT.position ws.sum A.ids u with
    | none => rw [readVertex_unknown holds known, readVertex_unknown holds' known]
    | some k =>
        obtain ⟨p, -, paged, -⟩ := holds.page (SORT.position_isLt known)
        have paged' : ({ g with vertexIndex := { g.vertexIndex with root := root } } : RadixGraph W).Paged k p :=
          paged
        rw [paged.readVertex holds known, paged'.readVertex holds' known]
        rfl
  internal u := by
    rw [getInternalID_holds holds, getInternalID_holds holds']
    rfl
  count := rfl

theorem logEdge_honest (P : Platform W) (inRange : InRange ws g A) {call : EdgeCall W} (weighted : call.Weighted)
    (small : ∀ id ∈ call.op.ids, id < 2 ^ ws.sum) (ends : call.des < 2 ^ ws.sum) {delta : Int}
    (logs : call.make P g = g.logEdge P call.src call.des call.weight delta)
    (entry : A.entry ws.sum g.gone (.op call.op) =
      A.liveEntry ws.sum g.gone call.src call.des call.weight delta) : Honest P g call := by
  obtain ⟨g', acted, inRange'⟩ := inRange.act P (show ∀ id ∈ (Action.op call.op).ids, id < 2 ^ ws.sum from small)
  obtain ⟨done, made⟩ := EdgeCall.act_iff_make.mp acted
  have extends' := Ledger.liveNext_extends ws.sum A g.gone (Kept.logTimestamp g'.global) (.op call.op)
  refine ⟨done, g', made, fun yes => ?_, fun no => ?_⟩
  · rcases logEdge_cases P inRange.holds call.src call.des call.weight delta (logs ▸ made) with
      ⟨k, l, root, -, logged, -, inserted⟩ | ⟨-, no, -⟩
    · obtain ⟨m, source, target, alive, -, same, -⟩ := Ledger.liveEntry_eq_some logged
      cases same
      refine effect_shown P inRange inRange' weighted ends made (entry.trans logged)
        (SORT.position_extends extends' source) (SORT.position_extends extends' target) ?_
      exact (congrFun (insertAt_gone P inserted) k).trans alive
    · exact absurd (yes.symm.trans no) (by simp)
  · rcases logEdge_cases P inRange.holds call.src call.des call.weight delta (logs ▸ made) with
      ⟨k, l, root, -, -, yes, -⟩ | ⟨-, -, root, rfl, holds'⟩
    · exact absurd (yes.symm.trans no) (by simp)
    · exact sameAnswers_root inRange.holds holds'

/-- `InsertEdge` always returns `true`; whether its source was deleted decides the next read. -/
theorem insertEdge_honest_iff (P : Platform W) (inRange : InRange ws g A) {src des : NodeID} {weight : W}
    (weighted : weight ≠ 0) (small : src < 2 ^ ws.sum) (small' : des < 2 ^ ws.sum) :
    Honest P g (.insertEdge src des weight) ↔ ¬ g.InsertsAtDeleted (.insertEdge src des weight) := by
  obtain ⟨k, l, index, source, target, -⟩ := insertEdge_entered P inRange.holds src des weight
  let call : EdgeCall W := .insertEdge src des weight
  have named : ∀ id ∈ (Action.op call.op).ids, id < 2 ^ ws.sum := by
    simp [call, EdgeCall.op, Action.ids, Op.ids, small, small']
  obtain ⟨g', acted, inRange'⟩ := inRange.act P named
  have allowed : Rules.Tidy .lax → weight ≠ 0 ∧ A.edge ws.sum src des = none := False.elim
  obtain ⟨g₂, made, -, times, -⟩ := insertEdge_holds P inRange.holds src des allowed
  obtain rfl : g₂ = g' := by
    have same := EdgeCall.act_iff_make.mpr ⟨true, (show call.make P g = .ok (true, g₂) from made)⟩
    exact Except.ok.inj (same.symm.trans acted)
  have gone : g₂.gone k = g.gone k := congrFun times k
  have source' : SORT.position ws.sum (A.liveNext ws.sum g.gone (Kept.logTimestamp g₂.global)
      (.op (.insertEdge src des weight))).ids src = some k := by
    simp only [Ledger.liveNext, Ledger.next, Ledger.write_ids]
    exact source
  have target' : SORT.position ws.sum (A.liveNext ws.sum g.gone (Kept.logTimestamp g₂.global)
      (.op (.insertEdge src des weight))).ids des = some l := by
    simp only [Ledger.liveNext, Ledger.next, Ledger.write_ids]
    exact target
  have deleted : g.InsertsAtDeleted (.insertEdge src des weight) ↔ g.gone k ≠ -1 := by
    rw [InsertsAtDeleted, deletionTime_holds inRange.holds]
    cases known : SORT.position ws.sum A.ids src with
    | none =>
        have new : A.ids.length ≤ k := by
          rcases Ledger.position_enter_cases source with first | ⟨-, late⟩
          · rcases Ledger.position_enter_cases first with old | ⟨-, late⟩
            · rw [known] at old
              cases old
            · exact late
          · exact (Ledger.enter_length_le ws.sum A src).trans late
        simp [inRange.holds.gone_unborn new]
    | some j =>
        obtain rfl := Option.some.inj ((SORT.position_extends ((enter_extends ws.sum A.ids src).trans
          (enter_extends ws.sum _ des)) known).symm.trans source)
        simp
  rw [deleted, not_not, ← gone]
  constructor
  · rintro ⟨done, g₁, again, shown, -⟩
    obtain ⟨rfl, rfl⟩ := Prod.mk.inj (Except.ok.inj (again.symm.trans made))
    obtain ⟨neighbours, read, -⟩ := shown rfl
    obtain ⟨p, -, paged, -⟩ := inRange'.holds.page (SORT.position_isLt source')
    by_contra dead
    obtain ⟨i, -, drawn⟩ := inRange'.gone k dead
    have early : g₁.gone k ≤ maxTimestamp := drawn ▸ timestampAt_le i
    have read : g₁.readVertex src maxTimestamp = .ok (true, neighbours) := read
    rw [paged.readVertex inRange'.holds source', answer, if_pos ⟨dead, early⟩] at read
    cases read
  · intro alive
    refine ⟨true, g₂, made, fun _ => ?_, fun no => by cases no⟩
    have entry : A.entry ws.sum g.gone (.op (.insertEdge src des weight)) =
        some (k, { weight := weight, idx := (l : Int) }, 1) := by
      simp only [Ledger.entry, source, target]
    exact effect_shown P inRange inRange' (show call.Weighted from weighted) small' made entry source' target' alive

/-- Every call over in-range ids is honest, unless it inserts an edge at a deleted source. -/
theorem honest_iff (P : Platform W) (global : GlobalInfo) {index : SORT W} {ws : List Nat}
    (constructed : SORT.Constructed index ws) {L : Nat} (positive : 0 < L) {acts : List (Action W)}
    (inRange : ∀ action ∈ acts, ∀ id ∈ action.ids, id < 2 ^ ws.sum) {call : EdgeCall W}
    (ends : ∀ id ∈ call.op.ids, id < 2 ^ ws.sum) (weighted : call.Weighted) :
    ∃ g, actions P (construct global index L positive) acts = .ok g ∧
      (Honest P g call ↔ ¬ g.InsertsAtDeleted call) := by
  obtain ⟨g, A, ran, state⟩ := (InRange.start global constructed positive).actions P inRange
  refine ⟨g, ran, ?_⟩
  cases call with
  | insertEdge src des weight =>
      exact insertEdge_honest_iff P state weighted (ends src (by simp [EdgeCall.op, Op.ids]))
        (ends des (by simp [EdgeCall.op, Op.ids]))
  | updateEdge src des weight =>
      exact ⟨fun _ => id, fun _ => logEdge_honest P state weighted ends (ends des (by simp [EdgeCall.op, Op.ids]))
        rfl rfl⟩
  | deleteEdge src des =>
      exact ⟨fun _ => id, fun _ => logEdge_honest P state weighted ends (ends des (by simp [EdgeCall.op, Op.ids]))
        rfl rfl⟩

theorem honest_iff_example : ∃ g,
    actions Platform.exact (construct ⟨0, false⟩ (.ofVector [1] : SORT Nat) 1 (by decide))
      [.op (.insertEdge 0 1 1), .deleteVertex 0] = .ok g ∧
    (Honest Platform.exact g (.updateEdge 1 1 2) ↔ ¬ g.InsertsAtDeleted (.updateEdge 1 1 2)) := by
  have constructed : SORT.Constructed (SORT.ofVector [1] : SORT Nat) [1] := .vector (by decide)
  exact honest_iff Platform.exact ⟨0, false⟩ constructed (by decide) (by simp [Action.ids, Op.ids])
    (by simp [EdgeCall.op, Op.ids]) (by simp [EdgeCall.Weighted])

/-- `InsertEdge` from a deleted vertex returns `true`, and the read after it `false`. -/
theorem insertion_unreadable : ∃ g g' : RadixGraph Nat,
    actions Platform.exact (construct ⟨0, false⟩ (.ofVector [1]) 1 (by decide))
      [.op (.insertEdge 0 1 1), .deleteVertex 0] = .ok g ∧
    g.insertEdge Platform.exact 0 1 2 = .ok (true, g') ∧ g'.readVertex 0 maxTimestamp = .ok (false, []) ∧
    ¬ Honest Platform.exact g (.insertEdge 0 1 2) := by
  refine ⟨_, _, rfl, rfl, rfl, ?_⟩
  rintro ⟨done, g', ⟨⟩, shown, -⟩
  obtain ⟨neighbours, read, -⟩ := shown rfl
  cases read

end RadixGraph

end Radix
