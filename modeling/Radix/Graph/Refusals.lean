import Radix.Graph.Timestamps

/-!
# Reads that are refused

An automatic compaction drops the array that a timestamp drawn before it would be read from. So a read
at such a timestamp succeeds as long as the entries written since fit into the free slots of the array.
-/

namespace Radix

open Lib

variable {W : Type} [Zero W] [DecidableEq W]

namespace RadixGraph

def freeSlots (g : RadixGraph W) (id : NodeID) : Result Nat := do
  let (v, _) ← g.liveVertex id
  match v with
  | none => .ok 0
  | some (_, v) =>
      match v.next with
      | [] => .error .nullPointer
      | next :: _ => .ok (next.cap - next.size)

def Action.source : Action W → Option NodeID
  | .op (.insertEdge src _ _) | .op (.updateEdge src _ _) | .op (.deleteEdge src _) => some src
  | _ => none

instance (g : RadixGraph W) (action : Action W) : Decidable (g.WritesEdge action) :=
  match action with
  | .op (.insertEdge _ _ _) => .isTrue trivial
  | .op (.updateEdge _ _ _) | .op (.deleteEdge _ _) => inferInstanceAs (Decidable (_ ∧ _))
  | .op (.createSnapshots _ _) | .op (.setExpandRate _) | .op .getGlobalTimestamp | .op (.getNeighbours _ _)
  | .deleteVertex _ | .getNeighboursByOffset _ _ => .isFalse id

def WritesAt (g : RadixGraph W) (id : NodeID) (action : Action W) : Prop :=
  g.WritesEdge action ∧ action.source.map g.getInternalID = some (g.getInternalID id)

instance (g : RadixGraph W) (id : NodeID) (action : Action W) : Decidable (g.WritesAt id action) :=
  inferInstanceAs (Decidable (_ ∧ _))

def writesAt (P : Platform W) (id : NodeID) : RadixGraph W → List (Action W) → Nat
  | _, [] => 0
  | g, action :: acts =>
      (if g.WritesAt id action then 1 else 0) +
        match act P g action with
        | .ok g' => writesAt P id g' acts
        | .error _ => 0

variable {rules : Rules} {ws : List Nat} {g g' : RadixGraph W} {A : Ledger W}

theorem getInternalID_eq (holds : Holds rules ws g A) {id : NodeID} {k : Nat} (alive : g.gone k = -1) :
    g.getInternalID id = .ok (k : Int) ↔ SORT.position ws.sum A.ids id = some k := by
  rw [getInternalID_holds holds, Except.ok.injEq]
  cases known : SORT.position ws.sum A.ids id with
  | none => simp
  | some j =>
      by_cases here : j = k
      · simp [here, alive]
      · simp only [Option.some.injEq, here, iff_false]
        split <;> omega

theorem known_of_internal (holds : Holds rules ws g A) {id : NodeID} (here : g.getInternalID id ≠ .ok (-1)) :
    ∃ k, SORT.position ws.sum A.ids id = some k ∧ g.gone k = -1 := by
  rw [getInternalID_holds holds] at here
  cases known : SORT.position ws.sum A.ids id with
  | none =>
      rw [known] at here
      exact absurd rfl here
  | some k =>
      rw [known] at here
      by_contra deleted
      have dead : g.gone k ≠ -1 := fun alive => deleted ⟨k, rfl, alive⟩
      exact here (by simp only [if_neg dead])

theorem writesAt_iff (holds : Holds rules ws g A) {id : NodeID} {k : Nat}
    (known : SORT.position ws.sum A.ids id = some k) (alive : g.gone k = -1) {action : Action W} :
    g.WritesAt id action ↔ ∃ e delta, A.entry ws.sum g.gone action = some (k, e, delta) := by
  have internal := (getInternalID_eq holds alive).mpr known
  have logged {src des : NodeID} {weight : W} {delta : Int} (source : g.getInternalID src = .ok (k : Int))
      (target : g.getInternalID des ≠ .ok (-1)) :
      ∃ e d, A.liveEntry ws.sum g.gone src des weight delta = some (k, e, d) := by
    obtain ⟨l, known', alive'⟩ := known_of_internal holds target
    exact ⟨_, _, Ledger.liveEntry_alive ((getInternalID_eq holds alive).mp source) alive known' alive'⟩
  constructor
  · rintro ⟨writes, source⟩
    rw [internal] at source
    cases action with
    | op op =>
        cases op with
        | insertEdge src des weight =>
            have source := (getInternalID_eq holds alive).mp (Option.some.inj source)
            obtain ⟨j, l, index, source', target, -⟩ := insertEdge_entered .exact holds src des weight
            have extends' := (enter_extends ws.sum A.ids src).trans (enter_extends ws.sum _ des)
            obtain rfl := Option.some.inj ((SORT.position_extends extends' source).symm.trans source')
            exact ⟨{ weight := weight, idx := (l : Int) }, 1, by simp only [Ledger.entry, source', target]⟩
        | updateEdge src des weight => exact logged (Option.some.inj source) writes.2
        | deleteEdge src des => exact logged (Option.some.inj source) writes.2
        | _ => cases source
    | _ => cases source
  · rintro ⟨e, delta, entry⟩
    refine ⟨writesEdge_of_entry holds entry, ?_⟩
    cases action with
    | op op =>
        cases op with
        | insertEdge src des weight =>
            obtain ⟨l, source, -⟩ := Ledger.insertEntry_eq_some entry
            have extends' := (enter_extends ws.sum A.ids src).trans (enter_extends ws.sum _ des)
            have source := SORT.position_before extends' source (SORT.position_isLt known)
            exact congrArg some (((getInternalID_eq holds alive).mpr source).trans internal.symm)
        | updateEdge | deleteEdge =>
            obtain ⟨l, source, -⟩ := Ledger.liveEntry_eq_some entry
            exact congrArg some (((getInternalID_eq holds alive).mpr source).trans internal.symm)
        | _ => cases entry
    | _ => cases entry

/-- The page of a vertex `n` entries after the timestamp `i` was drawn and `free` slots were left. -/
def Retained (i free n : Nat) (p : Page W) : Prop :=
  n ≤ free ∧ p.free = free - n ∧ p.snapshotTimestamp ≤ i ∨ free < n ∧ (i : Int) < p.snapshotTimestamp

omit [DecidableEq W] in
theorem Retained.shown {i free n : Nat} {p : Page W} (retained : Retained i free n p) :
    p.snapshotTimestamp ≤ i ↔ n ≤ free := by
  rcases retained with ⟨fits, -, old⟩ | ⟨beyond, late⟩
  · exact ⟨fun _ => fits, fun _ => old⟩
  · constructor <;> omega

theorem Retained.logs {i free n : Nat} {p p' : Page W} (retained : Retained i free n p) {info : GlobalInfo}
    {e : WeightedEdge W} {delta : Int} {ticks' : Nat} (logs : p.Logs info e delta ticks' p')
    (later : i < info.ticks) (few : ticks' < 2 ^ 31) : Retained i free (n + 1) p' := by
  cases logs with
  | room free_slot _ =>
      rcases retained with ⟨fits, left, old⟩ | ⟨beyond, late⟩
      · refine .inl ⟨by omega, ?_, old⟩
        simp only [Page.logged]
        omega
      · exact .inr ⟨by omega, late⟩
  | full drawn more none drawn_later ticks =>
      have drawn_few : drawn < 2 ^ 31 := by
        have := Carries.le_ticksAfter info.freshStamps (drawn + 1)
        omega
      have late : (i : Int) < ((Page.ofSnapshot info drawn p.kept (more + 1)).logged (drawn + 1) e delta).snapshotTimestamp := by
        simp only [Page.logged, Page.ofSnapshot, GlobalInfo.timestampAt_eq drawn_few]
        omega
      rcases retained with ⟨fits, left, -⟩ | ⟨beyond, -⟩
      · exact .inr ⟨by omega, late⟩
      · exact .inr ⟨by omega, late⟩

theorem alive_before (P : Platform W) (holds : Holds .lax ws g A) {action : Action W}
    (ran : act P g action = .ok g') (few : g.global.ticks < 2 ^ 31) {k : Nat} (alive : g'.gone k = -1) :
    g.gone k = -1 := by
  obtain ⟨g₁, acted, -, times, -⟩ := act_holds P id holds (Ledger.admits_lax ws.sum A action)
  obtain rfl := Except.ok.inj (acted.symm.trans ran)
  rw [times] at alive
  cases action with
  | op _ | getNeighboursByOffset _ _ => exact alive
  | deleteVertex id =>
      cases known : SORT.position ws.sum A.ids id with
      | none => rwa [Ledger.goneAfter_unknown known] at alive
      | some j =>
          rw [Ledger.goneAfter_known known, Function.update_apply] at alive
          split at alive
          · exact absurd alive (timestampAt_ne few.le)
          · exact alive

structure Retaining (ws : List Nat) (u : NodeID) (k i free n : Nat) (g : RadixGraph W) (A : Ledger W) : Prop where
  holds : Holds .lax ws g A
  known : SORT.position ws.sum A.ids u = some k
  page : ∃ p, g.Paged k p ∧ Retained i free n p
  later : i < g.global.ticks

theorem Retaining.act (P : Platform W) {u : NodeID} {k i free n : Nat}
    (retaining : Retaining ws u k i free n g A) {action : Action W}
    (plain : ∀ sorted makeDense, action ≠ .op (.createSnapshots sorted makeDense))
    (ran : act P g action = .ok g') (few : g'.global.ticks < 2 ^ 31) (alive : g'.gone k = -1) :
    ∃ A', Retaining ws u k i free (n + if g.WritesAt u action then 1 else 0) g' A' := by
  obtain ⟨holds, known, ⟨p, paged, retained⟩, later⟩ := retaining
  obtain ⟨g₁, acted, holds', -, le, -⟩ := act_holds P id holds (Ledger.admits_lax ws.sum A action)
  obtain rfl := Except.ok.inj (acted.symm.trans ran)
  have alive' := alive_before P holds ran (le.trans_lt few) alive
  have known' := SORT.position_extends
    (Ledger.liveNext_extends ws.sum A g.gone (Kept.logTimestamp g₁.global) action) known
  obtain ⟨p', past, paged', -⟩ := holds'.page (SORT.position_isLt known')
  refine ⟨_, holds', known', ⟨p', paged', ?_⟩, later.trans_le le⟩
  obtain ⟨q, before, turned⟩ := act_pages P holds ran paged'
  obtain rfl : q = p := by
    rcases before with before | ⟨outside, -⟩
    · exact before.unique paged
    · exact absurd (SORT.position_isLt known) (Nat.not_lt.mpr outside)
  have writes : g.WritesAt u action ↔ ∃ e delta, A.entry ws.sum g.gone action = some (k, e, delta) :=
    writesAt_iff holds known alive'
  cases turned with
  | logs e delta p' entry logs =>
      rw [if_pos (writes.mpr ⟨e, delta, entry⟩)]
      exact retained.logs logs later few
  | snapshot sorted makeDense p' same _ => exact absurd same (plain sorted makeDense)
  | same other _ =>
      rw [if_neg fun written => ?_]
      · exact retained
      · obtain ⟨e, delta, entry⟩ := writes.mp written
        exact other e delta entry

theorem alive_throughout (P : Platform W) (holds : Holds .lax ws g A) {acts : List (Action W)}
    (ran : actions P g acts = .ok g') (few : g'.global.ticks < 2 ^ 31) {k : Nat} (alive : g'.gone k = -1) :
    g.gone k = -1 ∧ g.global.ticks ≤ g'.global.ticks := by
  induction acts generalizing g A with
  | nil =>
      cases ran
      exact ⟨alive, le_rfl⟩
  | cons action acts ih =>
      obtain ⟨g₁, acted, ran⟩ := bind_eq_ok.mp ran
      obtain ⟨g₂, acted', holds', -, le, -⟩ := act_holds P id holds (Ledger.admits_lax ws.sum A action)
      obtain rfl := Except.ok.inj (acted'.symm.trans acted)
      obtain ⟨alive', le'⟩ := ih holds' ran
      exact ⟨alive_before P holds acted (by omega) alive', le.trans le'⟩

theorem Retaining.actions (P : Platform W) {u : NodeID} {k i free n : Nat}
    (retaining : Retaining ws u k i free n g A) {acts : List (Action W)}
    (plain : ∀ sorted makeDense, .op (.createSnapshots sorted makeDense) ∉ acts)
    (ran : actions P g acts = .ok g') (few : g'.global.ticks < 2 ^ 31) (alive : g'.gone k = -1) :
    ∃ A', Retaining ws u k i free (n + writesAt P u g acts) g' A' := by
  induction acts generalizing g A n with
  | nil =>
      cases ran
      exact ⟨A, retaining⟩
  | cons action acts ih =>
      obtain ⟨g₁, acted, ran⟩ := bind_eq_ok.mp ran
      obtain ⟨g₂, acted', holds', -⟩ := act_holds P id retaining.holds (Ledger.admits_lax ws.sum A action)
      obtain rfl := Except.ok.inj (acted'.symm.trans acted)
      obtain ⟨alive', le⟩ := alive_throughout P holds' ran few alive
      have calm (sorted makeDense : Bool) : action ≠ .op (.createSnapshots sorted makeDense) := by
        rintro rfl
        exact plain sorted makeDense List.mem_cons_self
      obtain ⟨A₁, retaining'⟩ := retaining.act P calm acted (le.trans_lt few) alive'
      obtain ⟨A', final⟩ := ih retaining' (fun sorted makeDense member =>
        plain sorted makeDense (List.mem_cons_of_mem _ member)) ran
      refine ⟨A', ?_⟩
      rw [Nat.add_assoc] at final
      simpa only [writesAt, acted] using final

theorem freeSlots_holds (holds : Holds rules ws g A) {u : NodeID} {k : Nat}
    (known : SORT.position ws.sum A.ids u = some k) (alive : g.gone k = -1) {p : Page W} (paged : g.Paged k p) :
    g.freeSlots u = .ok p.free := by
  obtain ⟨found, root, looked, -, source, -⟩ := liveVertex_holds holds u
  obtain ⟨j, v, known', at_k, -, rfl⟩ := source ((Ledger.alive_iff known).mpr alive)
  obtain rfl := Option.some.inj (known'.symm.trans known)
  obtain ⟨w, at_k', head, stored, -, -, cap⟩ := paged
  obtain rfl := Option.some.inj (at_k'.symm.trans at_k)
  obtain ⟨older, chain, -⟩ := stored.chain
  have size : head.size = p.size := stored.size.trans stored.laid.physicalSize
  rw [freeSlots, looked, ok_bind]
  simp only [chain, cap, size, Nat.add_sub_cancel_left]

/-- While no snapshots are created, a read of a live vertex at a timestamp drawn earlier succeeds as long
as the entries written there since fit into the slots that were free then. -/
theorem read_retained_iff (P : Platform W) (global : GlobalInfo) {index : SORT W} {ws : List Nat}
    (constructed : SORT.Constructed index ws) {L : Nat} (positive : 0 < L) (earlier later : List (Action W))
    (plain : ∀ sorted makeDense, .op (.createSnapshots sorted makeDense) ∉ later) (u : NodeID) :
    ∃ g₁ g₂, actions P (construct global index L positive) earlier = .ok g₁ ∧
      actions P g₁.getGlobalTimestamp.2 later = .ok g₂ ∧
      (g₂.global.ticks < 2 ^ 31 → g₁.getInternalID u ≠ .ok (-1) → g₂.getInternalID u ≠ .ok (-1) →
        ∃ free found neighbours, g₁.freeSlots u = .ok free ∧
          g₂.readVertex u g₁.getGlobalTimestamp.1 = .ok (found, neighbours) ∧
          (found = true ↔ writesAt P u g₁.getGlobalTimestamp.2 later ≤ free)) := by
  obtain ⟨g₁, first, timed, -⟩ := (Timed.start global constructed positive).actions P earlier
  obtain ⟨A, holds⟩ := timed.holds
  obtain ⟨drew, drawn, holds₁, times, -⟩ := act_holds P id holds (Ledger.admits_lax ws.sum A (.op .getGlobalTimestamp))
  cases drawn
  obtain ⟨g₂, A₂, second, holds₂, extends'⟩ := actions_holds P holds₁ later
  refine ⟨g₁, g₂, first, second, fun few here there => ?_⟩
  obtain ⟨k, known, alive⟩ := known_of_internal holds here
  have known₂ : SORT.position ws.sum A₂.ids u = some k := SORT.position_extends extends' known
  obtain ⟨k', known', alive₂⟩ := known_of_internal holds₂ there
  obtain rfl := Option.some.inj (known'.symm.trans known₂)
  obtain ⟨-, le⟩ := alive_throughout P holds₁ second few alive₂
  have few₁ : g₁.global.ticks < 2 ^ 31 := by
    have : g₁.global.ticks + 1 ≤ g₂.global.ticks := le
    omega
  obtain ⟨p, -, paged, -⟩ := holds.page (SORT.position_isLt known)
  have old : p.snapshotTimestamp ≤ g₁.global.ticks := by
    obtain ⟨-, past, carries⟩ := paged.carries holds
    exact (carries.old few₁).1
  have start : Retaining ws u k' g₁.global.ticks p.free 0 g₁.getGlobalTimestamp.2 A :=
    ⟨holds₁, known, ⟨p, paged, .inl ⟨Nat.zero_le _, rfl, old⟩⟩, Nat.lt_succ_self _⟩
  obtain ⟨A', holds', known', ⟨p', paged', retained⟩, -⟩ := start.actions P plain second few alive₂
  refine ⟨p.free, (g₂.answer k' p' g₁.getGlobalTimestamp.1).1, (g₂.answer k' p' g₁.getGlobalTimestamp.1).2,
    freeSlots_holds holds known alive paged, paged'.readVertex holds' known' _, ?_⟩
  have now : g₁.getGlobalTimestamp.1 = g₁.global.ticks := GlobalInfo.timestampAt_eq few₁
  rw [Nat.zero_add] at retained
  rw [now, ← retained.shown]
  unfold answer Page.read
  rw [if_neg fun deleted => deleted.1 alive₂]
  split <;> simp [*]

theorem read_retained_iff_example : ∃ g₁ g₂ : RadixGraph Nat,
    actions Platform.exact (construct ⟨0, true⟩ (.ofVector [1]) 1 (by decide)) [.op (.insertEdge 0 1 1)] = .ok g₁ ∧
    actions Platform.exact g₁.getGlobalTimestamp.2 [.op (.updateEdge 0 1 2)] = .ok g₂ ∧
    ∃ free found neighbours, g₁.freeSlots 0 = .ok free ∧
      g₂.readVertex 0 g₁.getGlobalTimestamp.1 = .ok (found, neighbours) ∧
      (found = true ↔
        writesAt Platform.exact 0 g₁.getGlobalTimestamp.2 [.op (.updateEdge 0 1 2)] ≤ free) := by
  have constructed : SORT.Constructed (SORT.ofVector [1] : SORT Nat) [1] := .vector (by decide)
  obtain ⟨g₁, g₂, first, second, conclusion⟩ := read_retained_iff Platform.exact ⟨0, true⟩ constructed
    (show 0 < 1 by decide) [.op (.insertEdge 0 1 1)] [.op (.updateEdge 0 1 2)] (by simp) 0
  refine ⟨g₁, g₂, first, second, ?_⟩
  have computed : (do
      let g₁ ← actions Platform.exact (construct ⟨0, true⟩ (.ofVector [1] : SORT Nat) 1 (by decide))
        [.op (.insertEdge 0 1 1)]
      let g₂ ← actions Platform.exact g₁.getGlobalTimestamp.2 [.op (.updateEdge 0 1 2)]
      let here ← g₁.getInternalID 0
      let there ← g₂.getInternalID 0
      .ok (here, there, g₂.global.ticks) : Result _) = .ok (0, 0, 3) := by decide +kernel
  rw [first, ok_bind, second, ok_bind] at computed
  obtain ⟨here, alive, computed⟩ := bind_eq_ok.mp computed
  obtain ⟨there, alive', computed⟩ := bind_eq_ok.mp computed
  simp only [Except.ok.injEq, Prod.mk.injEq] at computed
  obtain ⟨rfl, rfl, ticks⟩ := computed
  exact conclusion (by omega) (by simp [alive]) (by simp [alive'])

/-- After eight writes the array of the timestamp is gone, and the read at it is refused. -/
theorem read_refused : ∃ g₁ g₂ : RadixGraph Nat,
    actions Platform.exact (construct ⟨0, true⟩ (.ofVector [1]) 1 (by decide)) [.op (.insertEdge 0 1 1)] = .ok g₁ ∧
    actions Platform.exact g₁.getGlobalTimestamp.2 (List.replicate 8 (.op (.updateEdge 0 1 2))) = .ok g₂ ∧
    g₂.global.ticks < 2 ^ 31 ∧
    g₁.readVertex 0 g₁.getGlobalTimestamp.1 = .ok (true, [{ weight := 1, idx := 1 }]) ∧
    g₂.readVertex 0 g₁.getGlobalTimestamp.1 = .ok (false, []) := by
  have computed : (do
      let g₁ ← actions Platform.exact (construct ⟨0, true⟩ (.ofVector [1] : SORT Nat) 1 (by decide))
        [.op (.insertEdge 0 1 1)]
      let g₂ ← actions Platform.exact g₁.getGlobalTimestamp.2 (List.replicate 8 (.op (.updateEdge 0 1 2)))
      let before ← g₁.readVertex 0 g₁.getGlobalTimestamp.1
      let after ← g₂.readVertex 0 g₁.getGlobalTimestamp.1
      .ok (g₂.global.ticks, before, after) : Result _) =
        .ok (11, (true, [{ weight := 1, idx := 1 }]), (false, [])) := by decide +kernel
  obtain ⟨g₁, first, computed⟩ := bind_eq_ok.mp computed
  obtain ⟨g₂, second, computed⟩ := bind_eq_ok.mp computed
  obtain ⟨before, read, computed⟩ := bind_eq_ok.mp computed
  obtain ⟨after, refused, computed⟩ := bind_eq_ok.mp computed
  simp only [Except.ok.injEq, Prod.mk.injEq] at computed
  obtain ⟨ticks, rfl, rfl⟩ := computed
  exact ⟨g₁, g₂, first, second, by omega, read, refused⟩

end RadixGraph

end Radix
