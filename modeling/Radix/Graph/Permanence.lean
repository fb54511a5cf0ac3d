import Radix.Graph.Timestamps

/-!
# Whether a deletion stays in effect

`DeleteVertex` overwrites `del_time` without looking at it. A read that is refused because of a
deletion stays refused just when no vertex is deleted twice.
-/

namespace Radix

open Lib

namespace RadixGraph

variable {W : Type} [Zero W]

def deletionTime (g : RadixGraph W) (id : NodeID) : Result Int := do
  let (ptr, index) ← g.vertexIndex.retrieveVertex g.global id false
  match ptr with
  | .leaf k => do
      let v ← index.vertexAt k
      .ok v.delTime
  | _ => .ok (-1)

def DeletedBy (g : RadixGraph W) (id : NodeID) (timestamp : Int) : Prop :=
  ∃ d, g.deletionTime id = .ok d ∧ d ≠ -1 ∧ d ≤ timestamp

variable [DecidableEq W]

def Redeletes (g : RadixGraph W) : Action W → Prop
  | .deleteVertex id => ∃ d, g.deletionTime id = .ok d ∧ d ≠ -1 ∧ d ≠ g.global.globalTimestamp
  | _ => False

/-- A read at a timestamp already drawn that was refused because the vertex had been deleted by then is
refused for the rest of the run. -/
def Permanent (P : Platform W) (g : RadixGraph W) (acts : List (Action W)) : Prop :=
  ∀ earlier later, earlier ++ later <+: acts → ∀ g₁ g₂, actions P g earlier = .ok g₁ →
    actions P g₁ later = .ok g₂ → ∀ t : Nat, t < g₁.global.ticks →
      (∀ id, g₁.DeletedBy id t → g₂.readVertex id t = .ok (false, [])) ∧
      ∀ k, g₁.gone k ≠ -1 → g₁.gone k ≤ t → g₂.readOffset k t = .ok (false, [])

variable {rules : Rules} {ws : List Nat} {g g' : RadixGraph W} {A : Ledger W}

theorem deletionTime_holds (holds : Holds rules ws g A) (id : NodeID) :
    g.deletionTime id = .ok ((SORT.position ws.sum A.ids id).elim (-1) g.gone) := by
  obtain ⟨root, retrieved, dict⟩ := holds.dictionary.query g.global id
  rw [deletionTime, retrieved, ok_bind]
  cases known : SORT.position ws.sum A.ids id with
  | none => rfl
  | some k =>
      obtain ⟨v, at_k, -, time, -⟩ := holds.vertex (SORT.position_isLt known)
      simp [SORT.record, SORT.vertexAt, at_k, time]

theorem deletedBy_iff (holds : Holds rules ws g A) (id : NodeID) (timestamp : Int) :
    g.DeletedBy id timestamp ↔
      ∃ k, SORT.position ws.sum A.ids id = some k ∧ g.gone k ≠ -1 ∧ g.gone k ≤ timestamp := by
  unfold DeletedBy
  rw [deletionTime_holds holds]
  cases SORT.position ws.sum A.ids id with
  | none => simp
  | some k => simp

theorem redeletes_iff (holds : Holds rules ws g A) (id : NodeID) :
    g.Redeletes (.deleteVertex id) ↔ ∃ k, SORT.position ws.sum A.ids id = some k ∧ g.gone k ≠ -1 ∧
      g.gone k ≠ g.global.globalTimestamp := by
  rw [Redeletes, deletionTime_holds holds]
  cases SORT.position ws.sum A.ids id with
  | none => simp
  | some k => simp

structure Since (ws : List Nat) (A₁ : Ledger W) (gone₁ : Nat → Int) (g : RadixGraph W) (A : Ledger W) :
    Prop where
  holds : Holds .lax ws g A
  ids : A₁.ids <+: A.ids
  gone : ∀ k, gone₁ k ≠ -1 → g.gone k = gone₁ k

theorem Since.act (P : Platform W) {A₁ : Ledger W} {gone₁ : Nat → Int} (since : Since ws A₁ gone₁ g A)
    {action : Action W} (once : ¬ g.Redeletes action) :
    ∃ g', act P g action = .ok g' ∧ ∃ A', Since ws A₁ gone₁ g' A' := by
  obtain ⟨g', acted, holds', times, -⟩ := act_holds P id since.holds (Ledger.admits_lax ws.sum A action)
  refine ⟨g', acted, _, holds', since.ids.trans (Ledger.liveNext_extends ..), fun k deleted => ?_⟩
  have before := since.gone k deleted
  rw [times]
  cases action with
  | op _ | getNeighboursByOffset _ _ => exact before
  | deleteVertex id =>
      cases known : SORT.position ws.sum A.ids id with
      | none => rw [Ledger.goneAfter_unknown known, before]
      | some j =>
          rw [Ledger.goneAfter_known known]
          by_cases here : k = j
          · subst here
            rw [Function.update_self]
            by_contra other
            exact once ((redeletes_iff since.holds id).mpr
              ⟨k, known, before ▸ deleted, fun same => other (by rw [← same, before])⟩)
          · rw [Function.update_of_ne here, before]

theorem Since.refused {A₁ : Ledger W} {gone₁ : Nat → Int} (since : Since ws A₁ gone₁ g A) {k : Nat}
    (deleted : gone₁ k ≠ -1) {t : Int} (early : gone₁ k ≤ t) (inside : k < A.ids.length) :
    (∀ id, SORT.position ws.sum A.ids id = some k → g.readVertex id t = .ok (false, [])) ∧
      g.readOffset k t = .ok (false, []) := by
  obtain ⟨p, -, paged, -⟩ := since.holds.page inside
  have refused : g.answer k p t = (false, []) := by
    rw [answer, since.gone k deleted, if_pos ⟨deleted, early⟩]
  exact ⟨fun id known => by rw [paged.readVertex since.holds known, refused],
    by rw [paged.readOffset since.holds, refused]⟩

theorem Holds.inside_of_gone (holds : Holds rules ws g A) {k : Nat} (deleted : g.gone k ≠ -1) :
    k < A.ids.length := by
  by_contra outside
  exact deleted (holds.gone_unborn (Nat.not_lt.mp outside))

theorem redeletion_readable (P : Platform W) (timed : Timed ws g) (few : g.global.ticks < 2 ^ 31) {u : NodeID}
    (again : g.Redeletes (.deleteVertex u)) :
    ∃ (t : Nat) (g' : RadixGraph W), t < g.global.ticks ∧ g.DeletedBy u t ∧ act P g (.deleteVertex u) = .ok g' ∧
      g'.readVertex u t ≠ .ok (false, []) := by
  obtain ⟨⟨A, holds⟩, dated, by_now⟩ := timed
  obtain ⟨k, known, deleted, other⟩ := (redeletes_iff holds u).mp again
  have now : g.global.globalTimestamp = g.global.ticks := GlobalInfo.timestampAt_eq few
  have early := by_now.le_now few deleted
  rw [now] at other
  have nonneg : 0 ≤ g.gone k := by
    obtain ⟨i, bound, drawn⟩ := by_now k deleted
    rw [drawn, GlobalInfo.timestampAt_eq (bound.trans_lt few)]
    exact Int.natCast_nonneg i
  obtain ⟨g', ran, holds', -, times⟩ := deleteVertex_holds holds u
  obtain ⟨chains, -⟩ := deleteVertex_chains holds u ran
  obtain ⟨p, -, paged, -⟩ := holds'.page (SORT.position_isLt known)
  have recent := (paged.of_chains chains).dated dated few
  have gone : g'.gone k = g.global.ticks := by
    rw [times, Ledger.goneAfter_known known, Function.update_self, now]
  refine ⟨g.global.ticks - 1, g', by omega, (deletedBy_iff holds u _).mpr ⟨k, known, deleted, by omega⟩, ?_, ?_⟩
  · rw [act, ran, ok_bind]
  · rw [paged.readVertex holds' known, answer, gone, if_neg (by omega), Page.read, if_pos recent]
    simp

/-- While fewer than `2 ^ 31` timestamps have been issued, what a deletion hides at a timestamp stays
hidden just when no vertex is deleted again later. -/
theorem permanent_iff (P : Platform W) (global : GlobalInfo) {index : SORT W} {ws : List Nat}
    (constructed : SORT.Constructed index ws) {L : Nat} (positive : 0 < L) (acts : List (Action W)) :
    ∃ g, actions P (construct global index L positive) acts = .ok g ∧ (g.global.ticks < 2 ^ 31 →
      (Permanent P (construct global index L positive) acts ↔
        Along (act P) (fun g action => ¬ g.Redeletes action) (construct global index L positive) acts)) := by
  have start := Timed.start global constructed positive
  obtain ⟨g, ran, timed, le⟩ := start.actions P acts
  refine ⟨g, ran, fun few => ⟨fun permanent => along_of_each fun done action g₁ earlier reached again => ?_,
    fun once earlier later split g₁ g₂ first second t drawn => ?_⟩⟩
  · obtain ⟨rest, split⟩ := earlier
    obtain ⟨g₁', reached', timed₁, -⟩ := start.actions P done
    obtain rfl := Except.ok.inj (reached'.symm.trans reached)
    have few₁ : g₁'.global.ticks < 2 ^ 31 := by
      obtain ⟨g₂, ran₂, -, le₂⟩ := timed₁.actions P ([action] ++ rest)
      rw [← split, List.append_assoc, actions, List.foldlM_append, bind_eq_ok] at ran
      obtain ⟨g₁, ran₁, ran⟩ := ran
      obtain rfl := Except.ok.inj (ran₁.symm.trans reached)
      obtain rfl := Except.ok.inj (ran.symm.trans ran₂)
      exact le₂.trans_lt few
    cases action with
    | op _ | getNeighboursByOffset _ _ => exact again
    | deleteVertex u =>
        obtain ⟨t, g₂, drawn, deleted, acted, readable⟩ := redeletion_readable P timed₁ few₁ again
        have second : actions P g₁' [.deleteVertex u] = .ok g₂ := by
          rw [actions, List.foldlM_cons, acted]
          rfl
        exact readable ((permanent done [.deleteVertex u] ⟨rest, split⟩ g₁' g₂ reached second t drawn).1 u deleted)
  · obtain ⟨rest, split⟩ := split
    obtain ⟨g₁', first', ⟨⟨A, holds⟩, -⟩, -⟩ := start.actions P earlier
    obtain rfl := Except.ok.inj (first'.symm.trans first)
    rw [← split, List.append_assoc, along_append] at once
    have allowed := (along_append.mp (once.2 g₁' first)).1
    have steps (g : RadixGraph W) (action : Action W) (before : ∃ A', Since ws A g₁'.gone g A')
        (once : ¬ g.Redeletes action) : ∃ g', act P g action = .ok g' ∧ ∃ A', Since ws A g₁'.gone g' A' := by
      obtain ⟨A', since⟩ := before
      exact since.act P once
    obtain ⟨g₂', second', A', since⟩ :=
      foldlM_along steps ⟨A, holds, List.prefix_rfl, fun _ _ => rfl⟩ allowed
    obtain rfl := Except.ok.inj (second'.symm.trans second)
    refine ⟨fun id deleted => ?_, fun k deleted before => ?_⟩
    · obtain ⟨k, known, deleted, before⟩ := (deletedBy_iff holds id t).mp deleted
      have known' := SORT.position_extends since.ids known
      exact (since.refused deleted before (SORT.position_isLt known')).1 id known'
    · have inside := (holds.inside_of_gone deleted).trans_le since.ids.length_le
      exact (since.refused deleted before inside).2

theorem permanent_iff_once : ∃ g : RadixGraph Nat,
    actions Platform.exact (construct ⟨0, false⟩ (.ofVector [1]) 1 (by decide))
      [.op (.insertEdge 0 1 1), .deleteVertex 0, .op .getGlobalTimestamp, .op (.insertEdge 0 1 2)] = .ok g ∧
    Permanent Platform.exact (construct ⟨0, false⟩ (.ofVector [1] : SORT Nat) 1 (by decide))
      [.op (.insertEdge 0 1 1), .deleteVertex 0, .op .getGlobalTimestamp, .op (.insertEdge 0 1 2)] := by
  have constructed : SORT.Constructed (SORT.ofVector [1] : SORT Nat) [1] := .vector (by decide)
  obtain ⟨g, ran, same⟩ := permanent_iff Platform.exact ⟨0, false⟩ constructed (show 0 < 1 by decide)
    [.op (.insertEdge 0 1 1), .deleteVertex 0, .op .getGlobalTimestamp, .op (.insertEdge 0 1 2)]
  have few : g.global.ticks < 2 ^ 31 := by
    have counted : (Except.ok g : Result (RadixGraph Nat)).map (·.global.ticks) = .ok 1 := by
      rw [← ran]
      rfl
    have one : g.global.ticks = 1 := Except.ok.inj counted
    omega
  refine ⟨g, ran, (same few).mpr ⟨id, fun g₁ first => ⟨fun again => ?_, fun g₂ second => ?_⟩⟩⟩
  · obtain ⟨d, time, deleted, -⟩ := again
    have alive : (Except.ok g₁ : Result (RadixGraph Nat)).bind (·.deletionTime 0) = .ok (-1) := by
      rw [← first]
      rfl
    exact deleted (Except.ok.inj (time.symm.trans alive))
  · exact ⟨id, fun _ _ => ⟨id, fun _ _ => trivial⟩⟩

/-- A vertex deleted again: the read that was refused at timestamp 0 succeeds. -/
theorem deletion_revoked : ∃ g₁ g₂ : RadixGraph Nat,
    actions Platform.exact (construct ⟨0, false⟩ (.ofVector [1]) 1 (by decide))
      [.op (.insertEdge 0 1 1), .deleteVertex 0, .op .getGlobalTimestamp] = .ok g₁ ∧
    0 < g₁.global.ticks ∧ g₁.readVertex 0 0 = .ok (false, []) ∧ g₁.readOffset 0 0 = .ok (false, []) ∧
    actions Platform.exact g₁ [.deleteVertex 0] = .ok g₂ ∧
    g₂.readVertex 0 0 = .ok (true, [{ weight := 1, idx := 1 }]) ∧
    g₂.readOffset 0 0 = .ok (true, [{ weight := 1, idx := 1 }]) :=
  ⟨_, _, rfl, by decide, rfl, rfl, rfl, rfl, rfl⟩

end RadixGraph

end Radix
