import Radix.Graph.Listings
import Radix.Graph.Reports

/-!
# Entries that lead to deleted vertices

Neither reads nor compactions drop an entry because its destination has been deleted. A deleted vertex
stays out of the lists if its incoming edges are gone before it is deleted, and none is inserted after.
-/

namespace Radix

open Lib Lib.LastWrite

variable {W : Type} [Zero W] [DecidableEq W]

omit [DecidableEq W] in
theorem visibleLog_snoc {ts : List Int} {log : List (WeightedEdge W)} (length : ts.length = log.length)
    (timestamp stamp : Int) (e : WeightedEdge W) :
    visibleLog timestamp (some (ts ++ [stamp])) (log ++ [e]) =
      if stamp ≤ timestamp then log ++ [e] else visibleLog timestamp (some ts) log := by
  simp only [visibleLog, visibleCount_snoc]
  split
  · exact List.take_of_length_le (by simp [length])
  · exact List.take_append_of_le_length (length ▸ visibleCount_le timestamp ts)

theorem mem_scan_snoc {snap log : List (WeightedEdge W)} {d e : WeightedEdge W} (other : e.idx ≠ d.idx)
    (member : d ∈ scan WeightedEdge.idx WeightedEdge.live snap (log ++ [e])) :
    d ∈ scan WeightedEdge.idx WeightedEdge.live snap log := by
  obtain ⟨alive, last | ⟨untouched, old⟩⟩ := mem_scan.mp member
  · rw [List.reverse_append, List.reverse_singleton, List.singleton_append,
      List.find?_cons_of_neg (by simpa using other)] at last
    exact mem_scan.mpr ⟨alive, .inl last⟩
  · rw [List.map_append, List.mem_append, not_or] at untouched
    exact mem_scan.mpr ⟨alive, .inr ⟨untouched.1, old⟩⟩

namespace Page

def Lists (p : Page W) (l timestamp : Int) : Prop :=
  p.snapshotTimestamp ≤ timestamp ∧ ∃ e ∈ listed [] p.snap (visibleLog timestamp p.stamps p.log), e.idx = l

def Keeps (p : Page W) (l : Int) : Prop := ∃ e ∈ p.kept, e.idx = l

def Whole (p : Page W) : Prop := p.log = [] → p.deg = p.size

theorem mem_of_mem_listed {snap log : List (WeightedEdge W)} {e : WeightedEdge W}
    (member : e ∈ listed [] snap log) : e ∈ snap ++ log := by
  unfold listed at member
  split at member
  · exact List.mem_append_left _ member
  · exact List.mem_append.mpr (mem_of_mem_scan member)

theorem Lists.stored {p : Page W} {l timestamp : Int} (lists : p.Lists l timestamp) :
    ∃ e ∈ p.snap ++ p.log, e.idx = l := by
  obtain ⟨-, e, member, same⟩ := lists
  obtain ⟨later, split⟩ := visibleLog_prefix timestamp p.stamps p.log
  refine ⟨e, ?_, same⟩
  rw [split, ← List.append_assoc]
  exact List.mem_append_left _ (mem_of_mem_listed member)

theorem keeps_of_scan {p : Page W} {e : WeightedEdge W}
    (member : e ∈ scan WeightedEdge.idx WeightedEdge.live p.snap p.log) : p.Keeps e.idx := by
  refine ⟨e, ?_, rfl⟩
  unfold kept
  split
  · exact List.mem_append.mpr (mem_of_mem_scan member)
  · exact member

theorem Lists.keeps {p : Page W} {l timestamp : Int} (lists : p.Lists l timestamp) (whole : p.Whole)
    (all : visibleLog timestamp p.stamps p.log = p.log) : p.Keeps l := by
  obtain ⟨-, e, member, rfl⟩ := lists
  rw [all, listed] at member
  split at member
  · rename_i nothing
    refine ⟨e, ?_, rfl⟩
    rw [kept, if_pos (whole nothing).symm]
    exact List.mem_append_left _ member
  · exact keeps_of_scan member

theorem Logs.whole {info : GlobalInfo} {e : WeightedEdge W} {delta : Int} {p p' : Page W} {ticks' : Nat}
    (logs : p.Logs info e delta ticks' p') : p'.Whole := by
  obtain ⟨log, last⟩ := logs.last
  intro nothing
  simp [last] at nothing

theorem Snapshot.whole {info : GlobalInfo} {sorted : Bool} {p p' : Page W} {ticks' : Nat}
    (snapshot : p.Snapshot info sorted ticks' p') : p'.Whole := by
  obtain ⟨drawn, free, snap, -⟩ := snapshot
  intro _
  simp [ofSnapshot, size]

theorem Logs.lists {info : GlobalInfo} {e : WeightedEdge W} {delta : Int} {p p' : Page W} {ticks' : Nat}
    (logs : p.Logs info e delta ticks' p') (length : ∀ ts, p.stamps = some ts → ts.length = p.log.length)
    {l timestamp : Int} (other : e.idx ≠ l) (lists : p'.Lists l timestamp) :
    p.Lists l timestamp ∨ p.Keeps l := by
  cases logs with
  | room _ _ =>
      obtain ⟨old, d, member, rfl⟩ := lists
      have whole_log (member : d ∈ listed [] p.snap (p.log ++ [e])) : p.Keeps d.idx := by
        rw [listed, if_neg (by simp)] at member
        exact keeps_of_scan (mem_scan_snoc other member)
      cases stamped : p.stamps with
      | none =>
          simp only [logged, stamped, Option.map_none, visibleLog] at member
          exact .inr (whole_log member)
      | some ts =>
          simp only [logged, stamped, Option.map_some, visibleLog_snoc (length ts stamped)] at member
          split at member
          · exact .inr (whole_log member)
          · exact .inl ⟨old, d, by rwa [stamped], rfl⟩
  | full drawn free _ _ _ =>
      obtain ⟨d, member, rfl⟩ := lists.stored
      simp only [logged, ofSnapshot, List.nil_append, List.mem_append, List.mem_singleton] at member
      rcases member with inside | rfl
      · exact .inr ⟨d, inside, rfl⟩
      · exact absurd rfl other

theorem Logs.lists_early {info : GlobalInfo} {e : WeightedEdge W} {delta : Int} {p p' : Page W} {ticks' : Nat}
    (logs : p.Logs info e delta ticks' p') (length : ∀ ts, p.stamps = some ts → ts.length = p.log.length)
    (few : ticks' < 2 ^ 31) {l timestamp : Int} (early : timestamp < info.ticks)
    (other : p.stamps.isSome ∨ e.idx ≠ l) (lists : p'.Lists l timestamp) : p.Lists l timestamp := by
  cases logs with
  | room _ ticks =>
      obtain ⟨old, d, member, rfl⟩ := lists
      refine ⟨old, d, ?_, rfl⟩
      cases stamped : p.stamps with
      | none =>
          have other : e.idx ≠ d.idx := other.resolve_left (by simp [stamped])
          simp only [logged, stamped, Option.map_none, visibleLog] at member
          rw [listed, if_neg (by simp)] at member
          have member := mem_scan_snoc other member
          rw [visibleLog, listed]
          split
          · rename_i nothing
            rw [nothing] at member
            exact (mem_of_mem_scan member).resolve_right (by simp)
          · exact member
      | some ts =>
          have now : GlobalInfo.timestampAt info.ticks = info.ticks :=
            GlobalInfo.timestampAt_eq ((Carries.le_ticksAfter p.stamps info.ticks).trans_lt (ticks ▸ few))
          simp only [logged, stamped, Option.map_some, visibleLog_snoc (length ts stamped), now] at member
          rwa [if_neg (by omega)] at member
  | full drawn free _ later ticks =>
      have drawn_few : drawn < 2 ^ 31 := by
        have := Carries.le_ticksAfter info.freshStamps (drawn + 1)
        omega
      have shown := lists.1
      simp only [logged, ofSnapshot, GlobalInfo.timestampAt_eq drawn_few] at shown
      omega

theorem Logs.keeps {info : GlobalInfo} {e : WeightedEdge W} {delta : Int} {p p' : Page W} {ticks' : Nat}
    (logs : p.Logs info e delta ticks' p') (few : p.deg ≤ p.size) (one : delta ≤ 1) {l : Int}
    (other : e.idx ≠ l) (keeps : p'.Keeps l) : p.Keeps l := by
  obtain ⟨d, member, rfl⟩ := keeps
  cases logs with
  | room _ _ =>
      unfold kept at member
      split at member
      · rename_i even
        simp only [logged, size, List.length_append, List.length_singleton] at even member few
        have even : (p.size : Int) = p.deg := by
          rw [size]
          omega
        rw [← List.append_assoc, List.mem_append, List.mem_singleton] at member
        refine ⟨d, ?_, rfl⟩
        rw [kept, if_pos even]
        exact member.resolve_right fun same => other (same ▸ rfl)
      · exact keeps_of_scan (mem_scan_snoc other member)
  | full drawn free _ _ _ =>
      have inside := mem_of_mem_kept member
      simp only [logged, ofSnapshot, List.nil_append, List.mem_append, List.mem_singleton] at inside
      rcases inside with inside | rfl
      · exact ⟨d, inside, rfl⟩
      · exact absurd rfl other

theorem Snapshot.stored {info : GlobalInfo} {sorted : Bool} {p p' : Page W} {ticks' : Nat}
    (snapshot : p.Snapshot info sorted ticks' p') {l : Int} (stored : ∃ e ∈ p'.snap ++ p'.log, e.idx = l) :
    p.Keeps l := by
  obtain ⟨drawn, free, snap, same, -⟩ := snapshot
  obtain ⟨e, member, rfl⟩ := stored
  rw [ofSnapshot, List.append_nil, same.mem_iff] at member
  exact ⟨e, member, rfl⟩

theorem Snapshot.late {info : GlobalInfo} {sorted : Bool} {p p' : Page W} {ticks' : Nat}
    (snapshot : p.Snapshot info sorted ticks' p') (few : ticks' < 2 ^ 31) {l timestamp : Int}
    (lists : p'.Lists l timestamp) : info.ticks ≤ timestamp := by
  obtain ⟨drawn, free, snap, -, -, low, high⟩ := snapshot
  have shown := lists.1
  simp only [ofSnapshot, GlobalInfo.timestampAt_eq (high.trans few)] at shown
  omega

/-- The page of the record `k` shows no vertex at a timestamp at which it is deleted and `k` is not, and
keeps no deleted vertex unless `k` is deleted. -/
structure Closed (gone : Nat → Int) (k : Nat) (p : Page W) : Prop where
  whole : p.Whole
  unlisted : ∀ l : Nat, k ≠ l → gone l ≠ -1 → ∀ t, gone l ≤ t → gone k = -1 ∨ t < gone k → ¬ p.Lists l t
  unkept : ∀ l : Nat, k ≠ l → gone l ≠ -1 → gone k = -1 → ¬ p.Keeps l

theorem fresh_closed (gone : Nat → Int) (k : Nat) (info : GlobalInfo) : (fresh info : Page W).Closed gone k where
  whole _ := rfl
  unlisted l _ _ t _ _ lists := by
    obtain ⟨e, member, -⟩ := lists.stored
    simp [fresh] at member
  unkept l _ _ _ keeps := by
    obtain ⟨e, member, -⟩ := keeps
    have := mem_of_mem_kept member
    simp [fresh] at this

theorem Closed.logs {gone : Nat → Int} {k : Nat} {p p' : Page W} (closed : p.Closed gone k) {info : GlobalInfo}
    {e : WeightedEdge W} {delta : Int} {ticks' : Nat} (logs : p.Logs info e delta ticks' p')
    (length : ∀ ts, p.stamps = some ts → ts.length = p.log.length) (few : p.deg ≤ p.size) (one : delta ≤ 1)
    (few' : ticks' < 2 ^ 31) (by_now : gone k ≠ -1 → gone k ≤ info.ticks)
    (allowed : ∀ l : Nat, e.idx = l → gone l ≠ -1 → gone k ≠ -1 ∧ (p.stamps.isSome ∨ gone k ≤ gone l)) :
    p'.Closed gone k where
  whole := logs.whole
  unlisted l other deleted t late open' lists := by
    by_cases alive : gone k = -1
    · have elsewhere : e.idx ≠ l := fun leads => (allowed l leads deleted).1 alive
      rcases logs.lists length elsewhere lists with listed | kept
      · exact closed.unlisted l other deleted t late open' listed
      · exact closed.unkept l other deleted alive kept
    · have early : t < gone k := open'.resolve_left alive
      have stamped : p.stamps.isSome ∨ e.idx ≠ l := by
        by_cases leads : e.idx = l
        · exact .inl ((allowed l leads deleted).2.resolve_right (by omega))
        · exact .inr leads
      have listed := logs.lists_early length few' (early.trans_le (by_now alive)) stamped lists
      exact closed.unlisted l other deleted t late open' listed
  unkept l other deleted alive keeps :=
    closed.unkept l other deleted alive
      (logs.keeps few one (fun leads => (allowed l leads deleted).1 alive) keeps)

theorem Closed.snapshot {gone : Nat → Int} {k : Nat} {p p' : Page W} (closed : p.Closed gone k) {info : GlobalInfo}
    {sorted : Bool} {ticks' : Nat} (snapshot : p.Snapshot info sorted ticks' p') (few : ticks' < 2 ^ 31)
    (by_now : gone k ≠ -1 → gone k ≤ info.ticks) : p'.Closed gone k where
  whole := snapshot.whole
  unlisted l other deleted t late open' lists := by
    by_cases alive : gone k = -1
    · exact closed.unkept l other deleted alive (snapshot.stored lists.stored)
    · have early : t < gone k := open'.resolve_left alive
      have after := snapshot.late few lists
      have := by_now alive
      omega
  unkept l other deleted alive keeps := by
    obtain ⟨e, member, leads⟩ := keeps
    exact closed.unkept l other deleted alive (snapshot.stored ⟨e, mem_of_mem_kept member, leads⟩)

end Page

namespace RadixGraph

def recordOf (g : RadixGraph W) (id : NodeID) : Option Nat :=
  match g.vertexIndex.retrieveVertex g.global id false with
  | .ok (.leaf k, _) => some k
  | _ => none

structure NoDangling (g : RadixGraph W) : Prop where
  byId : ∀ u t found neighbours, g.readVertex u t = .ok (found, neighbours) →
    ∀ e ∈ neighbours, ∀ v, g.getExternalID e.idx = .ok v → ¬ g.DeletedBy v t
  byOffset : ∀ (k : Nat) t found neighbours, g.readOffset k t = .ok (found, neighbours) →
    ∀ e ∈ neighbours, ∀ v, g.getExternalID e.idx = .ok v → ¬ g.DeletedBy v t

/-- A vertex is deleted when a compaction would keep no entry that leads to it, except in the arrays of
deleted vertices, and deleted again only if its own array leads to no other deleted vertex. Edges
are inserted to deleted vertices only from vertices whose list is closed to them. -/
def Careful (g : RadixGraph W) : Action W → Prop
  | .deleteVertex x => ∀ j, g.recordOf x = some j →
      (∀ k p, k ≠ j → g.gone k = -1 → g.Paged k p → ∀ e ∈ p.kept, e.idx ≠ j) ∧
      (g.gone j ≠ -1 → g.gone j ≠ g.global.globalTimestamp → ∀ p, g.Paged j p →
        ∀ e ∈ p.snap ++ p.log, e.idx ≠ j → g.gone e.idx.toNat = -1)
  | .op (.insertEdge u v _) => ∀ l, g.recordOf v = some l → g.gone l ≠ -1 →
      ∃ k, g.recordOf u = some k ∧ g.gone k ≠ -1 ∧ (g.global.isMixedWorkloads = true ∨ g.gone k ≤ g.gone l)
  | _ => True

def Sealed (g : RadixGraph W) : Prop := ∀ k p, g.Paged k p → p.Closed g.gone k

variable {rules : Rules} {ws : List Nat} {g g' : RadixGraph W} {A : Ledger W}

theorem recordOf_holds (holds : Holds rules ws g A) (id : NodeID) :
    g.recordOf id = SORT.position ws.sum A.ids id := by
  obtain ⟨root, retrieved, -⟩ := holds.dictionary.query g.global id
  rw [recordOf, retrieved]
  cases SORT.position ws.sum A.ids id <;> rfl

/-- An entry that leads to a deleted vertex is written only where `Careful` allows it. -/
theorem entry_careful (holds : Holds rules ws g A) {action : Action W} (careful : g.Careful action)
    {k : Nat} {e : WeightedEdge W} {delta : Int}
    (entry : A.entry ws.sum g.gone action = some (k, e, delta)) : delta ≤ 1 ∧
      ∀ l : Nat, e.idx = l → g.gone l ≠ -1 →
        g.gone k ≠ -1 ∧ (g.global.isMixedWorkloads = true ∨ g.gone k ≤ g.gone l) := by
  have live {src des : NodeID} {weight : W} {d : Int} (le : d ≤ 1)
      (entry : A.liveEntry ws.sum g.gone src des weight d = some (k, e, delta)) : delta ≤ 1 ∧
        ∀ l : Nat, e.idx = l → g.gone l ≠ -1 →
          g.gone k ≠ -1 ∧ (g.global.isMixedWorkloads = true ∨ g.gone k ≤ g.gone l) := by
    obtain ⟨m, -, -, -, alive, rfl, rfl⟩ := Ledger.liveEntry_eq_some entry
    refine ⟨le, fun l same deleted => ?_⟩
    obtain rfl : m = l := Int.natCast_inj.mp same
    exact absurd alive deleted
  match action with
  | .op (.updateEdge _ _ _) => exact live (by omega) entry
  | .op (.deleteEdge _ _) => exact live (by omega) entry
  | .op (.insertEdge u v weight) =>
      obtain ⟨m, source, target, rfl, rfl⟩ := Ledger.insertEntry_eq_some entry
      refine ⟨le_rfl, fun l same deleted => ?_⟩
      obtain rfl : m = l := Int.natCast_inj.mp same
      have extends' := (enter_extends ws.sum A.ids u).trans (enter_extends ws.sum _ v)
      have known := SORT.position_before extends' target (holds.inside_of_gone deleted)
      obtain ⟨k', known', gone, allowed⟩ := careful m ((recordOf_holds holds v).trans known) deleted
      rw [recordOf_holds holds] at known'
      obtain rfl := Option.some.inj ((SORT.position_extends extends' known').symm.trans source)
      exact ⟨gone, allowed⟩
  | .op (.createSnapshots _ _) | .op (.setExpandRate _) | .op .getGlobalTimestamp | .op (.getNeighbours _ _)
  | .deleteVertex _ | .getNeighboursByOffset _ _ => cases entry

theorem Sealed.deleteVertex (holds : Holds rules ws g A) (by_now : g.GoneBy) (few : g.global.ticks < 2 ^ 31)
    (sealing : g.Sealed) {x : NodeID} (careful : g.Careful (.deleteVertex x)) {j : Nat}
    (known : SORT.position ws.sum A.ids x = some j) {k : Nat} {p : Page W} (paged : g.Paged k p) :
    p.Closed (Function.update g.gone j g.global.globalTimestamp) k := by
  obtain ⟨unkept, again⟩ := careful j ((recordOf_holds holds x).trans known)
  rw [GlobalInfo.globalTimestamp, GlobalInfo.timestampAt_eq few] at again ⊢
  have closed := sealing k p paged
  have unkept_j (other : k ≠ j) (alive : g.gone k = -1) : ¬ p.Keeps j := by
    rintro ⟨e, member, same⟩
    exact unkept k p other alive paged e member same
  refine ⟨closed.whole, fun l other deleted t late open' lists => ?_, fun l other deleted alive keeps => ?_⟩
  · by_cases target : l = j
    · -- From the deletion on a read sees the whole log.
      subst target
      rw [Function.update_self] at late
      rw [Function.update_of_ne other] at open'
      by_cases alive : g.gone k = -1
      · obtain ⟨-, past, carries⟩ := paged.carries holds
        exact unkept_j other alive (lists.keeps closed.whole (carries.visible_now few late))
      · have := by_now.le_now few alive
        omega
    · rw [Function.update_of_ne target] at deleted late
      by_cases source : k = j
      · -- A second deletion opens the list of the vertex for the time in between.
        subst source
        rw [Function.update_self] at open'
        by_cases first : g.gone k = -1
        · exact closed.unlisted l other deleted t late (.inl first) lists
        · by_cases same : g.gone k = g.global.ticks
          · exact closed.unlisted l other deleted t late (.inr (by omega)) lists
          · obtain ⟨e, member, leads⟩ := lists.stored
            have alive := again first same p paged e member fun equal =>
              target (Int.natCast_inj.mp (leads.symm.trans equal))
            rw [leads, Int.toNat_natCast] at alive
            exact deleted alive
      · rw [Function.update_of_ne source] at open'
        exact closed.unlisted l other deleted t late open' lists
  · by_cases source : k = j
    · subst source
      rw [Function.update_self] at alive
      omega
    · rw [Function.update_of_ne source] at alive
      by_cases target : l = j
      · subst target
        exact unkept_j other alive keeps
      · rw [Function.update_of_ne target] at deleted
        exact closed.unkept l other deleted alive keeps

theorem Sealed.act (P : Platform W) (holds : Holds .lax ws g A) (by_now : g.GoneBy) {action : Action W}
    (ran : act P g action = .ok g') (few : g'.global.ticks < 2 ^ 31) (sealing : g.Sealed)
    (careful : g.Careful action) : g'.Sealed := by
  obtain ⟨g₁, acted, -, times, le, -⟩ := act_holds P id holds (Ledger.admits_lax ws.sum A action)
  obtain rfl := Except.ok.inj (acted.symm.trans ran)
  have few₁ := le.trans_lt few
  intro k p' paged
  obtain ⟨p, before, turned⟩ := act_pages P holds ran paged
  by_cases deletes : ∃ x j, action = .deleteVertex x ∧ SORT.position ws.sum A.ids x = some j
  · obtain ⟨x, j, rfl, known⟩ := deletes
    rw [times, Ledger.goneAfter_known known]
    cases turned with
    | logs e delta p' entry _ => cases entry
    | snapshot sorted makeDense p' same _ => cases same
    | same _ _ =>
        rcases before with before | ⟨-, rfl⟩
        · exact sealing.deleteVertex holds by_now few₁ careful known before
        · exact Page.fresh_closed _ k g.global
  · have gone : g₁.gone = g.gone := by
      rw [times]
      cases action with
      | deleteVertex x =>
          cases known : SORT.position ws.sum A.ids x with
          | none => exact Ledger.goneAfter_unknown known _ _
          | some j => exact absurd ⟨x, j, rfl, known⟩ deletes
      | op _ | getNeighboursByOffset _ _ => rfl
    rw [gone]
    have closed : p.Closed g.gone k := by
      rcases before with before | ⟨-, rfl⟩
      · exact sealing k p before
      · exact Page.fresh_closed _ k g.global
    have dated (deleted : g.gone k ≠ -1) : g.gone k ≤ g.global.ticks := by_now.le_now few₁ deleted
    cases turned with
    | logs e delta p' entry logs =>
        obtain ⟨one, allowed⟩ := entry_careful holds careful entry
        have laid : (∀ ts, p.stamps = some ts → ts.length = p.log.length) ∧ p.deg ≤ p.size ∧
            p.stamps.isSome = g.global.isMixedWorkloads := by
          rcases before with before | ⟨-, rfl⟩
          · obtain ⟨aligned, past, carries⟩ := before.carries holds
            exact ⟨carries.length, carries.few, aligned⟩
          · refine ⟨?_, le_rfl, Carries.freshStamps_isSome g.global⟩
            cases mixed : g.global.isMixedWorkloads <;> simp [Page.fresh, GlobalInfo.freshStamps, mixed]
        obtain ⟨length, counted, aligned⟩ := laid
        exact closed.logs logs length counted one few dated (aligned ▸ allowed)
    | snapshot sorted makeDense p' same snapshot => exact closed.snapshot snapshot few dated
    | same _ _ => exact closed

theorem Sealed.noDangling (holds : Holds rules ws g A) (leads : g.AllLead A.ids.length) (sealing : g.Sealed) :
    g.NoDangling := by
  have clear {k : Nat} {p : Page W} (paged : g.Paged k p) {t : Int} {e : WeightedEdge W}
      (member : e ∈ (g.answer k p t).2) {v : NodeID} (external : g.getExternalID e.idx = .ok v) :
      ¬ g.DeletedBy v t := by
    intro deleted
    obtain ⟨l, known, gone, late⟩ := (deletedBy_iff holds v t).mp deleted
    unfold answer at member
    split at member
    · cases member
    · rename_i open'
      unfold Page.read at member
      split at member
      · rename_i shown
        have lists : p.Lists e.idx t := ⟨shown, e, member, rfl⟩
        obtain ⟨d, stored, same⟩ := lists.stored
        obtain ⟨nonneg, inside⟩ := leads k p paged d stored
        obtain ⟨m, index⟩ := Int.eq_ofNat_of_zero_le nonneg
        have here : m < A.ids.length := by omega
        have target : e.idx = m := same.symm.trans index
        rw [target, getExternalID_holds holds (List.getElem?_eq_getElem here), Except.ok.injEq] at external
        have known' := holds.dictionary.position_self (List.getElem?_eq_getElem here)
        rw [external, known] at known'
        obtain rfl := Option.some.inj known'
        rw [target] at lists
        by_cases same : k = l
        · subst same
          exact open' ⟨gone, late⟩
        · refine (sealing k p paged).unlisted l same gone t late ?_ lists
          by_contra closed
          exact open' ⟨fun alive => closed (.inl alive), by omega⟩
      · cases member
  constructor
  · intro u t found neighbours read e member v external
    cases known : SORT.position ws.sum A.ids u with
    | none =>
        rw [readVertex_unknown holds known] at read
        cases read
        cases member
    | some k =>
        obtain ⟨p, -, paged, -⟩ := holds.page (SORT.position_isLt known)
        rw [paged.readVertex holds known, Except.ok.injEq] at read
        exact clear paged (by rw [read]; exact member) external
  · intro k t found neighbours read e member v external
    by_cases inside : k < A.ids.length
    · obtain ⟨p, -, paged, -⟩ := holds.page inside
      rw [paged.readOffset holds, Except.ok.injEq] at read
      exact clear paged (by rw [read]; exact member) external
    · rw [readOffset_unknown holds (Nat.not_lt.mp inside)] at read
      cases read
      cases member

/-- In a run that deletes vertices and inserts edges with care, no read lists a vertex at a timestamp at
which it had been deleted. -/
theorem deleted_unlisted (P : Platform W) (global : GlobalInfo) {index : SORT W} {ws : List Nat}
    (constructed : SORT.Constructed index ws) {L : Nat} (positive : 0 < L) {acts : List (Action W)}
    (careful : Along (act P) Careful (construct global index L positive) acts) :
    ∃ g, actions P (construct global index L positive) acts = .ok g ∧
      (g.global.ticks < 2 ^ 31 → g.NoDangling) := by
  let Fine (g : RadixGraph W) : Prop := ∃ A, Holds .lax ws g A ∧ g.AllLead A.ids.length ∧ g.GoneBy ∧
    (g.global.ticks < 2 ^ 31 → g.Sealed)
  have steps (g : RadixGraph W) (action : Action W) (fine : Fine g) (careful : g.Careful action) :
      ∃ g', act P g action = .ok g' ∧ Fine g' := by
    obtain ⟨A, holds, leads, by_now, sealing⟩ := fine
    obtain ⟨g', ran, holds', -, le, -⟩ := act_holds P id holds (Ledger.admits_lax ws.sum A action)
    exact ⟨g', ran, _, holds', act_leads P holds ran _ leads, act_goneBy P holds ran by_now,
      fun few => (sealing (le.trans_lt few)).act P holds by_now ran few careful⟩
  have start : Holds .lax ws (construct global index L positive) {} := construct_holds .lax global constructed positive
  have empty {k : Nat} {p : Page W} (paged : (construct global index L positive).Paged k p) : False :=
    Nat.not_lt_zero k (paged.inside start)
  obtain ⟨g, ran, A, holds, leads, -, sealing⟩ := foldlM_along steps (s := construct global index L positive)
    ⟨{}, start, fun k p paged => (empty paged).elim, (Timed.start global constructed positive).gone,
      fun _ k p paged => (empty paged).elim⟩ careful
  exact ⟨g, ran, fun few => (sealing few).noDangling holds leads⟩

/-- The only edge to the vertex is deleted before it. -/
theorem deleted_unlisted_unlinked : ∃ g : RadixGraph Nat,
    actions Platform.exact (construct ⟨0, true⟩ (.ofVector [1]) 1 (by decide))
      [.op (.insertEdge 0 1 1), .op (.deleteEdge 0 1), .deleteVertex 1] = .ok g ∧
    (g.global.ticks < 2 ^ 31 → g.NoDangling) := by
  have constructed : SORT.Constructed (SORT.ofVector [1] : SORT Nat) [1] := .vector (by decide)
  refine deleted_unlisted Platform.exact ⟨0, true⟩ constructed (by decide)
    ⟨fun l known => ?_, fun g₁ first => ⟨trivial, fun g₂ second => ⟨fun j known => ?_, fun _ _ => trivial⟩⟩⟩
  · cases known
  · have start := construct_holds .lax ⟨0, true⟩ constructed (show 0 < 1 by decide)
    obtain ⟨g', acted, holds, times, -⟩ := act_holds Platform.exact id start (Ledger.admits_lax 1 {} _)
    obtain rfl := Except.ok.inj (acted.symm.trans first)
    obtain ⟨A, holds, ids⟩ : ∃ A : Ledger Nat, Holds .lax [1] g' A ∧ A.ids = [0, 1] := ⟨_, holds, rfl⟩
    obtain ⟨g'', acted', holds', times', -⟩ := act_holds Platform.exact id holds (Ledger.admits_lax 1 _ _)
    obtain rfl := Except.ok.inj (acted'.symm.trans second)
    have undeleted (k : Nat) : g'.gone k = -1 := by
      rw [times]
      exact start.gone_unborn (Nat.zero_le k)
    have inserted {k : Nat} {p : Page Nat} (paged : g'.Paged k p) : p.Spans False fun i => k = 0 ∧ i = 1 := by
      obtain ⟨q, before, turned⟩ := act_pages Platform.exact start first paged
      obtain rfl : q = .fresh ⟨0, true⟩ := (before.resolve_left fun old => Nat.not_lt_zero k (old.inside start)).2
      cases turned with
      | logs e delta p' entry logs =>
          cases entry
          exact ((Page.Spans.fresh _).logs logs le_rfl False.elim).congr fun i => by simp
      | snapshot sorted makeDense p' same _ => cases same
      | same silent _ =>
          refine (Page.Spans.fresh _).congr fun i => ⟨False.elim, ?_⟩
          rintro ⟨rfl, -⟩
          exact silent _ _ rfl
    have place : 1 = j := by
      rw [recordOf_holds holds', Ledger.liveNext] at known
      split at known
      · rw [Ledger.write_ids, ids] at known
        exact Option.some.inj known
      · rw [ids] at known
        exact Option.some.inj known
    refine ⟨fun k p other _ paged e member same => ?_, fun deleted => ?_⟩
    · obtain ⟨q, before, turned⟩ := act_pages Platform.exact holds second paged
      have spans : q.Spans False fun i => k = 0 ∧ i = 1 := by
        rcases before with old | ⟨outside, rfl⟩
        · exact inserted old
        · refine (Page.Spans.fresh _).congr fun i => ⟨False.elim, ?_⟩
          rintro ⟨rfl, -⟩
          rw [ids] at outside
          exact absurd outside (by decide)
      cases turned with
      | logs d delta p' entry logs =>
          rw [Ledger.entry] at entry
          obtain ⟨l, -, to_l, -, -, rfl, rfl⟩ := Ledger.liveEntry_eq_some entry
          rw [ids] at to_l
          obtain rfl : 1 = l := Option.some.inj to_l
          have listed := (spans.logs logs (by decide) False.elim).kept member
          rw [same, ← place] at listed
          simp [WeightedEdge.live] at listed
      | snapshot sorted makeDense p' same _ => cases same
      | same silent _ =>
          obtain ⟨rfl, -⟩ := spans.kept member
          refine silent _ _ (Ledger.liveEntry_alive (l := 1) ?_ (undeleted 0) ?_ (undeleted 1))
          · rw [ids]
            rfl
          · rw [ids]
            rfl
    · rw [times'] at deleted
      exact absurd (undeleted j) deleted

/-- A read after the deletion of the destination still lists the edge. -/
theorem deleted_listed : ∃ g : RadixGraph Nat,
    actions Platform.exact (construct ⟨0, false⟩ (.ofVector [1]) 1 (by decide))
      [.op (.insertEdge 0 1 1), .deleteVertex 1] = .ok g ∧
    g.readVertex 0 maxTimestamp = .ok (true, [{ weight := 1, idx := 1 }]) ∧ ¬ g.NoDangling := by
  refine ⟨_, rfl, rfl, fun clear => ?_⟩
  exact clear.byId 0 maxTimestamp _ _ rfl _ (List.mem_singleton_self _) 1 rfl ⟨0, rfl, by decide, by decide⟩

end RadixGraph

end Radix
