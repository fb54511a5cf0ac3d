import Radix.Graph.Pages

/-!
# The timestamps in the arrays

All timestamps come from one 32-bit counter. While it has not wrapped, a timestamp that is drawn
now is later than all those in the arrays, also in the versions that have been replaced.
-/

namespace Radix

open Lib

variable {W : Type} [Zero W]

structure WeightedEdgeArray.Drawn (ticks : Nat) (arr : WeightedEdgeArray W) : Prop where
  snapshot : arr.snapshotTimestamp = 0 ∨ ∃ i < ticks, arr.snapshotTimestamp = GlobalInfo.timestampAt i
  log : ∀ stamps, arr.timestamp = some stamps → ∀ s, some s ∈ stamps →
    ∃ i < ticks, s = GlobalInfo.timestampAt i

namespace WeightedEdgeArray.Drawn

variable {ticks ticks' : Nat} {arr arr' : WeightedEdgeArray W}

theorem later (drawn : arr.Drawn ticks) (le : ticks ≤ ticks') : arr.Drawn ticks' where
  snapshot := drawn.snapshot.imp_right fun ⟨i, less, same⟩ => ⟨i, less.trans_le le, same⟩
  log stamps present s member := by
    obtain ⟨i, less, same⟩ := drawn.log stamps present s member
    exact ⟨i, less.trans_le le, same⟩

theorem congr (drawn : arr.Drawn ticks) (snapshot : arr'.snapshotTimestamp = arr.snapshotTimestamp)
    (log : arr'.timestamp = arr.timestamp) : arr'.Drawn ticks where
  snapshot := snapshot ▸ drawn.snapshot
  log := log ▸ drawn.log

theorem newArray (info : GlobalInfo) (ticks : Nat) : (SORT.newArray info : WeightedEdgeArray W).Drawn ticks where
  snapshot := .inl rfl
  log stamps present s member := by
    unfold SORT.newArray at present
    split at present
    · obtain rfl := Option.some.inj present
      simp at member
    · cases present

theorem le_now (drawn : arr.Drawn ticks) (few : ticks < 2 ^ 31) :
    arr.snapshotTimestamp ≤ GlobalInfo.timestampAt ticks ∧
      ∀ stamps, arr.timestamp = some stamps → ∀ s, some s ∈ stamps → s ≤ GlobalInfo.timestampAt ticks := by
  rw [GlobalInfo.timestampAt_eq few]
  constructor
  · rcases drawn.snapshot with zero | ⟨i, less, same⟩
    · rw [zero]
      exact Int.natCast_nonneg ticks
    · rw [same, GlobalInfo.timestampAt_eq (less.trans few)]
      exact_mod_cast less.le
  · intro stamps present s member
    obtain ⟨i, less, rfl⟩ := drawn.log stamps present s member
    rw [GlobalInfo.timestampAt_eq (less.trans few)]
    exact_mod_cast less.le

end WeightedEdgeArray.Drawn

/-! ## Compaction -/

theorem store_timestamp {arr arr' : WeightedEdgeArray W} {i : Nat} {e : WeightedEdge W}
    (stored : arr.store i e = .ok arr') :
    arr'.snapshotTimestamp = arr.snapshotTimestamp ∧ arr'.timestamp = arr.timestamp := by
  unfold WeightedEdgeArray.store at stored
  split at stored
  · cases stored
  · split at stored
    · cases stored
      exact ⟨rfl, rfl⟩
    · cases stored

theorem copyEdges_timestamp {src dst dst' : WeightedEdgeArray W} {i n : Nat}
    (copied : copyEdges src dst i n = .ok dst') : dst'.timestamp = dst.timestamp := by
  induction n generalizing i dst with
  | zero =>
      cases copied
      rfl
  | succ n ih =>
      obtain ⟨e, -, copied⟩ := bind_eq_ok.mp copied
      obtain ⟨next, stored, copied⟩ := bind_eq_ok.mp copied
      exact (ih copied).trans (store_timestamp stored).2

theorem pushCompacted_timestamp {newArr newArr' : WeightedEdgeArray W} {num num' : Nat} {e : WeightedEdge W}
    (pushed : pushCompacted (newArr, num) e = .ok (newArr', num')) (unstamped : newArr.timestamp = none) :
    newArr'.timestamp = none := by
  rw [pushCompacted] at pushed
  split at pushed
  · obtain ⟨larger, grown, pushed⟩ := bind_eq_ok.mp pushed
    obtain ⟨arr, stored, ⟨⟩⟩ := bind_eq_ok.mp pushed
    exact (store_timestamp stored).2.trans (copyEdges_timestamp grown)
  · obtain ⟨same, ⟨⟩, pushed⟩ := bind_eq_ok.mp pushed
    obtain ⟨arr, stored, ⟨⟩⟩ := bind_eq_ok.mp pushed
    exact (store_timestamp stored).2.trans unstamped

variable [DecidableEq W]

theorem backwardScan_keeps {σ : Type} {push : σ → WeightedEdge W → Result σ} {holds : σ → Prop}
    (keeps : ∀ acc e acc', holds acc → push acc e = .ok acc' → holds acc') {skip : Bool}
    {arr : WeightedEdgeArray W} {n : Nat} {acc acc' : σ} {bitmap bitmap' : SegmentedBitmap}
    (scanned : backwardScan push skip arr n acc bitmap = .ok (acc', bitmap')) (start : holds acc) :
    holds acc' := by
  induction n generalizing acc bitmap with
  | zero =>
      cases scanned
      exact start
  | succ n ih =>
      obtain ⟨e, -, scanned⟩ := bind_eq_ok.mp scanned
      split at scanned
      · exact ih scanned start
      · obtain ⟨bit, -, scanned⟩ := bind_eq_ok.mp scanned
        split at scanned
        · exact ih scanned start
        · obtain ⟨next, pushed, scanned⟩ := bind_eq_ok.mp scanned
          refine ih scanned ?_
          unfold pushLive at pushed
          split at pushed
          · exact keeps acc e next start pushed
          · cases pushed
            exact start

theorem compactEdges_timestamp {bitmap bitmap' : SegmentedBitmap} {oldArr newArr newArr' : WeightedEdgeArray W}
    {num : Nat} (compacted : compactEdges bitmap oldArr newArr = .ok ((newArr', num), bitmap'))
    (unstamped : newArr.timestamp = none) : newArr'.timestamp = none := by
  unfold compactEdges at compacted
  split at compacted
  · obtain ⟨copy, copied, ⟨⟩⟩ := bind_eq_ok.mp compacted
    exact (copyEdges_timestamp copied).trans unstamped
  · obtain ⟨⟨acc, scratch⟩, scanned, compacted⟩ := bind_eq_ok.mp compacted
    obtain ⟨scratch', -, ⟨⟩⟩ := bind_eq_ok.mp compacted
    let plain (acc : WeightedEdgeArray W × Nat) : Prop := acc.1.timestamp = none
    have keeps : ∀ acc e acc', plain acc → pushCompacted acc e = .ok acc' → plain acc' := by
      rintro ⟨_, _⟩ _ ⟨_, _⟩ before pushed
      exact pushCompacted_timestamp pushed before
    have last : plain (newArr', num) := backwardScan_keeps keeps scanned unstamped
    exact last

theorem logCompaction_drawn {info info' : GlobalInfo} {bitmap bitmap' : SegmentedBitmap}
    {oldArr newArr : WeightedEdgeArray W} {m : Nat}
    (compacted : logCompaction info bitmap oldArr (.new m) = .ok (newArr, bitmap', info')) :
    info' = info.tick ∧ newArr.Drawn (info.ticks + 1) := by
  obtain ⟨⟨⟨arr, num⟩, scratch⟩, moved, ⟨⟩⟩ := bind_eq_ok.mp compacted
  refine ⟨rfl, .inr ⟨info.ticks, Nat.lt_succ_self _, rfl⟩, fun stamps present s member => ?_⟩
  have unstamped := compactEdges_timestamp moved rfl
  cases mixed : info.isMixedWorkloads with
  | false => simp [mixed, unstamped] at present
  | true =>
      simp only [mixed, if_true, Option.some.injEq] at present
      subst present
      simp at member

/-! ## Chains -/

def Dated (ticks : Nat) (chain : List (WeightedEdgeArray W)) : Prop := ∀ arr ∈ chain, arr.Drawn ticks

omit [DecidableEq W] in
theorem Dated.later {ticks ticks' : Nat} {chain : List (WeightedEdgeArray W)} (dated : Dated ticks chain)
    (le : ticks ≤ ticks') : Dated ticks' chain := fun arr member => (dated arr member).later le

omit [DecidableEq W] in
theorem Dated.cons {ticks : Nat} {arr : WeightedEdgeArray W} {older : List (WeightedEdgeArray W)}
    (first : arr.Drawn ticks) (rest : Dated ticks older) : Dated ticks (arr :: older) :=
  List.forall_mem_cons.mpr ⟨first, rest⟩

omit [DecidableEq W] in
theorem Dated.retire {ticks : Nat} {next : WeightedEdgeArray W} {older : List (WeightedEdgeArray W)}
    (dated : Dated ticks (next :: older)) : Dated ticks (retire next older) := by
  have first := dated next List.mem_cons_self
  have rest : Dated ticks older := fun arr member => dated arr (List.mem_cons_of_mem _ member)
  unfold Radix.retire
  split
  · have dropped : Dated ticks (dropPrevious older) := by
      cases older with
      | nil => exact rest
      | cons tmp older =>
          rw [dropPrevious]
          split
          · exact fun arr member => rest arr (List.mem_cons_of_mem _ member)
          · exact rest
    have freed : ({ next with edge := none, timestamp := none } : WeightedEdgeArray W).Drawn ticks :=
      ⟨first.snapshot, fun stamps present => by cases present⟩
    exact .cons freed dropped
  · exact dated

theorem expand_dated {P : Platform W} {expandRate : ℚ} {info info' : GlobalInfo}
    {bitmap bitmap' : SegmentedBitmap} {chain chain' : List (WeightedEdgeArray W)}
    (expanded : expand P expandRate info bitmap chain = .ok (chain', bitmap', info'))
    (dated : Dated info.ticks chain) : info' = info.tick ∧ Dated info'.ticks chain' := by
  cases chain with
  | nil => cases expanded
  | cons next older =>
      rw [expand] at expanded
      split at expanded
      · cases expanded
      · obtain ⟨⟨newArray, scratch, now⟩, compacted, ⟨⟩⟩ := bind_eq_ok.mp expanded
        obtain ⟨rfl, drawn⟩ := logCompaction_drawn compacted
        exact ⟨rfl, .cons drawn (dated.retire.later (Nat.le_succ _))⟩

theorem claimSlot_dated {P : Platform W} {expandRate : ℚ} {rounds i : Nat} {info info' : GlobalInfo}
    {bitmap bitmap' : SegmentedBitmap} {chain chain' : List (WeightedEdgeArray W)}
    (claimed : claimSlot P expandRate rounds info bitmap chain = .ok (i, chain', bitmap', info'))
    (dated : Dated info.ticks chain) :
    info.ticks ≤ info'.ticks ∧ Dated info'.ticks chain' := by
  induction rounds generalizing info bitmap chain with
  | zero => cases claimed
  | succ rounds ih =>
      cases chain with
      | nil => cases claimed
      | cons next older =>
          have counted : Dated info.ticks (next.claim :: older) :=
            .cons ((dated next List.mem_cons_self).congr rfl rfl)
              fun arr member => dated arr (List.mem_cons_of_mem _ member)
          simp only [claimSlot] at claimed
          split at claimed
          · cases claimed
            exact ⟨le_rfl, counted⟩
          · obtain ⟨⟨chain₁, bitmap₁, info₁⟩, expanded, claimed⟩ := bind_eq_ok.mp claimed
            obtain ⟨rfl, dated₁⟩ := expand_dated expanded counted
            obtain ⟨le, dated'⟩ := ih claimed dated₁
            exact ⟨(Nat.le_succ _).trans le, dated'⟩

omit [DecidableEq W] in
theorem stampSlot_dated {next next' : WeightedEdgeArray W} {info info' : GlobalInfo} {i : Nat}
    (stamped : stampSlot next info i = .ok (next', info')) (drawn : next.Drawn info.ticks) :
    info.ticks ≤ info'.ticks ∧ next'.Drawn info'.ticks := by
  unfold stampSlot at stamped
  split at stamped
  · cases stamped
    exact ⟨le_rfl, drawn⟩
  · split at stamped
    · cases stamped
    · obtain ⟨arr, stored, ⟨⟩⟩ := bind_eq_ok.mp stamped
      have later : info.ticks ≤ info.tick.ticks := Nat.le_succ _
      refine ⟨later, ?_⟩
      unfold WeightedEdgeArray.storeStamp at stored
      split at stored
      · cases stored
      · rename_i stamps present
        split at stored
        · cases stored
          refine ⟨(drawn.later later).snapshot, fun stamps' same s member => ?_⟩
          obtain rfl := Option.some.inj same
          rcases List.mem_or_eq_of_mem_set member with old | new
          · exact (drawn.later later).log stamps present s old
          · exact ⟨info.ticks, Nat.lt_succ_self _, Option.some.inj new⟩
        · cases stored

theorem insert_dated {P : Platform W} {expandRate : ℚ} {info info' : GlobalInfo}
    {bitmap bitmap' : SegmentedBitmap} {src src' : Vertex W} {des : Int} {weight : W} {delta : Int}
    (inserted : insert P expandRate info bitmap src des weight delta = .ok (src', bitmap', info'))
    (dated : Dated info.ticks src.next) : info.ticks ≤ info'.ticks ∧ Dated info'.ticks src'.next := by
  obtain ⟨⟨i, chain, bitmap₁, info₁⟩, claimed, inserted⟩ := bind_eq_ok.mp inserted
  obtain ⟨le, dated₁⟩ := claimSlot_dated claimed dated
  cases chain with
  | nil => cases inserted
  | cons next older =>
      obtain ⟨⟨next₁, info₂⟩, stamped, inserted⟩ := bind_eq_ok.mp inserted
      obtain ⟨next₂, stored, ⟨⟩⟩ := bind_eq_ok.mp inserted
      obtain ⟨le', drawn⟩ := stampSlot_dated stamped (dated₁ next List.mem_cons_self)
      obtain ⟨snapshot, log⟩ := store_timestamp stored
      have rest : Dated info₁.ticks older := fun arr member => dated₁ arr (List.mem_cons_of_mem _ member)
      exact ⟨le.trans le', .cons (drawn.congr snapshot log) (rest.later le')⟩

omit [DecidableEq W] in
theorem sortEdges_timestamp (P : Platform W) (sorted : Bool) (arr : WeightedEdgeArray W) :
    (RadixGraph.sortEdges P sorted arr).snapshotTimestamp = arr.snapshotTimestamp ∧
      (RadixGraph.sortEdges P sorted arr).timestamp = arr.timestamp := by
  unfold RadixGraph.sortEdges
  split
  · exact ⟨rfl, rfl⟩
  · exact ⟨rfl, rfl⟩

namespace RadixGraph

def AllDated (g : RadixGraph W) : Prop :=
  ∀ (k : Nat) v, g.vertexIndex.vertexTable[k]? = some v → Dated g.global.ticks v.next

variable {rules : Rules} {ws : List Nat} {g g' : RadixGraph W} {A : Ledger W}

omit [DecidableEq W] in
theorem AllDated.setVertex (dated : g.AllDated) {k : Nat} {v : Vertex W} {info : GlobalInfo}
    {bitmap : SegmentedBitmap} (le : g.global.ticks ≤ info.ticks) (new : Dated info.ticks v.next) :
    ({ g with vertexIndex := g.vertexIndex.setVertex k v, bitmap := bitmap, global := info } :
      RadixGraph W).AllDated := by
  intro j u at_j
  simp only [SORT.setVertex, List.getElem?_set] at at_j
  split at at_j
  · split at at_j
    · cases at_j
      exact new
    · cases at_j
  · exact (dated j u at_j).later le

theorem insertAt_dated {P : Platform W} {k : Nat} {des : Int} {weight : W} {delta : Int}
    (ran : g.insertAt P k des weight delta = .ok g') (dated : g.AllDated) : g'.AllDated := by
  obtain ⟨v, at_k, ran⟩ := bind_eq_ok.mp ran
  obtain ⟨⟨v', bitmap, info⟩, inserted, ⟨⟩⟩ := bind_eq_ok.mp ran
  obtain ⟨le, new⟩ := insert_dated inserted (dated k v (SORT.getElem?_of_vertexAt at_k))
  exact dated.setVertex le new

theorem snapshotVertex_dated {P : Platform W} {sorted makeDense : Bool} {i : Nat}
    (ran : snapshotVertex P sorted makeDense g i = .ok g') (dated : g.AllDated) : g'.AllDated := by
  obtain ⟨v, at_i, ran⟩ := bind_eq_ok.mp ran
  split at ran
  · cases ran
  · rename_i next older chain
    obtain ⟨⟨newArray, bitmap, info⟩, compacted, ⟨⟩⟩ := bind_eq_ok.mp ran
    obtain ⟨rfl, drawn⟩ := logCompaction_drawn compacted
    obtain ⟨snapshot, log⟩ := sortEdges_timestamp P sorted newArray
    have old := dated i v (SORT.getElem?_of_vertexAt at_i)
    rw [chain] at old
    have rest : Dated g.global.ticks older := fun arr member => old arr (List.mem_cons_of_mem _ member)
    exact dated.setVertex (Nat.le_succ _) (.cons (drawn.congr snapshot log) (rest.later (Nat.le_succ _)))

theorem act_dated (P : Platform W) (holds : Holds rules ws g A) {action : Action W}
    (ran : act P g action = .ok g') (dated : g.AllDated) : g'.AllDated := by
  have taken := act_cases P holds ran
  generalize A.entry ws.sum g.gone action = entry at taken
  cases taken with
  | wrote k l weight delta index calm inside entered inserted =>
      refine insertAt_dated inserted fun j v at_j => ?_
      by_cases old : j < g.vertexIndex.vertexTable.length
      · exact dated j v ((entered.old j old).symm.trans at_j)
      · obtain ⟨-, next⟩ := entered.new j v at_j (Nat.not_lt.mp old)
        rw [next]
        exact .cons (.newArray _ _) (by simp [Dated])
  | snapshots sorted makeDense same made =>
      obtain ⟨g₁, looped, ⟨⟩⟩ := bind_eq_ok.mp made
      have all : g₁.AllDated :=
        foldlM_keeps (fun s i s' before taken => snapshotVertex_dated taken before) looped dated
      exact all
  | quiet calm chains le sorted =>
      intro j v at_j
      have next := chains j
      rw [at_j, Option.map_some] at next
      obtain ⟨u, at_j', same⟩ := Option.map_eq_some_iff.mp next.symm
      exact same ▸ (dated j u at_j').later le

omit [DecidableEq W] in
theorem Paged.dated {k : Nat} {p : Page W} (paged : g.Paged k p) (dated : g.AllDated)
    (few : g.global.ticks < 2 ^ 31) : p.snapshotTimestamp ≤ (g.global.ticks - 1 : ℕ) := by
  obtain ⟨v, at_k, head, stored, -, timestamp, -⟩ := paged
  obtain ⟨older, chain, -⟩ := stored.chain
  rw [← timestamp]
  rcases (dated k v at_k head (by simp [chain])).snapshot with zero | ⟨i, less, same⟩
  · rw [zero]
    exact Int.natCast_nonneg _
  · rw [same, GlobalInfo.timestampAt_eq (less.trans few)]
    omega

def GoneBy (g : RadixGraph W) : Prop :=
  ∀ k, g.gone k ≠ -1 → ∃ i ≤ g.global.ticks, g.gone k = GlobalInfo.timestampAt i

theorem act_goneBy (P : Platform W) (holds : Holds .lax ws g A) {action : Action W}
    (ran : act P g action = .ok g') (by_now : g.GoneBy) : g'.GoneBy := by
  obtain ⟨g₁, acted, -, times, le, -⟩ := act_holds P id holds (Ledger.admits_lax ws.sum A action)
  obtain rfl := Except.ok.inj (acted.symm.trans ran)
  have before (k : Nat) (deleted : g.gone k ≠ -1) :
      ∃ i ≤ g₁.global.ticks, g.gone k = GlobalInfo.timestampAt i := by
    obtain ⟨i, bound, same⟩ := by_now k deleted
    exact ⟨i, bound.trans le, same⟩
  intro k
  rw [times]
  cases action with
  | deleteVertex id =>
      cases known : SORT.position ws.sum A.ids id with
      | none =>
          rw [Ledger.goneAfter_unknown known]
          exact before k
      | some j =>
          rw [Ledger.goneAfter_known known]
          by_cases here : k = j
          · subst here
            rw [Function.update_self]
            exact fun _ => ⟨g.global.ticks, le, rfl⟩
          · rw [Function.update_of_ne here]
            exact before k
  | op _ | getNeighboursByOffset _ _ => exact before k

omit [DecidableEq W] in
theorem GoneBy.le_now (by_now : g.GoneBy) (few : g.global.ticks < 2 ^ 31) {k : Nat} (deleted : g.gone k ≠ -1) :
    g.gone k ≤ g.global.ticks := by
  obtain ⟨i, bound, same⟩ := by_now k deleted
  rw [same, GlobalInfo.timestampAt_eq (bound.trans_lt few)]
  exact_mod_cast bound

theorem answer_now (holds : Holds rules ws g A) (by_now : g.GoneBy) (few : g.global.ticks < 2 ^ 31) {k : Nat}
    {p : Page W} (paged : g.Paged k p) :
    g.answer k p g.global.ticks = g.answer k p maxTimestamp ∧
      ((g.answer k p maxTimestamp).1 = true ↔ g.gone k = -1) := by
  obtain ⟨-, past, carries⟩ := paged.carries holds
  have bound : (g.global.ticks : Int) ≤ maxTimestamp := by
    rw [maxTimestamp]
    omega
  have now : p.read g.global.ticks = p.read maxTimestamp := by
    unfold Page.read
    rw [if_pos (carries.old few).1, if_pos carries.shown.1, carries.visible_now few le_rfl,
      carries.visible_all]
  by_cases deleted : g.gone k = -1
  · have shown : (p.read maxTimestamp).1 = true := by rw [Page.read, if_pos carries.shown.1]
    simp [answer, deleted, now, shown]
  · have early := by_now.le_now few deleted
    simp [answer, deleted, early, early.trans bound]

theorem timestampAt_ne {ticks : Nat} (few : ticks ≤ 2 ^ 31) : GlobalInfo.timestampAt ticks ≠ -1 := by
  rcases few.lt_or_eq with less | rfl
  · rw [GlobalInfo.timestampAt_eq less]
    omega
  · decide

theorem deleteVertex_effective (holds : Holds rules ws g A) (few : g.global.ticks ≤ 2 ^ 31) {u : NodeID}
    (present : g.getInternalID u ≠ .ok (-1)) : ∃ g', g.deleteVertex u = .ok (true, g') ∧
      g'.getInternalID u = .ok (-1) ∧
      ∀ s, g.global.globalTimestamp ≤ s → g'.readVertex u s = .ok (false, []) := by
  obtain ⟨g', deleted, holds', -, times⟩ := deleteVertex_holds holds u
  cases known : SORT.position ws.sum A.ids u with
  | none =>
      rw [getInternalID_holds holds, known] at present
      exact absurd rfl present
  | some k =>
      have gone : g'.gone k = g.global.globalTimestamp := by
        rw [times, Ledger.goneAfter_known known]
        exact Function.update_self ..
      have dead : g'.gone k ≠ -1 := gone ▸ timestampAt_ne few
      obtain ⟨p, past, paged, -⟩ := holds'.page (SORT.position_isLt known)
      refine ⟨g', by rw [deleted, known]; rfl, ?_, fun s late => ?_⟩
      · rw [getInternalID_holds holds', known]
        simp only [if_neg dead]
      · rw [paged.readVertex holds' known, answer, if_pos ⟨dead, gone ▸ late⟩]

structure Timed (ws : List Nat) (g : RadixGraph W) : Prop where
  holds : ∃ A, Holds .lax ws g A
  dated : g.AllDated
  gone : g.GoneBy

theorem Timed.start (global : GlobalInfo) {index : SORT W} (constructed : SORT.Constructed index ws)
    {L : Nat} (positive : 0 < L) : Timed ws (construct global index L positive) := by
  have none (k : Nat) : (construct global index L positive).vertexIndex.vertexTable[k]? = none := by
    have empty : index.vertexTable = [] := List.length_eq_zero_iff.mp constructed.dictionary.length
    simp [construct, fresh, empty]
  exact ⟨⟨_, construct_holds .lax global constructed positive⟩, fun k v at_k => by simp [none] at at_k,
    fun k deleted => by simp [RadixGraph.gone, none] at deleted⟩

theorem Timed.act (P : Platform W) (timed : Timed ws g) (action : Action W) :
    ∃ g', act P g action = .ok g' ∧ Timed ws g' ∧ g.global.ticks ≤ g'.global.ticks := by
  obtain ⟨⟨A, holds⟩, dated, by_now⟩ := timed
  obtain ⟨g', acted, holds', -, le, -⟩ := act_holds P id holds (Ledger.admits_lax ws.sum A action)
  exact ⟨g', acted, ⟨⟨_, holds'⟩, act_dated P holds acted dated, act_goneBy P holds acted by_now⟩, le⟩

theorem Timed.actions (P : Platform W) (timed : Timed ws g) (acts : List (Action W)) :
    ∃ g', actions P g acts = .ok g' ∧ Timed ws g' ∧ g.global.ticks ≤ g'.global.ticks := by
  have steps (g₁ : RadixGraph W) (action : Action W) (before : Timed ws g₁ ∧ g.global.ticks ≤ g₁.global.ticks)
      (_ : True) : ∃ g', RadixGraph.act P g₁ action = .ok g' ∧ Timed ws g' ∧ g.global.ticks ≤ g'.global.ticks := by
    obtain ⟨g', acted, timed', le⟩ := before.1.act P action
    exact ⟨g', acted, timed', before.2.trans le⟩
  exact foldlM_along steps ⟨timed, le_rfl⟩ (along_of_forall (fun _ _ => trivial) g acts)

/-- While fewer than `2 ^ 31` timestamps have been issued, one that is drawn now is not older than any
timestamp in the graph nor the mark of a vertex that has not been deleted, a read at it sees
everything, and a deletion takes effect. -/
theorem timestamps_ordered (P : Platform W) (global : GlobalInfo) {index : SORT W} {ws : List Nat}
    (constructed : SORT.Constructed index ws) {L : Nat} (positive : 0 < L) (acts : List (Action W)) :
    ∃ g, actions P (construct global index L positive) acts = .ok g ∧
      (g.global.ticks < 2 ^ 31 → ∃ t g', g.getGlobalTimestamp = (t, g') ∧ t ≠ -1 ∧
        (∀ (k : Nat) v, g.vertexIndex.vertexTable[k]? = some v → ∀ arr ∈ v.next, arr.snapshotTimestamp ≤ t ∧
          ∀ stamps, arr.timestamp = some stamps → ∀ s, some s ∈ stamps → s ≤ t) ∧
        (∀ u, ∃ found neighbours, g'.readVertex u t = .ok (found, neighbours) ∧
          g'.readVertex u maxTimestamp = .ok (found, neighbours) ∧
          (found = true ↔ g'.getInternalID u ≠ .ok (-1))) ∧
        ∀ u, g'.getInternalID u ≠ .ok (-1) → ∃ g'', g'.deleteVertex u = .ok (true, g'') ∧
          g''.getInternalID u = .ok (-1) ∧
          ∀ s, g'.global.globalTimestamp ≤ s → g''.readVertex u s = .ok (false, [])) := by
  obtain ⟨g, ran, ⟨⟨A, holds⟩, dated, by_now⟩, -⟩ :=
    (Timed.start global constructed positive).actions P acts
  refine ⟨g, ran, fun few => ?_⟩
  obtain ⟨g', drawn⟩ : ∃ g', g' = g.getGlobalTimestamp.2 := ⟨_, rfl⟩
  have now : g.global.globalTimestamp = g.global.ticks := GlobalInfo.timestampAt_eq few
  have ticks : g'.global.ticks = g.global.ticks + 1 := by rw [drawn]; rfl
  have holds' : Holds .lax ws g' A := drawn ▸ ⟨holds.index, holds.clean, holds.rate,
    fun k v at_k => (holds.kept k v at_k).later (Nat.le_succ _), holds.closed⟩
  refine ⟨g.global.globalTimestamp, g', by rw [drawn]; rfl, timestampAt_ne few.le, fun k v at_k arr member =>
    (dated k v at_k arr member).le_now few, fun u => ?_,
    fun u present => deleteVertex_effective holds' (by omega) present⟩
  rw [getInternalID_holds holds' u]
  cases known : SORT.position ws.sum A.ids u with
  | none =>
      exact ⟨false, [], readVertex_unknown holds' known _, readVertex_unknown holds' known _, by simp⟩
  | some k =>
      obtain ⟨p, -, paged, -⟩ := holds.page (SORT.position_isLt known)
      have paged' : g'.Paged k p := drawn ▸ paged
      have gone : g'.gone = g.gone := by rw [drawn]; rfl
      obtain ⟨same, found⟩ := answer_now holds by_now few paged
      have answers (s : Int) : g'.answer k p s = g.answer k p s := by rw [answer, answer, gone]
      refine ⟨(g.answer k p maxTimestamp).1, (g.answer k p maxTimestamp).2, ?_, ?_, ?_⟩
      · rw [paged'.readVertex holds' known, answers, now, same]
      · rw [paged'.readVertex holds' known, answers]
      · rw [found, gone]
        by_cases alive : g.gone k = -1
        · simp [alive]
        · simp [alive]

theorem timestamps_ordered_insertion : ∃ g : RadixGraph Nat,
    actions Platform.exact (construct ⟨0, true⟩ (.ofVector [1]) 1 (by decide)) [.op (.insertEdge 0 1 1)] =
      .ok g ∧
    ∃ t g', g.getGlobalTimestamp = (t, g') ∧ t ≠ -1 ∧ ∃ found neighbours,
      g'.readVertex 0 t = .ok (found, neighbours) ∧
      g'.readVertex 0 maxTimestamp = .ok (found, neighbours) := by
  have constructed : SORT.Constructed (SORT.ofVector [1] : SORT Nat) [1] := .vector (by decide)
  obtain ⟨g, ran, ordered⟩ := timestamps_ordered Platform.exact ⟨0, true⟩ constructed
    (show 0 < 1 by decide) [.op (.insertEdge 0 1 1)]
  have few : g.global.ticks < 2 ^ 31 := by
    have counted : (Except.ok g : Result (RadixGraph Nat)).map (·.global.ticks) = .ok 1 := by
      rw [← ran]
      rfl
    have one : g.global.ticks = 1 := Except.ok.inj counted
    omega
  obtain ⟨t, g', drawn, unmarked, -, reads, -⟩ := ordered few
  obtain ⟨found, neighbours, read, latest, -⟩ := reads 0
  exact ⟨g, ran, t, g', drawn, unmarked, found, neighbours, read, latest⟩

theorem actions_draws (P : Platform W) (g : RadixGraph W) (n : Nat) :
    actions P g (List.replicate n (.op .getGlobalTimestamp)) =
      .ok { g with global := { g.global with ticks := g.global.ticks + n } } := by
  induction n generalizing g with
  | zero => rfl
  | succ n ih =>
      have next := ih g.getGlobalTimestamp.2
      have count : g.global.ticks + 1 + n = g.global.ticks + (n + 1) := by omega
      simp only [getGlobalTimestamp, GlobalInfo.tick, count] at next
      rw [List.replicate_succ, actions, List.foldlM_cons]
      exact next

/-- After `2 ^ 31` draws the counter is negative, and a read at a fresh timestamp misses the edge. -/
theorem timestamps_wrap : ∃ g g' : RadixGraph Nat,
    actions Platform.exact (construct ⟨0, true⟩ (.ofVector [1]) 1 (by decide))
      (.op (.insertEdge 0 1 1) :: List.replicate (2 ^ 31) (.op .getGlobalTimestamp)) = .ok g ∧
    g.getGlobalTimestamp = (-2147483647, g') ∧
    g'.readVertex 0 (-2147483647) = .ok (false, []) ∧
    g'.readVertex 0 maxTimestamp = .ok (true, [{ weight := 1, idx := 1 }]) := by
  have info : (act Platform.exact (construct ⟨0, true⟩ (.ofVector [1]) 1 (by decide))
      (.op (.insertEdge 0 1 1))).map (·.global) = .ok ⟨1, true⟩ := rfl
  have early : (act Platform.exact (construct ⟨0, true⟩ (.ofVector [1]) 1 (by decide))
      (.op (.insertEdge 0 1 1))).map (fun g => ({ g with global := ⟨2147483650, true⟩ } : RadixGraph Nat).readVertex
        0 (-2147483647)) = .ok (.ok (false, [])) := rfl
  have late : (act Platform.exact (construct ⟨0, true⟩ (.ofVector [1]) 1 (by decide))
      (.op (.insertEdge 0 1 1))).map (fun g => ({ g with global := ⟨2147483650, true⟩ } : RadixGraph Nat).readVertex
        0 maxTimestamp) = .ok (.ok (true, [{ weight := 1, idx := 1 }])) := rfl
  obtain ⟨g, acted, info⟩ := map_eq_ok.mp info
  rw [acted] at early late
  refine ⟨{ g with global := ⟨2147483649, true⟩ }, { g with global := ⟨2147483650, true⟩ }, ?_, ?_,
    Except.ok.inj early, Except.ok.inj late⟩
  · have draws := actions_draws Platform.exact g (2 ^ 31)
    rw [info] at draws
    rw [actions, List.foldlM_cons, acted, ok_bind]
    exact draws
  · have now : GlobalInfo.timestampAt 2147483649 = -2147483647 := by decide
    exact congrArg (·, ({ g with global := ⟨2147483650, true⟩ } : RadixGraph Nat)) now

end RadixGraph

end Radix
