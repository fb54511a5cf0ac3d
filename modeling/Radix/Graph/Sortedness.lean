import Radix.Graph.Pages

/-!
# The flag `is_sorted`

`CreateSnapshots` sets the flag and no write resets it, so it tells the truth as long as no edge is
written while it is set.
-/

namespace Radix

open Lib

variable {W : Type} [Zero W] [DecidableEq W]

def Page.InOrder (p : Page W) : Prop := p.log = [] ∧ p.snap.Pairwise fun a b => a.idx ≤ b.idx

theorem Page.InOrder.read {p : Page W} (inOrder : p.InOrder) (timestamp : Int) :
    (p.read timestamp).2.Pairwise fun a b => a.idx ≤ b.idx := by
  obtain ⟨nothing, sorted⟩ := inOrder
  unfold Page.read
  split
  · rw [nothing, visibleLog_nil, listed, if_pos rfl]
    exact sorted
  · exact List.Pairwise.nil

theorem Page.Snapshot.inOrder {info : GlobalInfo} {p p' : Page W} {ticks' : Nat}
    (snapshot : p.Snapshot info true ticks' p') : p'.InOrder := by
  obtain ⟨drawn, free, snap, -, sorted, -, -⟩ := snapshot
  exact ⟨rfl, sorted rfl⟩

namespace RadixGraph

structure FlagTrue (g : RadixGraph W) : Prop where
  byId : g.isSorted = true → ∀ id found neighbours, g.readVertex id maxTimestamp = .ok (found, neighbours) →
    neighbours.Pairwise fun a b => a.idx ≤ b.idx
  byOffset : g.isSorted = true → ∀ (k : Nat) found neighbours,
    g.readOffset k maxTimestamp = .ok (found, neighbours) → neighbours.Pairwise fun a b => a.idx ≤ b.idx

def SortedPages (g : RadixGraph W) : Prop := g.isSorted = true → ∀ k p, g.Paged k p → p.InOrder

variable {rules : Rules} {ws : List Nat} {g g' : RadixGraph W} {A : Ledger W}

theorem insertAt_isSorted {P : Platform W} {k : Nat} {des : Int} {weight : W} {delta : Int}
    (ran : g.insertAt P k des weight delta = .ok g') : g'.isSorted = g.isSorted := by
  obtain ⟨v, -, ran⟩ := bind_eq_ok.mp ran
  obtain ⟨⟨v', bitmap, info⟩, -, ⟨⟩⟩ := bind_eq_ok.mp ran
  rfl

theorem SortedPages.act (P : Platform W) (holds : Holds rules ws g A) {action : Action W}
    (ran : act P g action = .ok g') (sorted : g.SortedPages) (calm : g.isSorted = true → ¬ g.WritesEdge action) :
    g'.SortedPages := by
  intro flag k p' paged
  have silent (unsorted : g.isSorted = true) : A.entry ws.sum g.gone action = none := by
    cases entry : A.entry ws.sum g.gone action with
    | none => rfl
    | some written => exact absurd (writesEdge_of_entry holds entry) (calm unsorted)
  have taken := act_cases P holds ran
  obtain ⟨p, -, turned⟩ := act_pages P holds ran paged
  generalize A.entry ws.sum g.gone action = entry at taken turned silent
  cases taken with
  | wrote k l weight delta index _ inside entered inserted =>
      have same : g'.isSorted = g.isSorted := insertAt_isSorted (g := { g with vertexIndex := index }) inserted
      cases silent (same ▸ flag)
  | snapshots sorting makeDense same made =>
      obtain ⟨g₁, looped, ⟨⟩⟩ := bind_eq_ok.mp made
      obtain rfl : sorting = true := flag
      cases turned with
      | logs e delta p' written _ => cases written
      | snapshot sorting' makeDense' p' same' snapshot =>
          cases same.symm.trans same'
          exact snapshot.inOrder
      | same _ calm => exact absurd same (calm true makeDense)
  | quiet _ chains _ same => exact sorted (same ▸ flag) k p' (paged.of_chains chains)

theorem SortedPages.flagTrue (holds : Holds rules ws g A) (sorted : g.SortedPages) : g.FlagTrue := by
  have ordered (flag : g.isSorted = true) {k : Nat} {p : Page W} (paged : g.Paged k p) :
      (g.answer k p maxTimestamp).2.Pairwise fun a b => a.idx ≤ b.idx := by
    unfold answer
    split
    · exact List.Pairwise.nil
    · exact (sorted flag k p paged).read maxTimestamp
  constructor
  · intro flag id found neighbours read
    cases known : SORT.position ws.sum A.ids id with
    | none =>
        rw [readVertex_unknown holds known] at read
        cases read
        exact List.Pairwise.nil
    | some k =>
        obtain ⟨p, -, paged, -⟩ := holds.page (SORT.position_isLt known)
        have shown := ordered flag paged
        rw [paged.readVertex holds known, Except.ok.injEq] at read
        rwa [read] at shown
  · intro flag k found neighbours read
    by_cases inside : k < A.ids.length
    · obtain ⟨p, -, paged, -⟩ := holds.page inside
      have shown := ordered flag paged
      rw [paged.readOffset holds, Except.ok.injEq] at read
      rwa [read] at shown
    · rw [readOffset_unknown holds (Nat.not_lt.mp inside)] at read
      cases read
      exact List.Pairwise.nil

/-- In a run that writes no edge while the flag is set, the flag tells the truth. -/
theorem isSorted_truthful (P : Platform W) (global : GlobalInfo) {index : SORT W} {ws : List Nat}
    (constructed : SORT.Constructed index ws) {L : Nat} (positive : 0 < L) {acts : List (Action W)}
    (calm : Along (act P) (fun g action => g.isSorted = true → ¬ g.WritesEdge action)
      (construct global index L positive) acts) :
    ∃ g, actions P (construct global index L positive) acts = .ok g ∧ g.FlagTrue := by
  have steps (g : RadixGraph W) (action : Action W) (before : ∃ A, Holds .lax ws g A ∧ g.SortedPages)
      (calm : g.isSorted = true → ¬ g.WritesEdge action) :
      ∃ g', act P g action = .ok g' ∧ ∃ A, Holds .lax ws g' A ∧ g'.SortedPages := by
    obtain ⟨A, holds, sorted⟩ := before
    obtain ⟨g', ran, holds', -⟩ := act_holds P id holds (Ledger.admits_lax ws.sum A action)
    exact ⟨g', ran, _, holds', sorted.act P holds ran calm⟩
  have start : Holds .lax ws (construct global index L positive) {} := construct_holds .lax global constructed positive
  obtain ⟨g, ran, A, holds, sorted⟩ := foldlM_along steps ⟨{}, start, fun unset => by cases unset⟩ calm
  exact ⟨g, ran, sorted.flagTrue holds⟩

theorem isSorted_truthful_snapshot : ∃ g : RadixGraph Nat,
    actions Platform.exact (construct ⟨0, false⟩ (.ofVector [2]) 1 (by decide))
      [.op (.insertEdge 0 2 1), .op (.insertEdge 0 1 1), .op (.createSnapshots true true)] = .ok g ∧ g.FlagTrue := by
  have constructed : SORT.Constructed (SORT.ofVector [2] : SORT Nat) [2] := .vector (by decide)
  refine isSorted_truthful Platform.exact ⟨0, false⟩ constructed (by decide) ⟨fun flag => ?_, fun g₁ first => ?_⟩
  · cases flag
  · have unsorted : g₁.isSorted = false := by
      have computed : (Except.ok g₁ : Result (RadixGraph Nat)).map isSorted = .ok false := by
        rw [← first]
        rfl
      exact Except.ok.inj computed
    exact ⟨fun flag => by simp [unsorted] at flag, fun g₂ second => ⟨fun _ => id, fun _ _ => trivial⟩⟩

/-- An edge inserted after the snapshot: the flag is still set, and the new neighbour comes first. -/
theorem isSorted_stale : ∃ g : RadixGraph Nat,
    actions Platform.exact (construct ⟨0, false⟩ (.ofVector [2]) 1 (by decide))
      [.op (.insertEdge 0 1 1), .op (.createSnapshots true true), .op (.insertEdge 0 2 1)] = .ok g ∧
    g.isSorted = true ∧
    g.readVertex 0 maxTimestamp = .ok (true, [{ weight := 1, idx := 2 }, { weight := 1, idx := 1 }]) ∧
    ¬ g.FlagTrue := by
  have computed : (do
      let g ← actions Platform.exact (construct ⟨0, false⟩ (.ofVector [2]) 1 (by decide))
        [.op (.insertEdge 0 1 1), .op (.createSnapshots true true), .op (.insertEdge 0 2 1)]
      let answer ← g.readVertex 0 maxTimestamp
      .ok (g.isSorted, answer) : Result _) =
        .ok (true, true, [{ weight := 1, idx := 2 }, { weight := 1, idx := 1 }]) := by decide +kernel
  obtain ⟨g, ran, computed⟩ := bind_eq_ok.mp computed
  obtain ⟨answer, read, same⟩ := bind_eq_ok.mp computed
  obtain ⟨sorted, rfl⟩ := Prod.mk.inj (Except.ok.inj same)
  refine ⟨g, ran, sorted, read, fun truthful => ?_⟩
  have ordered := truthful.byId sorted 0 _ _ read
  exact absurd (List.rel_of_pairwise_cons ordered (List.mem_singleton_self _)) (by decide)

end RadixGraph

end Radix
