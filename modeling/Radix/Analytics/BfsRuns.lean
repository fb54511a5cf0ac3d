import Mathlib.Algebra.BigOperators.Group.Finset.Basic
import Mathlib.Data.Finset.Card
import Mathlib.Data.Finset.Range
import Mathlib.Data.Finset.Filter
import Mathlib.Data.List.Find
import Radix.Lib.Search
import Radix.Analytics.BfsSteps

/-!
# Runs of the search

The loops of `DOBFS` form a trail of sweeps, and each round visits a vertex or is the last.
-/

namespace Radix.Analytics

open Lib RadixGraph

variable {W : Type} [Zero W] [DecidableEq W]

def parentOf (n : Nat) (f : Nat → NodeID) (j : Nat) : Option Nat :=
  if j < n ∧ f j ≠ NodeID.invalid then some (f j) else none

omit [DecidableEq W] in
open Classical in
noncomputable def pick (adj : Nat → List (WeightedEdge W)) (F : Set Nat) (v : Nat) : Option Nat :=
  firstIn adj (fun j => j ∈ F) v

def unvisited (n : Nat) (f : Nat → NodeID) : Nat := ((Finset.range n).filter fun j => f j = NodeID.invalid).card

theorem parentOf_eq_none {n : Nat} {f : Nat → NodeID} {j : Nat} :
    parentOf n f j = none ↔ (j < n → f j = NodeID.invalid) := by
  rw [parentOf]
  split
  · rename_i visited
    simp [visited]
  · rename_i unvisited
    simpa [not_and] using unvisited

theorem parentOf_eq_some {n : Nat} {f : Nat → NodeID} {j p : Nat} :
    parentOf n f j = some p ↔ j < n ∧ f j ≠ NodeID.invalid ∧ f j = p := by
  rw [parentOf]
  split
  · rename_i visited
    simp [visited]
  · rename_i unvisited
    simp only [reduceCtorEq, false_iff]
    rintro ⟨inside, ne, -⟩
    exact unvisited ⟨inside, ne⟩

theorem parentOf_ne_none {n : Nat} {f : Nat → NodeID} {j : Nat} :
    parentOf n f j ≠ none ↔ j < n ∧ f j ≠ NodeID.invalid := by
  rw [ne_eq, parentOf_eq_none, Classical.not_imp]

theorem unvisited_lt {n : Nat} {f f' : Nat → NodeID} (kept : ∀ j < n, f j ≠ NodeID.invalid → f' j = f j) {i : Nat}
    (inside : i < n)
    (before : f i = NodeID.invalid) (after : f' i ≠ NodeID.invalid) : unvisited n f' < unvisited n f := by
  apply Finset.card_lt_card
  rw [Finset.ssubset_iff_of_subset]
  · exact ⟨i, by simp [inside, before], by simp [after]⟩
  · intro j member
    obtain ⟨below, none⟩ := Finset.mem_filter.mp member
    refine Finset.mem_filter.mpr ⟨below, ?_⟩
    by_contra visited
    exact visited (kept j (Finset.mem_range.mp below) visited ▸ none)

variable {ws : List Nat} {A : Ledger W} {pages : Nat → Page W} {adj : Nat → List (WeightedEdge W)}

theorem Answers.pick_eq (answers : Answers ws A pages adj) {S : Set Nat} {F : Nat → Bool}
    (same : ∀ j < A.ids.length, j ∈ S ↔ F j) (v : Nat) : pick adj S v = firstIn adj F v := by
  rw [pick, firstIn, firstIn]
  congr 1
  apply List.find?_congr
  intro e member
  obtain ⟨j, inside, idx⟩ := answers.closed v e member
  rw [idx, Int.toNat_natCast, Bool.eq_iff_iff]
  simpa only [decide_eq_true_eq] using same j inside

/-! ## When the search switches -/

open Classical in
/-- `scout_count` after a number of top-down steps: the degrees of the vertices at that distance. -/
noncomputable def scoutCount (Edge : Nat → Nat → Prop) (source vertexNum : Nat) (degree : Nat → Nat)
    (srcOutDegree : Int) : Nat → Int
  | 0 => srcOutDegree
  | d + 1 => ∑ v ∈ Finset.range vertexNum with v ∈ Search.level Edge source (d + 1), (degree v : Int)

/-- The first bottom-up step of a search comes after `d` top-down steps: until then `scout_count` does not exceed
`edges_to_check / alpha`, and then it does. -/
structure Switches (Edge : Nat → Nat → Prop) (source : Nat) (edgeNum alpha : Int) (scout : Nat → Int) (d : Nat) :
    Prop where
  busy : (Search.level Edge source d).Nonempty
  down : ∀ e < d, scout e ≤ (edgeNum - ∑ i ∈ Finset.range e, scout i).tdiv alpha
  up : (edgeNum - ∑ i ∈ Finset.range d, scout i).tdiv alpha < scout d

inductive Steered (Edge : Nat → Nat → Prop) (source : Nat) (edgeNum alpha : Int) (scout : Nat → Int)
    (sweeps : List (Search.Sweep Nat)) (s : Search W) : Prop
  | descending : (∀ sweep ∈ sweeps, ¬ sweep.bottomUp) → s.scoutCount = scout sweeps.length →
      s.edgesToCheck = edgeNum - ∑ i ∈ Finset.range sweeps.length, scout i →
      (∀ e < sweeps.length, scout e ≤ (edgeNum - ∑ i ∈ Finset.range e, scout i).tdiv alpha) → Steered ..
  | turned {d : Nat} : Search.Turns sweeps d → Switches Edge source edgeNum alpha scout d → Steered ..

theorem Switches.unique {Edge : Nat → Nat → Prop} {source : Nat} {edgeNum alpha : Int} {scout : Nat → Int} {d e : Nat}
    (switches : Switches Edge source edgeNum alpha scout d) (switches' : Switches Edge source edgeNum alpha scout e) :
    d = e := by
  rcases Nat.lt_trichotomy d e with less | same | more
  · exact absurd switches.up (Int.not_lt.mpr (switches'.down d less))
  · exact same
  · exact absurd switches'.up (Int.not_lt.mpr (switches.down e more))

namespace Steered

variable {Edge : Nat → Nat → Prop} {pick : Set Nat → Nat → Option Nat} {source : Nat} {edgeNum alpha : Int}
  {scout : Nat → Int} {sweeps : List (Search.Sweep Nat)} {parent : Nat → Option Nat} {pending : Set Nat} {s s' : Search W}

omit [DecidableEq W] in
theorem turn (steered : Steered Edge source edgeNum alpha scout sweeps s)
    (trail : Search.Trail Edge pick source sweeps parent pending) (busy : pending.Nonempty)
    (heavy : s.edgesToCheck.tdiv alpha < s.scoutCount) {first : Search.Sweep Nat} (up : first.bottomUp)
    {more : List (Search.Sweep Nat)} : Steered Edge source edgeNum alpha scout (sweeps ++ first :: more) s' := by
  cases steered with
  | turned turns switches => exact .turned (turns.append _) switches
  | descending down count check below =>
      refine .turned ⟨sweeps, first, more, rfl, rfl, down, up⟩ ⟨?_, below, ?_⟩
      · rcases trail.phases with descending | ⟨d, turned⟩
        · rwa [← descending.pending]
        · obtain ⟨turn, member, up', -⟩ := turned.turn
          exact absurd up' (down turn member)
      · rwa [← check, ← count]

omit [DecidableEq W] in
theorem descend (steered : Steered Edge source edgeNum alpha scout sweeps s) {sweep : Search.Sweep Nat}
    (trail : Search.Trail Edge pick source (sweeps ++ [sweep]) parent pending) (down : ¬ sweep.bottomUp)
    (light : s.scoutCount ≤ s.edgesToCheck.tdiv alpha)
    (count' : pending = Search.level Edge source (sweeps.length + 1) → s'.scoutCount = scout (sweeps.length + 1))
    (check' : s'.edgesToCheck = s.edgesToCheck - s.scoutCount) :
    Steered Edge source edgeNum alpha scout (sweeps ++ [sweep]) s' := by
  cases steered with
  | turned turns switches => exact .turned (turns.append _) switches
  | descending earlier count check below =>
      have all (other : Search.Sweep Nat) (member : other ∈ sweeps ++ [sweep]) : ¬ other.bottomUp := by
        rcases List.mem_append.mp member with old | new
        · exact earlier other old
        · rwa [List.mem_singleton.mp new]
      have length : (sweeps ++ [sweep]).length = sweeps.length + 1 := by simp
      refine .descending all ?_ ?_ ?_
      · rw [length]
        rcases trail.phases with descending | ⟨d, turned⟩
        · exact count' (length ▸ descending.pending)
        · obtain ⟨turn, member, up, -⟩ := turned.turn
          exact absurd up (all turn member)
      · rw [length, Finset.sum_range_succ, check', check, count, sub_sub]
      · rw [length]
        intro e less
        rcases Nat.lt_succ_iff_lt_or_eq.mp less with before | rfl
        · exact below e before
        · rwa [count, check] at light

omit [DecidableEq W] in
theorem switches_iff (steered : Steered Edge source edgeNum alpha scout sweeps s)
    (trail : Search.Trail Edge pick source sweeps parent ∅) {d : Nat} :
    Switches Edge source edgeNum alpha scout d ↔ Search.Turns sweeps d := by
  cases steered with
  | turned turns switches =>
      constructor
      · intro switches'
        rwa [switches'.unique switches]
      · intro turns'
        rwa [turns'.unique turns]
  | descending down _ _ below =>
      constructor
      · intro switches
        rcases trail.phases with descending | ⟨e, turned⟩
        · rcases Nat.lt_or_ge d sweeps.length with early | late
          · exact absurd switches.up (Int.not_lt.mpr (below d early))
          · exact absurd (Search.level_empty late descending.pending.symm) switches.busy.ne_empty
        · obtain ⟨turn, member, up, -⟩ := turned.turn
          exact absurd up (down turn member)
      · rintro ⟨first, turn, rest, rfl, -, -, up⟩
        exact absurd up (down turn (by simp))

end Steered

omit [DecidableEq W] in
theorem scouted_eq {pages : Nat → Page W} {Edge : Nat → Nat → Prop} {source vertexNum d : Nat} {fresh : List Nat}
    (distinct : fresh.Nodup) (inside : ∀ j ∈ fresh, j < vertexNum)
    (same : {j | j ∈ fresh} = Search.level Edge source (d + 1)) (srcOutDegree : Int) :
    scouted pages fresh =
      scoutCount Edge source vertexNum (fun j => (pages j).snap.length) srcOutDegree (d + 1) := by
  classical
  rw [scouted, scoutCount, ← List.sum_toFinset _ distinct]
  refine Finset.sum_congr ?_ fun j _ => rfl
  ext j
  rw [List.mem_toFinset, Finset.mem_filter, Finset.mem_range, ← same]
  exact ⟨fun member => ⟨inside j member, member⟩, fun both => both.2⟩

/-! ## The loops -/

structure Running (ws : List Nat) (A : Ledger W) (pages : Nat → Page W) (adj : Nat → List (WeightedEdge W))
    (source : Nat)
    (f : Nat → NodeID) (F : Nat → Bool) (pushed : List Nat) (start : Nat) (sweeps : List (Search.Sweep Nat))
    (pending : Set Nat) (s : Search W) : Prop where
  serves : Serves ws A pages s.g
  parent : s.parent.Stores A.ids.length f
  queue : s.queue.Got A.ids.length pushed start pushed.length
  distinct : pushed.Nodup
  queued : ∀ j ∈ pushed, j < A.ids.length ∧ f j ≠ NodeID.invalid
  front : s.front.Marks A.ids.length F
  shown : ∀ j < A.ids.length, F j → f j ≠ NodeID.invalid
  curr : s.curr.cells.length = (A.ids.length + 63) / 64
  trail : Search.Trail (ListedEdge adj) (pick adj) source sweeps (parentOf A.ids.length f) pending

namespace Running

variable {source : Nat} {f : Nat → NodeID} {F : Nat → Bool} {pushed : List Nat} {start : Nat}
  {sweeps : List (Search.Sweep Nat)} {pending : Set Nat} {s : Search W}

omit [DecidableEq W] in
theorem risen_kept (adj : Nat → List (WeightedEdge W)) (F : Nat → Bool) (f : Nat → NodeID) {j : Nat}
    (visited : f j ≠ NodeID.invalid) :
    risen adj F f j = f j := if_neg visited

theorem risen_of_rises (answers : Answers ws A pages adj) {j : Nat} :
    rises adj F f j ↔ f j = NodeID.invalid ∧ risen adj F f j ≠ NodeID.invalid := by
  rw [rises, Bool.and_eq_true, decide_eq_true_iff]
  apply and_congr_right
  intro unvisited
  rw [risen, if_pos unvisited]
  cases found : firstIn adj F j with
  | none => simp
  | some p => simpa using answers.ne_invalid (answers.firstIn_lt found).1

theorem room (running : Running ws A pages adj source f F pushed start sweeps pending s) :
    pushed.length ≤ A.ids.length := by
  simpa using ((Spread.start A.ids.length f).room running.distinct running.queued).2.1

theorem sweepUp (answers : Answers ws A pages adj) (loops : Loops)
    (running : Running ws A pages adj source f F pushed start sweeps pending s)
    (included : pending ⊆ {j | j < A.ids.length ∧ F j})
    (known : {j | j < A.ids.length ∧ F j} ⊆ pending ∪ {j | Search.Lifted sweeps j}) :
    ∃ b sweep, buStep loops s.loopCount s.g s.parent s.front s.curr A.ids.length = .ok b ∧
      b.awakeCount = ((List.range A.ids.length).filter (rises adj F f)).length ∧ sweep.bottomUp ∧
      (∀ j < A.ids.length, rises adj F f j → Search.Lifted (sweeps ++ [sweep]) j) ∧
      Running ws A pages adj source (risen adj F f) (rises adj F f) pushed start (sweeps ++ [sweep])
        {j | j < A.ids.length ∧ rises adj F f j}
        { s with g := b.g, parent := b.parent, front := b.next, curr := s.front, loopCount := s.loopCount + 1 } := by
  obtain ⟨b, stepped, serves, parent, next, awake⟩ := buStep_spec answers loops s.loopCount running.serves running.parent
    running.front running.curr
  have legal : Search.Sweep.Legal (ListedEdge adj) (pick adj)
      ⟨true, parentOf A.ids.length f, {j | j < A.ids.length ∧ F j}, parentOf A.ids.length (risen adj F f)⟩ := by
    constructor
    · rintro j ⟨inside, bit⟩
      exact parentOf_ne_none.mpr ⟨inside, running.shown j inside bit⟩
    · intro v p before
      obtain ⟨inside, visited, parent⟩ := parentOf_eq_some.mp before
      have kept := risen_kept adj F f visited
      exact parentOf_eq_some.mpr ⟨inside, by rwa [kept], by rwa [kept]⟩
    · intro _ v before
      have picks : pick adj {j | j < A.ids.length ∧ F j} v = firstIn adj F v :=
        answers.pick_eq (fun j inside => by simp [inside]) v
      dsimp only
      rw [picks, parentOf]
      by_cases inside : v < A.ids.length
      · have none := parentOf_eq_none.mp before inside
        rw [risen, if_pos none]
        cases found : firstIn adj F v with
        | none => simp
        | some p => simp [inside, answers.ne_invalid (answers.firstIn_lt found).1]
      · simp [inside, firstIn, answers.outside v (by omega)]
    · intro down
      exact absurd rfl down
  have lifted (j : Nat) (inside : j < A.ids.length) (here : rises adj F f j) :
      parentOf A.ids.length f j = none ∧ parentOf A.ids.length (risen adj F f) j ≠ none := by
    obtain ⟨before, after⟩ := (risen_of_rises answers).mp here
    exact ⟨parentOf_eq_none.mpr fun _ => before, parentOf_ne_none.mpr ⟨inside, after⟩⟩
  refine ⟨b, ⟨true, parentOf A.ids.length f, {j | j < A.ids.length ∧ F j}, parentOf A.ids.length (risen adj F f)⟩,
    stepped, awake, rfl, fun j inside here => ⟨_, List.mem_append_right _ (List.mem_singleton_self _), rfl,
      lifted j inside here⟩, serves, parent, running.queue, running.distinct, fun j member => ?_, next,
    fun j inside bit => ((risen_of_rises answers).mp bit).2, running.front.length, ?_⟩
  · obtain ⟨inside, visited⟩ := running.queued j member
    exact ⟨inside, by rwa [risen_kept adj F f visited]⟩
  · have trail := running.trail.sweep _ included known legal
    have visits : {v | parentOf A.ids.length f v = none ∧ parentOf A.ids.length (risen adj F f) v ≠ none} =
        {j | j < A.ids.length ∧ rises adj F f j} := by
      ext j
      rw [Set.mem_ofPred_eq, Set.mem_ofPred_eq, parentOf_eq_none, parentOf_ne_none, risen_of_rises answers]
      constructor
      · rintro ⟨before, inside, after⟩
        exact ⟨inside, before inside, after⟩
      · rintro ⟨inside, before, after⟩
        exact ⟨fun _ => before, inside, after⟩
    rwa [visits] at trail

theorem sweepDown (answers : Answers ws A pages adj) (loops : Loops)
    (running : Running ws A pages adj source f F pushed start sweeps {j | j ∈ pushed.drop start} s) :
    ∃ d f' fresh sweep, tdStep loops s.loopCount s.g s.parent s.queue = .ok d ∧
      d.scoutCount = scouted pages fresh ∧ ¬ sweep.bottomUp ∧
      Spread A.ids.length f f' (fun p j => p ∈ pushed.drop start ∧ ListedEdge adj p j) fresh ∧
      ∀ edgesToCheck scoutCount,
        Running ws A pages adj source f' F (pushed ++ fresh) pushed.length (sweeps ++ [sweep])
          {j | j ∈ (pushed ++ fresh).drop pushed.length}
          { s with g := d.g, parent := d.parent, queue := d.queue.slideWindow, edgesToCheck, scoutCount,
                   loopCount := s.loopCount + 1 } := by
  obtain ⟨d, f', fresh, stepped, serves, parent, queue, counted, spread⟩ := tdStep_spec answers loops s.loopCount running.serves
    running.parent running.queue running.distinct running.queued
  obtain ⟨distinct, -, queued⟩ := spread.room running.distinct running.queued
  have legal : Search.Sweep.Legal (ListedEdge adj) (pick adj)
      ⟨false, parentOf A.ids.length f, {j | j ∈ pushed.drop start}, parentOf A.ids.length f'⟩ := by
    constructor
    · intro j member
      exact parentOf_ne_none.mpr (running.queued j (List.mem_of_mem_drop member))
    · intro v p before
      obtain ⟨inside, visited, parent⟩ := parentOf_eq_some.mp before
      have kept := spread.kept v inside visited
      exact parentOf_eq_some.mpr ⟨inside, by rwa [kept], by rwa [kept]⟩
    · intro up
      cases up
    · intro _ v before
      dsimp only
      constructor
      · rw [parentOf_ne_none]
        constructor
        · rintro ⟨inside, visited⟩
          exact ⟨f' v, spread.found v inside (parentOf_eq_none.mp before inside) visited⟩
        · rintro ⟨p, front, edge⟩
          have inside := answers.edge_lt edge
          exact ⟨inside, spread.all p v inside ⟨front, edge⟩⟩
      · intro p after
        obtain ⟨inside, visited, parent⟩ := parentOf_eq_some.mp after
        exact parent ▸ spread.found v inside (parentOf_eq_none.mp before inside) visited
  refine ⟨d, f', fresh, ⟨false, parentOf A.ids.length f, {j | j ∈ pushed.drop start}, parentOf A.ids.length f'⟩,
    stepped, counted, Bool.false_ne_true, spread, fun _ _ => ⟨serves, parent, queue.slideWindow, distinct, queued,
    running.front, fun j inside bit => ?_, running.curr, ?_⟩⟩
  · have visited := running.shown j inside bit
    rwa [spread.kept j inside visited]
  · have trail := running.trail.sweep _ subset_rfl Set.subset_union_left legal
    have visits : {v | parentOf A.ids.length f v = none ∧ parentOf A.ids.length f' v ≠ none} =
        {j | j ∈ (pushed ++ fresh).drop pushed.length} := by
      ext j
      rw [Set.mem_ofPred_eq, Set.mem_ofPred_eq, parentOf_eq_none, parentOf_ne_none, List.drop_left, spread.fresh]
      constructor
      · rintro ⟨before, inside, after⟩
        exact ⟨inside, before inside, after⟩
      · rintro ⟨inside, before, after⟩
        exact ⟨fun _ => before, inside, after⟩
    rwa [visits] at trail

theorem bottomUp (answers : Answers ws A pages adj) (loops : Loops) {beta : Int} (positive : 1 ≤ beta) (u : Nat) :
    ∀ {f F sweeps pending s} (old : Nat), Running ws A pages adj source f F pushed start sweeps pending s →
      pending ⊆ {j | j < A.ids.length ∧ F j} →
      {j | j < A.ids.length ∧ F j} ⊆ pending ∪ {j | Search.Lifted sweeps j} → 1 ≤ old →
      unvisited A.ids.length f < u →
      ∃ s' f' F' first more, (∀ limit, u ≤ limit → s.bottomUp loops A.ids.length beta limit old = .ok s') ∧
        first.bottomUp ∧ (∀ j < A.ids.length, F' j → Search.Lifted (sweeps ++ first :: more) j) ∧
        Running ws A pages adj source f' F' pushed start (sweeps ++ first :: more) {j | j < A.ids.length ∧ F' j} s' ∧
        ∀ j < A.ids.length, F' j → f j = NodeID.invalid ∧ unvisited A.ids.length f' < unvisited A.ids.length f := by
  induction u with
  | zero =>
      intro f F sweeps pending s old running included known awake few
      exact absurd few (Nat.not_lt_zero _)
  | succ u ih =>
      intro f F sweeps pending s old running included known awake few
      obtain ⟨b, sweep, stepped, count, up, lifted, running'⟩ := running.sweepUp answers loops included known
      have less {j : Nat} (inside : j < A.ids.length) (here : rises adj F f j) :
          f j = NodeID.invalid ∧ unvisited A.ids.length (risen adj F f) < unvisited A.ids.length f := by
        obtain ⟨before, after⟩ := (risen_of_rises answers).mp here
        exact ⟨before, unvisited_lt (fun j _ visited => risen_kept adj F f visited) inside before after⟩
      by_cases again : old ≤ b.awakeCount ∨ (A.ids.length : Int).tdiv beta < b.awakeCount
      · have large : (0 : Int) ≤ (A.ids.length : Int).tdiv beta := Int.tdiv_nonneg (Int.natCast_nonneg _) (by omega)
        have awake' : 1 ≤ b.awakeCount := by omega
        obtain ⟨j, member⟩ := List.exists_mem_of_length_pos (count ▸ awake')
        obtain ⟨inside, here⟩ := List.mem_filter.mp member
        have fewer := (less (List.mem_range.mp inside) here).2
        obtain ⟨s', f', F', second, rest, ran, -, lifted', final, found⟩ := ih b.awakeCount running' subset_rfl
          Set.subset_union_left awake' (by omega)
        rw [List.append_assoc] at lifted' final
        refine ⟨s', f', F', sweep, second :: rest, fun limit more => ?_, up, lifted', final, fun j below here => ?_⟩
        · obtain ⟨limit, rfl⟩ := Nat.exists_eq_add_of_le' more
          rw [← Nat.add_assoc, Search.bottomUp, stepped, ok_bind]
          dsimp only
          rw [if_pos again]
          exact ran _ (by omega)
        · obtain ⟨before, fewer'⟩ := found j below here
          refine ⟨?_, fewer'.trans fewer⟩
          by_contra visited
          exact visited (risen_kept adj F f visited ▸ before)
      · refine ⟨_, _, _, sweep, [], fun limit more => ?_, up, lifted, running', fun j inside here => less inside here⟩
        obtain ⟨limit, rfl⟩ := Nat.exists_eq_add_of_le' more
        rw [← Nat.add_assoc, Search.bottomUp, stepped, ok_bind]
        dsimp only
        rw [if_neg again]

theorem round (answers : Answers ws A pages adj) (loops : Loops) (alpha : Int) {beta : Int} (positive : 1 ≤ beta)
    {u : Nat}
    (few : unvisited A.ids.length f < u)
    (running : Running ws A pages adj source f F pushed start sweeps {j | j ∈ pushed.drop start} s)
    (lifted : ∀ j < A.ids.length, F j → Search.Lifted sweeps j) {edgeNum srcOutDegree : Int}
    (steered : Steered (ListedEdge adj) source edgeNum alpha
      (scoutCount (ListedEdge adj) source A.ids.length (fun j => (pages j).snap.length) srcOutDegree) sweeps s)
    (busy : start < pushed.length) :
    ∃ s' f' F' fresh sweeps', (∀ fuel limit, u ≤ limit → s.explore loops A.ids.length alpha beta limit (fuel + 1) =
        s'.explore loops A.ids.length alpha beta limit fuel) ∧
      Running ws A pages adj source f' F' (pushed ++ fresh) pushed.length sweeps'
        {j | j ∈ (pushed ++ fresh).drop pushed.length} s' ∧
      (∀ j < A.ids.length, F' j → Search.Lifted sweeps' j) ∧
      Steered (ListedEdge adj) source edgeNum alpha
        (scoutCount (ListedEdge adj) source A.ids.length (fun j => (pages j).snap.length) srcOutDegree) sweeps' s' ∧
      (fresh = [] ∨ unvisited A.ids.length f' < unvisited A.ids.length f) := by
  have nonempty : ¬ s.queue.empty := fun empty => busy.ne (running.queue.empty_iff.mp empty)
  by_cases heavy : s.edgesToCheck.tdiv alpha < s.scoutCount
  · obtain ⟨front, filled, marks⟩ := queueToBitmap_spec loops s.loopCount running.queue running.room
      (fun j member => (running.queued j member).1) running.front
    have size : s.queue.size = pushed.length - start := running.queue.size
    have running' : Running ws A pages adj source f (fun j => F j || j ∈ pushed.drop start) pushed pushed.length sweeps
        {j | j ∈ pushed.drop start} { s with front, queue := s.queue.slideWindow, loopCount := s.loopCount + 1 } := by
      refine ⟨running.serves, running.parent, running.queue.slideWindow, running.distinct, running.queued, marks,
        fun j inside bit => ?_, running.curr, running.trail⟩
      rcases Bool.or_eq_true_iff.mp bit with old | new
      · exact running.shown j inside old
      · exact (running.queued j (List.mem_of_mem_drop (of_decide_eq_true new))).2
    have included : {j | j ∈ pushed.drop start} ⊆ {j | j < A.ids.length ∧ (F j || j ∈ pushed.drop start)} := by
      intro j member
      exact ⟨(running.queued j (List.mem_of_mem_drop member)).1, by simp [show j ∈ pushed.drop start from member]⟩
    have known : {j | j < A.ids.length ∧ (F j || j ∈ pushed.drop start)} ⊆
        {j | j ∈ pushed.drop start} ∪ {j | Search.Lifted sweeps j} := by
      rintro j ⟨inside, bit⟩
      rcases Bool.or_eq_true_iff.mp bit with old | new
      · exact .inr (lifted j inside old)
      · exact .inl (of_decide_eq_true new)
    have queued : pushed[start] ∈ pushed.drop start := List.mem_drop_iff_getElem.mpr ⟨0, by omega, by simp⟩
    have awake : 1 ≤ s.queue.size := by
      rw [size]
      exact Nat.sub_pos_of_lt busy
    obtain ⟨s', f', F', first, more, ran, up, lifted', final, found⟩ :=
        running'.bottomUp answers loops positive u s.queue.size included known awake few
    obtain ⟨queue, fresh, collected, got, distinct, new⟩ := bitmapToQueue_spec loops s'.loopCount final.queue
      final.distinct final.front fun j member => by
        obtain ⟨inside, visited⟩ := running.queued j member
        exact ⟨inside, fun here => visited (found j inside here).1⟩
    refine ⟨{ s' with queue, scoutCount := 1, loopCount := s'.loopCount + 1 }, f', F', fresh, sweeps ++ first :: more,
      fun fuel limit enough => ?_, ?_, lifted', steered.turn running.trail ⟨_, queued⟩ heavy up, ?_⟩
    · rw [Search.explore, if_neg nonempty, if_pos heavy, filled, ok_bind]
      dsimp only
      rw [ran limit enough, ok_bind, collected, ok_bind]
    · have apart (j : Nat) (member : j ∈ pushed) : j ∉ fresh := by
        intro here
        obtain ⟨inside, bit⟩ := (new j).mp here
        exact (running.queued j member).2 (found j inside bit).1
      refine ⟨final.serves, final.parent, got, ?_, fun j member => ?_, final.front, final.shown, final.curr, ?_⟩
      · exact List.nodup_append.mpr ⟨final.distinct, distinct, fun a member b here same => apart a member (same ▸ here)⟩
      · rcases List.mem_append.mp member with old | now
        · exact final.queued j old
        · obtain ⟨inside, bit⟩ := (new j).mp now
          exact ⟨inside, final.shown j inside bit⟩
      · have visits : {j | j < A.ids.length ∧ F' j} = {j | j ∈ (pushed ++ fresh).drop pushed.length} := by
          ext j
          rw [Set.mem_ofPred_eq, Set.mem_ofPred_eq, List.drop_left, new]
        exact visits ▸ final.trail
    · cases fresh with
      | nil => exact .inl rfl
      | cons j rest =>
          obtain ⟨inside, here⟩ := (new j).mp (by simp)
          exact .inr (found j inside here).2
  · obtain ⟨d, f', fresh, sweep, stepped, counted, down, spread, running'⟩ := running.sweepDown answers loops
    have next := running' (s.edgesToCheck - s.scoutCount) d.scoutCount
    refine ⟨_, f', F, fresh, sweeps ++ [sweep], fun fuel limit more => ?_, next,
      fun j inside bit => (lifted j inside bit).append _, steered.descend next.trail down (Int.not_lt.mp heavy) ?_ rfl, ?_⟩
    · rw [Search.explore, if_neg nonempty, if_neg heavy, stepped, ok_bind]
    · intro same
      rw [counted]
      exact scouted_eq spread.nodup (fun j member => ((spread.fresh j).mp member).1) (by rwa [List.drop_left] at same) _
    · cases fresh with
      | nil => exact .inl rfl
      | cons j rest =>
          obtain ⟨inside, before, after⟩ := (spread.fresh j).mp (by simp)
          exact .inr (unvisited_lt spread.kept inside before after)

theorem explore (answers : Answers ws A pages adj) (loops : Loops) {alpha beta : Int} (positive : 1 ≤ beta)
    {edgeNum srcOutDegree : Int} {scout : Nat → Int}
    (scouts : scout = scoutCount (ListedEdge adj) source A.ids.length (fun j => (pages j).snap.length) srcOutDegree)
    (u : Nat) :
    ∀ {f F pushed start sweeps s}, Running ws A pages adj source f F pushed start sweeps {j | j ∈ pushed.drop start} s →
      (∀ j < A.ids.length, F j → Search.Lifted sweeps j) →
      Steered (ListedEdge adj) source edgeNum alpha scout sweeps s →
      start ≤ pushed.length → unvisited A.ids.length f < u →
      ∃ s' f' F' pushed' start' sweeps',
        (∀ fuel limit, u ≤ limit → s.explore loops A.ids.length alpha beta limit (fuel + u + 1) = .ok s') ∧
        Running ws A pages adj source f' F' pushed' start' sweeps' ∅ s' ∧
        Steered (ListedEdge adj) source edgeNum alpha scout sweeps' s' := by
  subst scouts
  have done {f F pushed start sweeps s}
      (running : Running ws A pages adj source f F pushed start sweeps {j | j ∈ pushed.drop start} s)
      (last : start = pushed.length) :
      (∀ fuel limit, s.explore loops A.ids.length alpha beta limit (fuel + 1) = .ok s) ∧
        Running ws A pages adj source f F pushed start sweeps ∅ s := by
    have nothing : {j | j ∈ pushed.drop start} = ∅ := by
      rw [last, List.drop_length]
      simp
    rw [nothing] at running
    refine ⟨fun fuel limit => ?_, running⟩
    rw [Search.explore, if_pos (running.queue.empty_iff.mpr last)]
  induction u with
  | zero =>
      intro f F pushed start sweeps s running lifted steered shown few
      exact absurd few (Nat.not_lt_zero _)
  | succ u ih =>
      intro f F pushed start sweeps s running lifted steered shown few
      rcases Nat.eq_or_lt_of_le shown with last | busy
      · obtain ⟨ran, final⟩ := done running last
        exact ⟨s, f, F, pushed, start, sweeps, fun fuel limit _ => ran _ limit, final, steered⟩
      obtain ⟨s', f', F', fresh, sweeps', ran, running', lifted', steered', rest⟩ :=
        running.round answers loops alpha positive few lifted steered busy
      rcases rest with rfl | fewer
      · obtain ⟨ran', final⟩ := done running' (by simp)
        exact ⟨s', f', F', _, _, sweeps', fun fuel limit more => (ran _ limit more).trans (ran' _ limit), final,
          steered'⟩
      · obtain ⟨s'', f'', F'', pushed', start', sweeps'', ran', final⟩ := ih running' lifted' steered' (by simp) (by omega)
        exact ⟨s'', f'', F'', pushed', start', sweeps'',
          fun fuel limit more => (ran _ limit more).trans (ran' fuel limit (by omega)), final⟩

end Running

end Radix.Analytics
