import Mathlib.Algebra.BigOperators.Group.List.Basic
import Mathlib.Algebra.Order.Field.Rat
import Mathlib.Data.List.Perm.Subperm
import Radix.Analytics.Betweenness
import Radix.Lib.Geodesics

/-!
# What `PBFS` computes

The depths, the numbers of shortest paths and the bits of `succ`, and a queue that holds the levels one after
the other.
-/

namespace Radix.Analytics

open Lib RadixGraph

/-! ## The queue after a reset -/

structure SlidingQueue.Loaded (q : SlidingQueue) (n : Nat) (pushed : List Nat) (start stop : Nat) : Prop where
  length : q.shared.cells.length = n
  cell : ∀ i < pushed.length, q.shared.cells[i]? = some pushed[i]?
  sharedIn : q.sharedIn = pushed.length
  outStart : q.sharedOutStart = start
  outEnd : q.sharedOutEnd = stop

namespace SlidingQueue.Loaded

variable {q : SlidingQueue} {n start stop : Nat} {pushed : List Nat}

theorem reset (length : q.shared.cells.length = n) : q.reset.Loaded n [] 0 0 :=
  ⟨length, fun i inside => absurd inside (Nat.not_lt_zero i), rfl, rfl, rfl⟩

theorem pushBack (loaded : q.Loaded n pushed start stop) (room : pushed.length < n) (a : Nat) :
    ∃ q', q.pushBack a = .ok q' ∧ q'.Loaded n (pushed ++ [a]) start stop := by
  have bound : q.sharedIn < q.shared.cells.length := by rwa [loaded.length, loaded.sharedIn]
  have stored : q.shared.set q.sharedIn a = .ok ⟨q.shared.cells.set q.sharedIn (some a)⟩ := if_pos bound
  refine ⟨{ q with shared := ⟨q.shared.cells.set q.sharedIn (some a)⟩, sharedIn := q.sharedIn + 1 },
    by rw [SlidingQueue.pushBack, stored, ok_bind], ?_, fun i inside => ?_, ?_, loaded.outStart, loaded.outEnd⟩
  · rw [List.length_set, loaded.length]
  · rw [List.length_append, List.length_singleton] at inside
    dsimp only
    rw [List.getElem?_set, loaded.sharedIn]
    by_cases last : pushed.length = i
    · subst last
      rw [if_pos rfl, if_pos (by rw [loaded.length]; exact room), List.getElem?_concat_length]
    · rw [if_neg last, loaded.cell i (by omega), List.getElem?_append_left (by omega)]
  · rw [List.length_append, List.length_singleton, ← loaded.sharedIn]

theorem flush {buffer : QueueBuffer} (loaded : q.Loaded n pushed start stop) (room : pushed.length + buffer.length ≤ n) :
    ∃ q', buffer.flush q = .ok q' ∧ q'.Loaded n (pushed ++ buffer) start stop := by
  have step (done : List Nat) (a : Nat) (q : SlidingQueue) (earlier : done ++ [a] <+: buffer)
      (loaded : q.Loaded n (pushed ++ done) start stop) :
      ∃ q', q.pushBack a = .ok q' ∧ q'.Loaded n (pushed ++ (done ++ [a])) start stop := by
    have less := earlier.length_le
    rw [← List.append_assoc]
    refine loaded.pushBack ?_ a
    simp only [List.length_append, List.length_singleton] at less ⊢
    omega
  exact foldlM_invariant buffer (fun done (q : SlidingQueue) => q.Loaded n (pushed ++ done) start stop) step
    (by simpa using loaded)

theorem slideWindow (loaded : q.Loaded n pushed start stop) : q.slideWindow.Loaded n pushed stop pushed.length :=
  ⟨loaded.length, loaded.cell, loaded.sharedIn, loaded.outEnd, loaded.sharedIn⟩

theorem item (loaded : q.Loaded n pushed start stop) {i a : Nat} (here : pushed[i]? = some a) :
    q.shared.get i = .ok a := by
  rw [PVector.get, loaded.cell i (List.getElem?_eq_some_iff.mp here).1, here]

theorem window (loaded : q.Loaded n pushed start stop) : q.window = List.range' start (stop - start) := by
  rw [SlidingQueue.window, SlidingQueue.size, loaded.outStart, loaded.outEnd]

theorem empty_iff (loaded : q.Loaded n pushed start stop) : q.empty ↔ start = stop := by
  simp [SlidingQueue.empty, loaded.outStart, loaded.outEnd]

end SlidingQueue.Loaded

def Loading (q : SlidingQueue) (buffer : QueueBuffer) (n : Nat) (all : List Nat) (start stop : Nat) : Prop :=
  all.length ≤ n ∧ ∃ pushed, all = pushed ++ buffer ∧ q.Loaded n pushed start stop ∧ stop ≤ pushed.length

namespace Loading

variable {q : SlidingQueue} {buffer : QueueBuffer} {n start stop : Nat} {all : List Nat}

theorem begin (loaded : q.Loaded n all start stop) (shown : stop ≤ all.length) (room : all.length ≤ n) :
    Loading q [] n all start stop :=
  ⟨room, all, by simp, loaded, shown⟩

theorem pushBack (loading : Loading q buffer n all start stop) (room : all.length < n) (a : Nat) :
    ∃ buffer' q', buffer.pushBack q a = .ok (buffer', q') ∧ Loading q' buffer' n (all ++ [a]) start stop := by
  obtain ⟨before, pushed, rfl, loaded, shown⟩ := loading
  have room' : ((pushed ++ buffer) ++ [a]).length ≤ n := by
    rw [List.length_append, List.length_singleton]
    omega
  unfold QueueBuffer.pushBack
  split
  · obtain ⟨q', flushed, loaded'⟩ := loaded.flush (by simpa using before)
    exact ⟨[a], q', by rw [flushed, ok_bind], room', _, rfl, loaded', by rw [List.length_append]; omega⟩
  · exact ⟨buffer ++ [a], q, rfl, room', pushed, by simp, loaded, shown⟩

theorem flush (loading : Loading q buffer n all start stop) :
    ∃ q', buffer.flush q = .ok q' ∧ q'.Loaded n all start stop := by
  obtain ⟨room, pushed, rfl, loaded, -⟩ := loading
  exact loaded.flush (by simpa using room)

theorem item (loading : Loading q buffer n all start stop) {i : Nat} (inside : i < stop) {a : Nat}
    (here : all[i]? = some a) : q.shared.get i = .ok a := by
  obtain ⟨-, pushed, rfl, loaded, shown⟩ := loading
  rw [List.getElem?_append_left (by omega)] at here
  exact loaded.item here

end Loading

/-! ## One level -/

def targets {W : Type} [Zero W] (edges : List (WeightedEdge W)) : List Nat := edges.map fun e => e.idx.toNat

def gain (c : Nat → ℚ) (pairs : List (Nat × Nat)) (j : Nat) : ℚ :=
  ((pairs.filter fun p => p.2 = j).map fun p => c p.1).sum

theorem gain_snoc (c : Nat → ℚ) (pairs : List (Nat × Nat)) (u v j : Nat) :
    gain c (pairs ++ [(u, v)]) j = gain c pairs j + if v = j then c u else 0 := by
  rw [gain, gain, List.filter_append, List.map_append, List.sum_append]
  congr 1
  by_cases same : v = j
  · rw [if_pos same, List.filter_singleton]
    simp [same]
  · rw [if_neg same, List.filter_singleton]
    simp [same]

theorem gain_perm (c : Nat → ℚ) {pairs pairs' : List (Nat × Nat)} (perm : pairs.Perm pairs') (j : Nat) :
    gain c pairs j = gain c pairs' j := ((perm.filter _).map _).sum_eq

def hit (pairs : List (Nat × Nat)) (j : Nat) : Bool := pairs.any fun p => p.2 = j

theorem hit_iff {pairs : List (Nat × Nat)} {j : Nat} : hit pairs j ↔ ∃ u, (u, j) ∈ pairs := by
  rw [hit, List.any_eq_true]
  constructor
  · rintro ⟨⟨u, v⟩, member, same⟩
    obtain rfl : v = j := by simpa using same
    exact ⟨u, member⟩
  · rintro ⟨u, member⟩
    exact ⟨(u, j), member, by simp⟩

theorem hit_snoc (pairs : List (Nat × Nat)) (u v j : Nat) : hit (pairs ++ [(u, v)]) j = (hit pairs j || v = j) := by
  simp [hit]

variable {W : Type} [Zero W] [DecidableEq W] {ws : List Nat} {A : Ledger W} {pages : Nat → Page W}
  {adj : Nat → List (WeightedEdge W)}

/-- The level after the edges in `pairs`: `f`, `c` and `S` are depths, counts and bits as it began, and `old` is
what the queue had got. -/
structure Fanning (ws : List Nat) (A : Ledger W) (pages : Nat → Page W) (n : Nat) (depth : NodeID) (f : Nat → NodeID)
    (c : Nat → ℚ) (S : Nat → Bool) (old : List Nat) (start : Nat) (pairs : List (Nat × Nat)) (s : PathCounting W) :
    Prop where
  serves : Serves ws A pages s.g
  depths : s.depths.Stores n fun j => if f j = NodeID.invalid ∧ hit pairs j then depth else f j
  occurred : ∃ o, s.occurred.Stores n o ∧ ∀ j < n, f j = NodeID.invalid → o j = hit pairs j
  pathCounts : s.pathCounts.Stores n fun j => c j + if f j = NodeID.invalid then gain c pairs j else 0
  succ : s.succ.Marks n fun j => S j || f j = NodeID.invalid && hit pairs j
  queue : ∃ fresh : List Nat, fresh.Nodup ∧ (∀ j, j ∈ fresh ↔ j < n ∧ f j = NodeID.invalid ∧ hit pairs j) ∧
    Loading s.queue s.lqueue n (old ++ fresh) start old.length

structure Levelled (n : Nat) (depth : NodeID) (f : Nat → NodeID) (old : List Nat) : Prop where
  valid : depth ≠ NodeID.invalid
  shallow : ∀ j < n, f j ≠ depth
  distinct : old.Nodup
  visited : ∀ j ∈ old, j < n ∧ f j ≠ NodeID.invalid

namespace Fanning

variable {n : Nat} {depth : NodeID} {f : Nat → NodeID} {c : Nat → ℚ} {S : Nat → Bool} {old : List Nat} {start : Nat}
  {pairs : List (Nat × Nat)} {s : PathCounting W}

theorem perm {pairs' : List (Nat × Nat)} (fanning : Fanning ws A pages n depth f c S old start pairs s)
    (perm : pairs.Perm pairs') : Fanning ws A pages n depth f c S old start pairs' s := by
  have same (j : Nat) : hit pairs j = hit pairs' j := by
    rw [Bool.eq_iff_iff, hit_iff, hit_iff]
    exact exists_congr fun u => perm.mem_iff
  have gains (j : Nat) := gain_perm c perm j
  obtain ⟨serves, depths, ⟨o, occurred, marks⟩, pathCounts, succ, fresh, nodup, members, loading⟩ := fanning
  simp only [same, gains] at depths marks pathCounts succ members
  exact ⟨serves, depths, ⟨o, occurred, marks⟩, pathCounts, succ, fresh, nodup, members, loading⟩

theorem discover (levelled : Levelled n depth f old)
    (fanning : Fanning ws A pages n depth f c S old start pairs s) {v : Nat} (inside : v < n) (u : Nat) :
    ∃ s', discover depth s v = .ok s' ∧ Serves ws A pages s'.g ∧
      s'.pathCounts = s.pathCounts ∧ s'.succ = s.succ ∧
      (s'.depths.Stores n fun j => if f j = NodeID.invalid ∧ hit (pairs ++ [(u, v)]) j then depth else f j) ∧
      (∃ o, s'.occurred.Stores n o ∧ ∀ j < n, f j = NodeID.invalid → o j = hit (pairs ++ [(u, v)]) j) ∧
      ∃ fresh : List Nat, fresh.Nodup ∧
        (∀ j, j ∈ fresh ↔ j < n ∧ f j = NodeID.invalid ∧ hit (pairs ++ [(u, v)]) j) ∧
        Loading s'.queue s'.lqueue n (old ++ fresh) start old.length := by
  obtain ⟨o, occurred, marks⟩ := fanning.occurred
  obtain ⟨fresh, nodup, members, loading⟩ := fanning.queue
  rw [Analytics.discover, fanning.depths.get inside, ok_bind]
  by_cases new : f v = NodeID.invalid ∧ hit pairs v = false
  · obtain ⟨unvisited, unhit⟩ := new
    have current : (if f v = NodeID.invalid ∧ hit pairs v then depth else f v) = NodeID.invalid := by
      rw [if_neg (by simp [unhit]), unvisited]
    obtain ⟨depths', stored, depths''⟩ := fanning.depths.set inside depth
    obtain ⟨occurred', marked, occurred''⟩ := occurred.set inside true
    have unseen : o v = false := (marks v inside unvisited).trans unhit
    have absent : v ∉ fresh := fun member => by simp [((members v).mp member).2.2] at unhit
    have members' (j : Nat) : j ∈ fresh ++ [v] ↔ j < n ∧ f j = NodeID.invalid ∧ hit (pairs ++ [(u, v)]) j := by
      rw [List.mem_append, List.mem_singleton, members, hit_snoc, Bool.or_eq_true, decide_eq_true_iff]
      constructor
      · rintro (⟨below, none, before⟩ | rfl)
        · exact ⟨below, none, .inl before⟩
        · exact ⟨inside, unvisited, .inr rfl⟩
      · rintro ⟨below, none, before | rfl⟩
        · exact .inl ⟨below, none, before⟩
        · exact .inr rfl
    have nodup' : (fresh ++ [v]).Nodup := List.nodup_append.mpr ⟨nodup, List.nodup_singleton v,
      fun a member b single same => absent (by rwa [← List.mem_singleton.mp single, ← same])⟩
    have apart : (old ++ (fresh ++ [v])).Nodup := List.nodup_append.mpr ⟨levelled.distinct, nodup',
      fun a member b single same => (levelled.visited a member).2 (same ▸ ((members' b).mp single).2.1)⟩
    have room : (old ++ (fresh ++ [v])).length ≤ n := by
      have within : old ++ (fresh ++ [v]) ⊆ List.range n := by
        intro j member
        rcases List.mem_append.mp member with before | now
        · exact List.mem_range.mpr (levelled.visited j before).1
        · exact List.mem_range.mpr ((members' j).mp now).1
      simpa using (List.subperm_of_subset apart within).length_le
    obtain ⟨lqueue, queue, pushed, loading'⟩ := loading.pushBack (by
      rw [← List.append_assoc, List.length_append, List.length_singleton] at room
      omega) v
    rw [if_pos current, stored, ok_bind, occurred.get inside, ok_bind, marked, ok_bind, unseen]
    simp only [Bool.false_eq_true, if_false, pushed, ok_bind]
    rw [List.append_assoc] at loading'
    refine ⟨_, rfl, fanning.serves, rfl, rfl, depths''.congr fun j _ => ?_, ⟨_, occurred'', fun j below none => ?_⟩,
      fresh ++ [v], nodup', members', loading'⟩
    · by_cases same : j = v
      · subst same
        rw [Function.update_self, if_pos ⟨unvisited, by simp [hit_snoc]⟩]
      · rw [Function.update_of_ne same, hit_snoc]
        simp [Ne.symm same]
    · by_cases same : j = v
      · subst same
        rw [Function.update_self, hit_snoc]
        simp
      · rw [Function.update_of_ne same, marks j below none, hit_snoc]
        simp [Ne.symm same]
  · have known : (if f v = NodeID.invalid ∧ hit pairs v then depth else f v) ≠ NodeID.invalid := by
      split
      · exact levelled.valid
      · rename_i other
        intro unvisited
        refine new ⟨unvisited, ?_⟩
        cases before : hit pairs v with
        | false => rfl
        | true => exact absurd ⟨unvisited, before⟩ other
    have same (j : Nat) : f j = NodeID.invalid → hit (pairs ++ [(u, v)]) j = hit pairs j := by
      intro unvisited
      rw [hit_snoc]
      by_cases here : v = j
      · subst here
        have before : hit pairs v = true := by
          by_contra unhit
          exact new ⟨unvisited, by simpa using unhit⟩
        simp [before]
      · simp [here]
    rw [if_neg known]
    refine ⟨s, rfl, fanning.serves, rfl, rfl, fanning.depths.congr fun j _ => ?_,
      ⟨o, occurred, fun j below none => (marks j below none).trans (same j none).symm⟩, fresh, nodup, fun j => ?_, loading⟩
    · by_cases none : f j = NodeID.invalid
      · rw [same j none]
      · rw [if_neg (fun h => none h.1), if_neg (fun h => none h.1)]
    · rw [members]
      refine and_congr_right fun _ => and_congr_right fun none => by rw [same j none]

theorem edge (levelled : Levelled n depth f old)
    (fanning : Fanning ws A pages n depth f c S old start pairs s) {u v : Nat} (front : u < n)
    (before : f u ≠ NodeID.invalid) {e : WeightedEdge W} (inside : v < n) (idx : e.idx = (v : Int)) :
    ∃ s', countPaths depth u s e = .ok s' ∧ Fanning ws A pages n depth f c S old start (pairs ++ [(u, v)]) s' := by
  obtain ⟨s', discovered, serves, counts, bits, depths, occurred, queue⟩ := fanning.discover levelled inside u
  have from' := fanning.pathCounts.get front
  have into := fanning.pathCounts.get inside
  rw [← counts] at from' into
  rw [if_neg before, add_zero] at from'
  rw [countPaths, idx, index_natCast, ok_bind, discovered, ok_bind, depths.get inside, ok_bind]
  by_cases none : f v = NodeID.invalid
  · have current : (if f v = NodeID.invalid ∧ hit (pairs ++ [(u, v)]) v then depth else f v) = depth :=
      if_pos ⟨none, by simp [hit_snoc]⟩
    obtain ⟨succ, marked, marks⟩ := fanning.succ.set inside
    obtain ⟨pathCounts, stored, stores⟩ := fanning.pathCounts.set inside
      (c v + (if f v = NodeID.invalid then gain c pairs v else 0) + c u)
    rw [if_pos current, bits, marked, ok_bind, into, ok_bind, from', ok_bind, counts, stored, ok_bind]
    refine ⟨_, rfl, serves, depths, occurred, stores.congr fun j _ => ?_, marks.congr fun j _ => ?_, queue⟩
    · rw [gain_snoc]
      by_cases same : j = v
      · subst same
        simp only [Function.update_self, if_pos none, if_true]
        ring
      · rw [Function.update_of_ne same, if_neg (Ne.symm same), add_zero]
    · rw [hit_snoc]
      by_cases same : j = v
      · subst same
        simp [none]
      · simp [same, Ne.symm same]
  · have current : (if f v = NodeID.invalid ∧ hit (pairs ++ [(u, v)]) v then depth else f v) ≠ depth := by
      rw [if_neg fun h => none h.1]
      exact levelled.shallow v inside
    rw [if_neg current]
    refine ⟨s', rfl, serves, depths, occurred, ?_, ?_, queue⟩
    · rw [counts]
      refine fanning.pathCounts.congr fun j _ => ?_
      rw [gain_snoc]
      by_cases same : v = j
      · subst same
        rw [if_neg none, if_neg none]
      · rw [if_neg same, add_zero]
    · rw [bits]
      refine fanning.succ.congr fun j _ => ?_
      rw [hit_snoc]
      by_cases same : v = j
      · subst same
        simp [none]
      · simp [same]

theorem vertex (answers : Answers ws A pages adj) (within : A.ids.length ≤ n) (short : n ≤ 2 ^ 31)
    (levelled : Levelled n depth f old) (fanning : Fanning ws A pages n depth f c S old start pairs s) {q u : Nat}
    (here : old[q]? = some u) :
    ∃ s', expandVertex depth s q = .ok s' ∧
      Fanning ws A pages n depth f c S old start (pairs ++ (targets (adj u)).map fun v => (u, v)) s' := by
  obtain ⟨front, before⟩ := levelled.visited u (List.mem_of_getElem? here)
  have below := (List.getElem?_eq_some_iff.mp here).1
  obtain ⟨fresh, nodup, members, loading⟩ := fanning.queue
  have item : s.queue.shared.get q = .ok u :=
    loading.item below (by rw [List.getElem?_append_left below, here])
  obtain ⟨found, g', read, serves'⟩ := answers.read fanning.serves (front.trans_le short)
  rw [expandVertex, item, ok_bind, read, ok_bind]
  have step (done : List (WeightedEdge W)) (e : WeightedEdge W) (s : PathCounting W) (earlier : done ++ [e] <+: adj u)
      (fanning : Fanning ws A pages n depth f c S old start (pairs ++ (targets done).map fun v => (u, v)) s) :
      ∃ s', countPaths depth u s e = .ok s' ∧
        Fanning ws A pages n depth f c S old start (pairs ++ (targets (done ++ [e])).map fun v => (u, v)) s' := by
    obtain ⟨v, inside, idx⟩ := answers.closed u e (earlier.subset (by simp))
    obtain ⟨s', ran, fanning'⟩ := fanning.edge levelled front before (inside.trans_le within) idx
    refine ⟨s', ran, ?_⟩
    have last : targets (done ++ [e]) = targets done ++ [v] := by simp [targets, idx]
    rw [last, List.map_append, ← List.append_assoc]
    exact fanning'
  exact foldlM_invariant (adj u)
    (fun done s => Fanning ws A pages n depth f c S old start (pairs ++ (targets done).map fun v => (u, v)) s) step
    ⟨serves', by simpa [targets] using fanning.depths, by simpa [targets] using fanning.occurred,
      by simpa [targets] using fanning.pathCounts, by simpa [targets] using fanning.succ,
      by simpa [targets] using fanning.queue⟩

end Fanning

def edgesOf (adj : Nat → List (WeightedEdge W)) (front : List Nat) : List (Nat × Nat) :=
  front.flatMap fun u => (targets (adj u)).map fun v => (u, v)

theorem drop_eq_flatMap {α : Type} (xs : List α) (start : Nat) :
    xs.drop start = (List.range' start (xs.length - start)).flatMap fun q => xs[q]?.toList := by
  generalize count : xs.length - start = k
  induction k generalizing start with
  | zero => rw [List.range'_zero, List.flatMap_nil, List.drop_of_length_le (by omega)]
  | succ k ih =>
      have inside : start < xs.length := by omega
      rw [List.range'_succ, List.flatMap_cons, ← ih (start + 1) (by omega), List.drop_eq_getElem_cons inside,
        List.getElem?_eq_getElem inside]
      rfl

theorem level_spec (answers : Answers ws A pages adj) {n : Nat} (within : A.ids.length ≤ n) (short : n ≤ 2 ^ 31)
    (loops : Loops) (t : Nat) {depth : NodeID} {f : Nat → NodeID} {c : Nat → ℚ} {S : Nat → Bool} {old : List Nat}
    {start : Nat} (levelled : Levelled n depth f old) {s : PathCounting W} (serves : Serves ws A pages s.g)
    (depths : s.depths.Stores n f) (occurred : ∃ o, s.occurred.Stores n o ∧ ∀ j < n, f j = NodeID.invalid → o j = false)
    (pathCounts : s.pathCounts.Stores n c) (succ : s.succ.Marks n S)
    (loaded : s.queue.Loaded n old start old.length) (empty : s.lqueue = []) :
    ∃ s', (loops.order t s.queue.window).foldlM (expandVertex depth) s = .ok s' ∧
      Fanning ws A pages n depth f c S old start (edgesOf adj (old.drop start)) s' := by
  have room : old.length ≤ n := by
    have inside : old ⊆ List.range n := fun j member => List.mem_range.mpr (levelled.visited j member).1
    simpa using (List.subperm_of_subset levelled.distinct inside).length_le
  have perm := loops.order_perm t s.queue.window
  have positions := loaded.window
  let item (q : Nat) : List (Nat × Nat) := edgesOf adj (old[q]?.toList)
  have step (done : List Nat) (q : Nat) (s₁ : PathCounting W) (earlier : done ++ [q] <+: loops.order t s.queue.window)
      (fanning : Fanning ws A pages n depth f c S old start (done.flatMap item) s₁) :
      ∃ s', expandVertex depth s₁ q = .ok s' ∧
        Fanning ws A pages n depth f c S old start ((done ++ [q]).flatMap item) s' := by
    have member := perm.subset (earlier.subset (by simp : q ∈ done ++ [q]))
    rw [positions, List.mem_range'_1] at member
    obtain ⟨u, here⟩ : ∃ u, old[q]? = some u := ⟨old[q], List.getElem?_eq_getElem (by omega)⟩
    obtain ⟨s', ran, fanning'⟩ := fanning.vertex answers within short levelled here
    refine ⟨s', ran, ?_⟩
    have last : item q = (targets (adj u)).map fun v => (u, v) := by simp [item, edgesOf, here]
    rw [List.flatMap_append, List.flatMap_singleton, last]
    exact fanning'
  have first : Fanning ws A pages n depth f c S old start (([] : List Nat).flatMap item) s := by
    refine ⟨serves, by simpa [hit] using depths, ?_, by simpa [gain] using pathCounts, by simpa [hit] using succ, [],
      List.nodup_nil, by simp [hit], ?_⟩
    · simpa [hit] using occurred
    · rw [empty, List.append_nil]
      exact Loading.begin loaded le_rfl room
  obtain ⟨s', looped, fanning⟩ := foldlM_invariant (loops.order t s.queue.window)
    (fun done s => Fanning ws A pages n depth f c S old start (done.flatMap item) s) step first
  refine ⟨s', looped, fanning.perm ((perm.flatMap_right item).trans (List.Perm.of_eq ?_))⟩
  rw [positions, edgesOf, drop_eq_flatMap old start, List.flatMap_assoc]
  rfl

/-! ## All levels -/

omit [DecidableEq W] in
theorem mem_edgesOf {front : List Nat} {u j : Nat} :
    (u, j) ∈ edgesOf adj front ↔ u ∈ front ∧ j ∈ targets (adj u) := by
  simp only [edgesOf, List.mem_flatMap, List.mem_map, Prod.mk.injEq]
  constructor
  · rintro ⟨u', member, j', edge, rfl, rfl⟩
    exact ⟨member, edge⟩
  · rintro ⟨member, edge⟩
    exact ⟨u, member, j, edge, rfl, rfl⟩

omit [DecidableEq W] in
theorem gain_edgesOf (distinct : ∀ i, (targets (adj i)).Nodup) (c : Nat → ℚ) (front : List Nat) (j : Nat) :
    gain c (edgesOf adj front) j = (front.map fun u => if j ∈ targets (adj u) then c u else 0).sum := by
  induction front with
  | nil => rfl
  | cons u front ih =>
      have own : (((targets (adj u)).map fun v => (u, v)).filter fun p => p.2 = j).map (fun p => c p.1) =
          List.replicate ((targets (adj u)).count j) (c u) := by
        rw [List.filter_map, List.map_map, List.count_eq_length_filter, List.eq_replicate_iff]
        constructor
        · rw [List.length_map]
          congr 1
        · intro b member
          obtain ⟨v, -, rfl⟩ := List.mem_map.mp member
          rfl
      have split : gain c (edgesOf adj (u :: front)) j =
          ((((targets (adj u)).map fun v => (u, v)).filter fun p => p.2 = j).map fun p => c p.1).sum +
            gain c (edgesOf adj front) j := by
        rw [gain, edgesOf, List.flatMap_cons, List.filter_append, List.map_append, List.sum_append]
        rfl
      rw [split, own, ih, List.map_cons, List.sum_cons, List.sum_replicate]
      congr 1
      split
      · rename_i member
        rw [List.count_eq_one_of_mem (distinct u) member, one_nsmul]
      · rename_i outside
        rw [List.count_eq_zero_of_not_mem outside, zero_nsmul]

variable (adj) in
def nexts (i : Nat) : Finset Nat := (targets (adj i)).toFinset

section Levels

open Geodesics

variable (adj) (source d : Nat)

def ReachedBy (j : Nat) : Prop := ∃ e ≤ d, At (nexts adj) source e j

open Classical in
noncomputable def depthsAt (j : Nat) : NodeID := if ReachedBy adj source d j then depth (nexts adj) source j else NodeID.invalid

open Classical in
noncomputable def countsAt (j : Nat) : ℚ := if ReachedBy adj source d j then (geodesics (nexts adj) source j).card else 0

open Classical in
noncomputable def succAt (j : Nat) : Bool := decide (j ≠ source ∧ ReachedBy adj source d j)

variable {adj source d}

omit [DecidableEq W] in
theorem reachedBy_succ {j : Nat} : ReachedBy adj source (d + 1) j ↔ ReachedBy adj source d j ∨ At (nexts adj) source (d + 1) j := by
  constructor
  · rintro ⟨e, le, here⟩
    rcases Nat.lt_or_ge d e with more | less
    · obtain rfl : e = d + 1 := by omega
      exact .inr here
    · exact .inl ⟨e, less, here⟩
  · rintro (⟨e, le, here⟩ | here)
    · exact ⟨e, by omega, here⟩
    · exact ⟨d + 1, le_rfl, here⟩

omit [DecidableEq W] in
theorem depthsAt_eq (small : d < NodeID.invalid) {j : Nat} :
    depthsAt adj source d j = NodeID.invalid ↔ ¬ ReachedBy adj source d j := by
  rw [depthsAt]
  split
  · rename_i reached
    obtain ⟨e, le, here⟩ := reached
    rw [here.depth]
    exact iff_of_false (le.trans_lt small).ne fun none => none ⟨e, le, here⟩
  · rename_i unreached
    exact iff_of_true rfl unreached

omit [DecidableEq W] in
theorem succAt_iff {j : Nat} : succAt adj source d j ↔ j ≠ source ∧ ReachedBy adj source d j := by
  simp [succAt]

omit [DecidableEq W] in
theorem countsAt_of_at {e : Nat} (le : e ≤ d) {j : Nat} (here : At (nexts adj) source e j) :
    countsAt adj source d j = count (nexts adj) e source j := by
  rw [countsAt, if_pos ⟨e, le, here⟩, here.card_geodesics]

end Levels

structure ByLevel (adj : Nat → List (WeightedEdge W)) (source : Nat) (L : List (List Nat)) : Prop where
  mem : ∀ i l, L[i]? = some l → ∀ j, j ∈ l ↔ Geodesics.At (nexts adj) source i j
  distinct : L.flatten.Nodup

structure Counted (ws : List Nat) (A : Ledger W) (pages : Nat → Page W) (adj : Nat → List (WeightedEdge W)) (n source : Nat)
    (d : Nat) (L : List (List Nat)) (s : PathCounting W) : Prop where
  serves : Serves ws A pages s.g
  depths : s.depths.Stores n (depthsAt adj source d)
  occurred : ∃ o, s.occurred.Stores n o ∧ ∀ j < n, depthsAt adj source d j = NodeID.invalid → o j = false
  pathCounts : s.pathCounts.Stores n (countsAt adj source d)
  succ : s.succ.Marks n (succAt adj source d)
  queue : s.queue.Loaded n L.flatten (L.take d).flatten.length L.flatten.length
  lqueue : s.lqueue = []
  length : L.length = d + 1
  levels : ByLevel adj source L
  inside : ∀ j ∈ L.flatten, j < n
  nonempty : ∀ i < d, L[i]? ≠ some []

namespace Counted

variable {n source d : Nat} {L : List (List Nat)} {s : PathCounting W}

theorem reached_iff (counted : Counted ws A pages adj n source d L s) (j : Nat) :
    j ∈ L.flatten ↔ ReachedBy adj source d j := by
  rw [List.mem_flatten]
  constructor
  · rintro ⟨l, member, here⟩
    obtain ⟨i, at_i⟩ := List.getElem?_of_mem member
    have less := (List.getElem?_eq_some_iff.mp at_i).1
    rw [counted.length] at less
    exact ⟨i, by omega, (counted.levels.mem i l at_i j).mp here⟩
  · rintro ⟨e, le, here⟩
    have less : e < L.length := by
      rw [counted.length]
      omega
    have at_e := List.getElem?_eq_getElem less
    exact ⟨L[e], List.getElem_mem less, (counted.levels.mem e _ at_e j).mpr here⟩

theorem front (counted : Counted ws A pages adj n source d L s) :
    ∃ l, L = L.take d ++ [l] ∧ L[d]? = some l ∧ L.flatten.drop (L.take d).flatten.length = l := by
  have less : d < L.length := by
    rw [counted.length]
    omega
  have split : L = L.take d ++ [L[d]] := by
    conv_lhs => rw [← List.take_append_drop d L, List.drop_eq_getElem_cons less,
      List.drop_of_length_le (by rw [counted.length])]
  refine ⟨L[d], split, List.getElem?_eq_getElem less, ?_⟩
  have joined : L.flatten = (L.take d).flatten ++ L[d] := by
    conv_lhs => rw [split, List.flatten_append, List.flatten_singleton]
  rw [joined, List.drop_left]

theorem few (counted : Counted ws A pages adj n source d L s) : d ≤ (L.take d).flatten.length ∧ L.flatten.length ≤ n := by
  constructor
  · have some : ∀ k ∈ (L.take d).map List.length, 1 ≤ k := by
      intro k member
      obtain ⟨l, inside, rfl⟩ := List.mem_map.mp member
      obtain ⟨i, at_i⟩ := List.getElem?_of_mem inside
      rw [List.getElem?_take] at at_i
      split at at_i
      · rename_i less
        rw [Nat.one_le_iff_ne_zero, ne_eq, List.length_eq_zero_iff]
        rintro rfl
        exact counted.nonempty i less at_i
      · cases at_i
    have total := List.length_le_sum_of_one_le _ some
    rw [List.length_map, List.length_take, counted.length] at total
    rw [List.length_flatten]
    omega
  · have within : L.flatten ⊆ List.range n := fun j member => List.mem_range.mpr (counted.inside j member)
    simpa using (List.subperm_of_subset counted.levels.distinct within).length_le

theorem hit_front (counted : Counted ws A pages adj n source d L s) {l : List Nat} (at_d : L[d]? = some l) {j : Nat}
    (new : ¬ ReachedBy adj source d j) : hit (edgesOf adj l) j ↔ Geodesics.At (nexts adj) source (d + 1) j := by
  rw [hit_iff, Geodesics.at_succ]
  constructor
  · rintro ⟨u, member⟩
    obtain ⟨here, edge⟩ := mem_edgesOf.mp member
    exact ⟨⟨u, (counted.levels.mem d l at_d u).mp here, List.mem_toFinset.mpr edge⟩, fun e le there => new ⟨e, le, there⟩⟩
  · rintro ⟨⟨u, here, edge⟩, -⟩
    exact ⟨u, mem_edgesOf.mpr ⟨(counted.levels.mem d l at_d u).mpr here, List.mem_toFinset.mp edge⟩⟩

theorem counts_next (counted : Counted ws A pages adj n source d L s) (distinct : ∀ i, (targets (adj i)).Nodup)
    {l : List Nat} (at_d : L[d]? = some l) {j : Nat} (new : ¬ ReachedBy adj source d j) :
    gain (countsAt adj source d) (edgesOf adj l) j = countsAt adj source (d + 1) j := by
  have member (u : Nat) : u ∈ l.toFinset ↔ Geodesics.At (nexts adj) source d u := by
    rw [List.mem_toFinset]
    exact counted.levels.mem d l at_d u
  have nodup : l.Nodup := (List.nodup_flatten.mp counted.levels.distinct).1 l (List.mem_of_getElem? at_d)
  rw [gain_edgesOf distinct, ← List.sum_toFinset _ nodup]
  by_cases here : Geodesics.At (nexts adj) source (d + 1) j
  · rw [countsAt_of_at le_rfl here, here.count_succ member]
    push_cast
    refine Finset.sum_congr rfl fun u inside => ?_
    rw [countsAt_of_at le_rfl ((member u).mp inside)]
    simp only [nexts, List.mem_toFinset]
  · have unreached : ¬ ReachedBy adj source (d + 1) j := fun reached => (reachedBy_succ.mp reached).elim new here
    rw [countsAt, if_neg unreached]
    refine Finset.sum_eq_zero fun u inside => ?_
    rw [if_neg]
    intro edge
    exact here ((counted.hit_front at_d new).mp (hit_iff.mpr ⟨u, mem_edgesOf.mpr ⟨List.mem_toFinset.mp inside, edge⟩⟩))

theorem step (answers : Answers ws A pages adj) (within : A.ids.length ≤ n) (short : n ≤ 2 ^ 31)
    (distinct : ∀ i, (targets (adj i)).Nodup) (loops : Loops) (t : Nat)
    (counted : Counted ws A pages adj n source d L s) (some' : L[d]? ≠ some []) :
    ∃ s' queue fresh, (loops.order t s.queue.window).foldlM (expandVertex (d + 1)) s = .ok s' ∧
      s'.lqueue.flush s'.queue = .ok queue ∧ queue.sharedOutStart = (L.take d).flatten.length ∧
      Counted ws A pages adj n source (d + 1) (L ++ [fresh]) { s' with queue := queue.slideWindow, lqueue := [] } := by
  obtain ⟨l, split, at_d, window⟩ := counted.front
  obtain ⟨enough, room⟩ := counted.few
  have joined : L.flatten.length = (L.take d).flatten.length + l.length := by
    conv_lhs => rw [split, List.flatten_append, List.flatten_singleton, List.length_append]
  have full : 0 < l.length := List.length_pos_iff.mpr fun empty => some' (by rw [at_d, empty])
  have few : n < NodeID.invalid := short.trans_lt (by decide)
  have small : d + 1 < NodeID.invalid := lt_of_le_of_lt (show d + 1 ≤ n by omega) few
  have smaller : d < NodeID.invalid := (Nat.lt_succ_self d).trans small
  have unset {j : Nat} : depthsAt adj source d j = NodeID.invalid ↔ ¬ ReachedBy adj source d j := depthsAt_eq smaller
  have levelled : Levelled n (d + 1) (depthsAt adj source d) L.flatten := by
    refine ⟨small.ne, fun j _ => ?_, counted.levels.distinct, fun j member => ⟨counted.inside j member, ?_⟩⟩
    · by_cases reached : ReachedBy adj source d j
      · rw [depthsAt, if_pos reached]
        obtain ⟨e, le, here⟩ := reached
        rw [here.depth]
        exact (Nat.lt_succ_of_le le).ne
      · rw [unset.mpr reached]
        exact small.ne'
    · rw [ne_eq, unset, not_not]
      exact (counted.reached_iff j).mp member
  obtain ⟨s', looped, fanning⟩ := level_spec answers within short loops t levelled counted.serves counted.depths
    counted.occurred counted.pathCounts counted.succ counted.queue counted.lqueue
  rw [window] at fanning
  obtain ⟨o, occurred, marks⟩ := fanning.occurred
  obtain ⟨fresh, nodup, members, loading⟩ := fanning.queue
  obtain ⟨queue, flushed, loaded⟩ := loading.flush
  have found {j : Nat} (new : ¬ ReachedBy adj source d j) := counted.hit_front at_d new
  have next_level (j : Nat) : j ∈ fresh ↔ Geodesics.At (nexts adj) source (d + 1) j := by
    rw [members, unset]
    constructor
    · rintro ⟨-, new, reached⟩
      exact (found new).mp reached
    · intro here
      have new : ¬ ReachedBy adj source d j := by
        rintro ⟨e, le, there⟩
        have := here.unique there
        omega
      have reached := (found new).mpr here
      obtain ⟨u, edge⟩ := hit_iff.mp reached
      obtain ⟨e, member, rfl⟩ := List.mem_map.mp (mem_edgesOf.mp edge).2
      obtain ⟨k, less, idx⟩ := answers.closed u e member
      exact ⟨by omega, new, reached⟩
  have deeper (j : Nat) : depthsAt adj source d j = NodeID.invalid ∧ hit (edgesOf adj l) j ↔
      Geodesics.At (nexts adj) source (d + 1) j := by
    constructor
    · rintro ⟨new, reached⟩
      exact (found (unset.mp new)).mp reached
    · intro here
      exact ((members j).mp ((next_level j).mpr here)).2
  have same {j : Nat} (shallow : ¬ Geodesics.At (nexts adj) source (d + 1) j) :
      ReachedBy adj source (d + 1) j ↔ ReachedBy adj source d j := by
    rw [reachedBy_succ, or_iff_left shallow]
  refine ⟨s', queue, fresh, looped, flushed, loaded.outStart, fanning.serves, ?_, ?_, ?_, ?_, ?_, rfl, ?_, ?_, ?_, ?_⟩
  · refine fanning.depths.congr fun j _ => ?_
    by_cases here : Geodesics.At (nexts adj) source (d + 1) j
    · rw [if_pos ((deeper j).mpr here), depthsAt, if_pos ⟨d + 1, le_rfl, here⟩, here.depth]
    · rw [if_neg fun new => here ((deeper j).mp new)]
      by_cases reached : ReachedBy adj source d j
      · rw [depthsAt, depthsAt, if_pos reached, if_pos ((same here).mpr reached)]
      · rw [depthsAt, depthsAt, if_neg reached, if_neg fun later => reached ((same here).mp later)]
  · refine ⟨o, occurred, fun j below none => ?_⟩
    rw [depthsAt_eq small, reachedBy_succ, not_or] at none
    rw [marks j below (unset.mpr none.1), Bool.eq_false_iff]
    intro reached
    exact none.2 ((found none.1).mp reached)
  · refine fanning.pathCounts.congr fun j _ => ?_
    by_cases reached : ReachedBy adj source d j
    · rw [if_neg fun none => unset.mp none reached, add_zero, countsAt, countsAt, if_pos reached,
        if_pos (reachedBy_succ.mpr (.inl reached))]
    · rw [if_pos (unset.mpr reached), counted.counts_next distinct at_d reached, countsAt, if_neg reached, zero_add]
  · refine fanning.succ.congr fun j _ => ?_
    rw [Bool.eq_iff_iff, Bool.or_eq_true, Bool.and_eq_true, decide_eq_true_iff, deeper, succAt_iff, succAt_iff,
      reachedBy_succ]
    have other (here : Geodesics.At (nexts adj) source (d + 1) j) : j ≠ source := by
      rintro rfl
      have := here.unique Geodesics.At.source
      omega
    tauto
  · have whole := loaded.slideWindow
    rw [List.take_left' counted.length, List.flatten_append, List.flatten_singleton]
    exact whole
  · rw [List.length_append, List.length_singleton, counted.length]
  · constructor
    · intro i l' at_i j
      rw [List.getElem?_append] at at_i
      split at at_i
      · exact counted.levels.mem i l' at_i j
      · rename_i beyond
        obtain ⟨less, rfl⟩ := List.getElem?_eq_some_iff.mp at_i
        rw [List.length_singleton, counted.length] at less
        rw [counted.length] at beyond
        obtain rfl : i = d + 1 := by omega
        simpa [counted.length] using next_level j
    · rw [List.flatten_append, List.flatten_singleton]
      exact List.nodup_append.mpr ⟨counted.levels.distinct, nodup, fun a old b new equal =>
        unset.mp ((members b).mp new).2.1 ((counted.reached_iff b).mp (equal ▸ old))⟩
  · intro j member
    rw [List.flatten_append, List.flatten_singleton] at member
    rcases List.mem_append.mp member with old | new
    · exact counted.inside j old
    · exact ((members j).mp new).1
  · intro i less
    rw [List.getElem?_append_left (by rw [counted.length]; exact less)]
    rcases Nat.lt_or_ge i d with before | now
    · exact counted.nonempty i before
    · obtain rfl : i = d := by omega
      exact some'

theorem start (serves : Serves ws A pages s.g) (inside : source < n) {depths : PVector NodeID}
    (depths_spec : depths.Stores n (Function.update (fun _ => NodeID.invalid) source 0))
    {occurred : PVector Bool} (occurred_spec : occurred.Stores n fun _ => false) {pathCounts : PVector ℚ}
    (pathCounts_spec : pathCounts.Stores n (Function.update (fun _ => 0) source 1)) {succ : Bitmap}
    (succ_spec : succ.Marks n fun _ => false) {queue : SlidingQueue} (loaded : queue.Loaded n [source] 0 1) :
    Counted ws A pages adj n source 0 [[source]]
      { g := s.g, depths, occurred, pathCounts, succ, queue, lqueue := [] } := by
  have reached (j : Nat) : ReachedBy adj source 0 j ↔ j = source := by
    constructor
    · rintro ⟨e, le, here⟩
      obtain rfl := Nat.le_zero.mp le
      exact Geodesics.at_zero.mp here
    · rintro rfl
      exact ⟨0, le_rfl, Geodesics.At.source⟩
  refine ⟨serves, depths_spec.congr fun j _ => ?_, ⟨_, occurred_spec, fun _ _ _ => rfl⟩,
    pathCounts_spec.congr fun j _ => ?_, succ_spec.congr fun j _ => ?_, loaded, rfl, rfl, ⟨fun i l at_i j => ?_, by simp⟩,
    fun j member => ?_, fun i less => absurd less (Nat.not_lt_zero i)⟩
  · by_cases same : j = source
    · subst same
      rw [Function.update_self, depthsAt, if_pos ((reached j).mpr rfl), Geodesics.At.source.depth]
    · rw [Function.update_of_ne same, depthsAt, if_neg fun here => same ((reached j).mp here)]
  · by_cases same : j = source
    · subst same
      rw [Function.update_self, countsAt_of_at le_rfl Geodesics.At.source, Geodesics.count_zero, if_pos rfl, Nat.cast_one]
    · rw [Function.update_of_ne same, countsAt, if_neg fun here => same ((reached j).mp here)]
  · symm
    rw [Bool.eq_false_iff, ne_eq, succAt_iff, reached]
    exact fun both => both.1 both.2
  · obtain ⟨less, rfl⟩ := List.getElem?_eq_some_iff.mp at_i
    obtain rfl : i = 0 := by simpa using less
    simp [Geodesics.at_zero]
  · obtain rfl : j = source := by simpa using member
    exact inside

theorem complete (counted : Counted ws A pages adj n source d L s) (none : L[d]? = some []) (j : Nat) :
    ReachedBy adj source d j ↔ ∃ e, Geodesics.At (nexts adj) source e j := by
  have beyond (k : Nat) (i : Nat) : ¬ Geodesics.At (nexts adj) source (d + k) i := by
    induction k generalizing i with
    | zero =>
        intro here
        have member := (counted.levels.mem d [] none i).mpr here
        cases member
    | succ k ih =>
        intro here
        obtain ⟨⟨u, there, -⟩, -⟩ := Geodesics.at_succ.mp here
        exact ih u there
  constructor
  · rintro ⟨e, -, here⟩
    exact ⟨e, here⟩
  · rintro ⟨e, here⟩
    refine ⟨e, ?_, here⟩
    by_contra more
    obtain ⟨k, rfl⟩ := Nat.exists_eq_add_of_le (Nat.not_le.mp more).le
    exact beyond k j here

end Counted

def offset (L : List (List Nat)) (i : Nat) : Nat := (L.take i).flatten.length

theorem offset_succ {L : List (List Nat)} {i : Nat} (less : i < L.length) :
    offset L (i + 1) = offset L i + L[i].length := by
  rw [offset, offset, List.take_succ_eq_append_getElem less, List.flatten_append, List.flatten_singleton,
    List.length_append]

theorem getElem?_offset {L : List (List Nat)} {i : Nat} (less : i < L.length) {k : Nat} (small : k < L[i].length) :
    L.flatten[offset L i + k]? = some L[i][k] := by
  have parts : L.flatten = (L.take i).flatten ++ (L[i] ++ (L.drop (i + 1)).flatten) := by
    conv_lhs => rw [← List.take_append_drop i L, List.drop_eq_getElem_cons less, List.flatten_append, List.flatten_cons]
  rw [parts, offset, List.getElem?_append_right (Nat.le_add_right _ _), Nat.add_sub_cancel_left,
    List.getElem?_append_left small, List.getElem?_eq_getElem small]

theorem levels_spec (answers : Answers ws A pages adj) {n : Nat} (within : A.ids.length ≤ n) (short : n ≤ 2 ^ 31)
    (distinct : ∀ i, (targets (adj i)).Nodup) (loops : Loops) {source d : Nat} {L : List (List Nat)}
    {s : PathCounting W} (counted : Counted ws A pages adj n source d L s) (fuel t : Nat) (enough : n < fuel + d) :
    ∃ t' d' L' s', levels loops fuel t d (0 :: (List.range d).map (offset L)) s =
        .ok (t', 0 :: (List.range d').map (offset L'), s') ∧
      Counted ws A pages adj n source d' L' s' ∧ L'[d']? = some [] := by
  induction fuel generalizing t d L s with
  | zero =>
      obtain ⟨less, room⟩ := counted.few
      obtain ⟨l, split, -⟩ := counted.front
      have longer : (L.take d).flatten.length ≤ L.flatten.length := by
        conv_rhs => rw [split, List.flatten_append, List.length_append]
        exact Nat.le_add_right _ _
      omega
  | succ fuel ih =>
      obtain ⟨l, split, at_d, -⟩ := counted.front
      have joined : L.flatten.length = (L.take d).flatten.length + l.length := by
        conv_lhs => rw [split, List.flatten_append, List.flatten_singleton, List.length_append]
      rw [levels]
      by_cases empty : l = []
      · subst empty
        have stopped : s.queue.empty := counted.queue.empty_iff.mpr (by rw [joined, List.length_nil, Nat.add_zero])
        exact ⟨t, d, L, s, if_pos stopped, counted, at_d⟩
      · have goes : ¬ s.queue.empty := by
          rw [counted.queue.empty_iff, joined]
          have := List.length_pos_iff.mpr empty
          omega
        obtain ⟨s₁, queue, fresh, looped, flushed, first, counted'⟩ := counted.step answers within short distinct loops t
          (by rw [at_d]; simpa using empty)
        rw [if_neg goes, looped, ok_bind, flushed, ok_bind, first]
        have recorded : 0 :: (List.range d).map (offset L) ++ [(L.take d).flatten.length] =
            0 :: (List.range (d + 1)).map (offset (L ++ [fresh])) := by
          rw [List.cons_append, List.range_succ, List.map_append, List.map_singleton]
          congr 2
          · refine List.map_congr_left fun i less => ?_
            have less := List.mem_range.mp less
            rw [offset, offset, List.take_append_of_le_length (by rw [counted.length]; omega)]
          · rw [offset, List.take_append_of_le_length (by rw [counted.length]; omega)]
        rw [recorded]
        exact ih counted' (t + 1) (by omega)

theorem pbfs_spec (answers : Answers ws A pages adj) {n : Nat} (within : A.ids.length ≤ n) (short : n ≤ 2 ^ 31)
    (distinct : ∀ i, (targets (adj i)).Nodup) (loops : Loops) {source : Nat} (inside : source < n) {fuel : Nat}
    (enough : n < fuel) (t : Nat) {g : RadixGraph W} (serves : Serves ws A pages g) {pathCounts : PVector ℚ}
    (zero : pathCounts.Stores n fun _ => 0) {succ : Bitmap} (unset : succ.Marks n fun _ => false)
    {queue : SlidingQueue} (loaded : queue.Loaded n [] 0 0) :
    ∃ t' d L s, pbfs loops fuel t g source pathCounts succ queue n =
        .ok (t', 0 :: (List.range (d + 1)).map (offset L), s) ∧
      Counted ws A pages adj n source d L s ∧ L[d]? = some [] := by
  obtain ⟨depths, stored, depths_spec⟩ := (PVector.filled_stores n NodeID.invalid).set inside 0
  obtain ⟨pathCounts', stored', pathCounts_spec⟩ := zero.set inside 1
  obtain ⟨queue', pushed, loaded'⟩ := loaded.pushBack (show ([] : List Nat).length < n by
    rw [List.length_nil]
    omega) source
  let s₀ : PathCounting W := { g, depths, occurred := .filled n false, pathCounts := pathCounts', succ, queue := queue'.slideWindow, lqueue := [] }
  have start : Counted ws A pages adj n source 0 [[source]] s₀ :=
    Counted.start (s := s₀) serves inside depths_spec (PVector.filled_stores n false) pathCounts_spec unset loaded'.slideWindow
  obtain ⟨t', d, L, s, explored, counted, none⟩ := levels_spec answers within short distinct loops start fuel t (by omega)
  refine ⟨t', d, L, s, ?_, counted, none⟩
  have first : queue'.sharedOutStart = 0 := loaded'.outStart
  rw [pbfs, stored, ok_bind, stored', ok_bind, pushed, ok_bind, first]
  simp only [List.range_zero, List.map_nil] at explored
  rw [explored, ok_bind]
  dsimp only
  rw [counted.queue.outStart, List.range_succ, List.map_append, List.map_singleton]
  rfl

end Radix.Analytics
