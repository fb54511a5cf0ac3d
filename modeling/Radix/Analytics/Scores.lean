import Mathlib.Algebra.BigOperators.Group.Finset.Basic
import Mathlib.Data.List.Perm.Subperm
import Radix.Lib.Ranks
import Radix.Analytics.PageRank
import Radix.Analytics.Connectivity

/-!
# What the scores are

A score is divided by `snapshot_deg`, stored under an external id and read under an internal one. The scores
are those of the recurrence if that gives every vertex what the edges give it.
-/

namespace Radix.Analytics

open Lib RadixGraph

variable {W : Type} [Zero W]

instance (inserted : List (NodeID × NodeID × W)) : DecidableRel (ExternalEdge inserted) := fun a b =>
  decidable_of_iff (∃ edge ∈ inserted, edge.1 = a ∧ edge.2.1 = b) (by
    constructor
    · rintro ⟨⟨_, _, w⟩, member, rfl, rfl⟩
      exact ⟨w, member⟩
    · rintro ⟨w, member⟩
      exact ⟨_, member, rfl, rfl⟩)

def snapshotDegree (g : RadixGraph W) (n : NodeID) : Nat :=
  match g.lookup n with
  | .ok (some u, _) => (g.snapshotDegOf u).toOption.getD 0
  | _ => 0

/-- What the two loops give to a vertex: for each neighbour the share that is stored under its internal id, and
a share of the scores of the vertices whose `snapshot_deg` is 0. -/
def pulled (numNodes : Nat) (order : List NodeID) (Edge : NodeID → NodeID → Prop) [DecidableRel Edge]
    (deg : NodeID → Nat)
    (score : NodeID → ℚ) (n : NodeID) : ℚ :=
  ∑ v ∈ (Finset.range numNodes).filter (Edge n), score (order.idxOf v) / deg (order.idxOf v) +
    (∑ u ∈ (Finset.range numNodes).filter fun u => deg u = 0, score u) / numNodes

def pullStep (numNodes : Nat) (order : List NodeID) (Edge : NodeID → NodeID → Prop) [DecidableRel Edge]
    (deg : NodeID → Nat) (score : NodeID → ℚ) (n : NodeID) : ℚ :=
  (1 - kDamp) / numNodes + kDamp * pulled numNodes order Edge deg score n

variable [DecidableEq W] {ws : List Nat} {A : Ledger W} {pages : Nat → Page W}

structure Numbered (ws : List Nat) (A : Ledger W) (pages : Nat → Page W) (numNodes : Nat)
    (inserted : List (NodeID × NodeID × W))
    (deg : NodeID → Nat) : Prop where
  ids : A.ids.Perm (List.range numNodes)
  place : ∀ n < numNodes, SORT.position ws.sum A.ids n = some (A.ids.idxOf n)
  deg : ∀ n < numNodes, (pages (A.ids.idxOf n)).snap.length = deg n
  neighbours : ∀ n < numNodes, Neighbours A.ids inserted (A.ids.idxOf n) (pages (A.ids.idxOf n)).present
  simple : (inserted.map fun edge => (edge.1, edge.2.1)).Nodup

namespace Numbered

variable {numNodes : Nat} {inserted : List (NodeID × NodeID × W)} {deg : NodeID → Nat}

theorem distinct (numbered : Numbered ws A pages numNodes inserted deg) : A.ids.Nodup :=
  numbered.ids.nodup_iff.mpr List.nodup_range

theorem length (numbered : Numbered ws A pages numNodes inserted deg) : A.ids.length = numNodes := by
  rw [numbered.ids.length_eq, List.length_range]

theorem idxOf_lt (numbered : Numbered ws A pages numNodes inserted deg) {n : NodeID} (inside : n < numNodes) :
    A.ids.idxOf n < A.ids.length :=
  List.idxOf_lt_length_iff.mpr (numbered.ids.symm.subset (List.mem_range.mpr inside))

theorem sum_present (numbered : Numbered ws A pages numNodes inserted deg) {n : NodeID} (inside : n < numNodes)
    (f : Nat → ℚ) :
    ((pages (A.ids.idxOf n)).present.map fun e => f e.idx.toNat).sum =
      ∑ v ∈ (Finset.range numNodes).filter (ExternalEdge inserted n), f (A.ids.idxOf v) := by
  have distinct := numbered.distinct
  have here : A.ids[A.ids.idxOf n]? = some n :=
    List.getElem?_idxOf (List.idxOf_lt_length_iff.mp (numbered.idxOf_lt inside))
  obtain ⟨sound, complete, once⟩ := numbered.neighbours n inside
  have indices : ((pages (A.ids.idxOf n)).present.map fun e => e.idx.toNat).toFinset =
      ((Finset.range numNodes).filter (ExternalEdge inserted n)).image A.ids.idxOf := by
    ext i
    simp only [List.mem_toFinset, List.mem_map, Finset.mem_image, Finset.mem_filter, Finset.mem_range]
    constructor
    · rintro ⟨e, member, rfl⟩
      obtain ⟨u, v, l, source, target, idx, edge⟩ := sound e member
      obtain rfl := Option.some.inj (here.symm.trans source)
      obtain ⟨below, rfl⟩ := List.getElem?_eq_some_iff.mp target
      refine ⟨A.ids[l], ⟨List.mem_range.mp (numbered.ids.subset (List.getElem_mem below)), e.weight, edge⟩, ?_⟩
      rw [idx, Int.toNat_natCast, distinct.idxOf_getElem]
    · rintro ⟨v, ⟨below, w, edge⟩, rfl⟩
      obtain ⟨l, target, e, member, idx⟩ := complete n v w edge here
      obtain ⟨inside', rfl⟩ := List.getElem?_eq_some_iff.mp target
      exact ⟨e, member, by rw [idx, Int.toNat_natCast, distinct.idxOf_getElem]⟩
  have nodup : ((pages (A.ids.idxOf n)).present.map fun e => e.idx.toNat).Nodup := by
    have natural (x : Int) (member : x ∈ (pages (A.ids.idxOf n)).present.map WeightedEdge.idx) :
        x = (x.toNat : Int) := by
      obtain ⟨e, listed, rfl⟩ := List.mem_map.mp member
      obtain ⟨_, _, l, _, _, idx, _⟩ := sound e listed
      rw [idx, Int.toNat_natCast]
    have apart := List.Nodup.map_on (f := Int.toNat) (fun x member y member' same => by
      rw [natural x member, natural y member', same]) (once numbered.simple)
    rwa [List.map_map] at apart
  have injective : Set.InjOn A.ids.idxOf ((Finset.range numNodes).filter (ExternalEdge inserted n)) := by
    intro u member v member' same
    have known (x : NodeID) (member : x ∈ (Finset.range numNodes).filter (ExternalEdge inserted n)) : x ∈ A.ids :=
      numbered.ids.symm.subset (List.mem_range.mpr (Finset.mem_range.mp (Finset.mem_filter.mp member).1))
    exact (List.idxOf_inj (known u member)).mp same
  calc ((pages (A.ids.idxOf n)).present.map fun e => f e.idx.toNat).sum
      = (((pages (A.ids.idxOf n)).present.map fun e => e.idx.toNat).map f).sum := by
        rw [List.map_map]
        rfl
    _ = ∑ i ∈ ((Finset.range numNodes).filter (ExternalEdge inserted n)).image A.ids.idxOf, f i := by
        rw [← List.sum_toFinset f nodup, indices]
    _ = ∑ v ∈ (Finset.range numNodes).filter (ExternalEdge inserted n), f (A.ids.idxOf v) := Finset.sum_image injective

end Numbered

/-! ## One iteration -/

def Idle (deg : NodeID → Nat) (contrib : NodeID → ℚ) : Prop := ∀ n, deg n = 0 → contrib n = 0

variable {numNodes : Nat} {inserted : List (NodeID × NodeID × W)} {deg : NodeID → Nat}

theorem contributeLoop (numbered : Numbered ws A pages numNodes inserted deg) (loops : Loops) {s : Ranking W}
    (serves : Serves ws A pages s.g) {score contrib : NodeID → ℚ} (scores : s.scores.Stores numNodes score)
    (contribs : s.outgoingContrib.Stores numNodes contrib) (idle : Idle deg contrib) :
    ∃ s', (loops.order s.loopCount (List.range numNodes)).foldlM contribute (s, 0) =
        .ok (s', ∑ u ∈ (Finset.range numNodes).filter fun u => deg u = 0, score u) ∧
      Serves ws A pages s'.g ∧ s'.scores = s.scores ∧ s'.loopCount = s.loopCount ∧
      s'.outgoingContrib.Stores numNodes fun n => score n / deg n := by
  have perm := loops.order_perm s.loopCount (List.range numNodes)
  have distinct : (loops.order s.loopCount (List.range numNodes)).Nodup := perm.nodup_iff.mpr List.nodup_range
  let holds (done : List Nat) (t : Ranking W × ℚ) : Prop :=
    Serves ws A pages t.1.g ∧ t.1.scores = s.scores ∧ t.1.loopCount = s.loopCount ∧
      (t.1.outgoingContrib.Stores numNodes fun n => if n ∈ done then score n / deg n else contrib n) ∧
      t.2 = (done.map fun u => if deg u = 0 then score u else 0).sum
  have step (done : List Nat) (n : Nat) (t : Ranking W × ℚ)
      (earlier : done ++ [n] <+: loops.order s.loopCount (List.range numNodes)) (before : holds done t) :
      ∃ t', contribute t n = .ok t' ∧ holds (done ++ [n]) t' := by
    obtain ⟨serves, kept, count, stores, sum⟩ := before
    have inside : n < numNodes := List.mem_range.mp (perm.subset (earlier.subset (by simp)))
    obtain ⟨g, looked, serves'⟩ := serves.lookup n
    rw [numbered.place n inside] at looked
    have degree := serves'.snapshotDegOf (numbered.idxOf_lt inside)
    rw [numbered.deg n inside] at degree
    rw [contribute, looked, ok_bind]
    dsimp only
    rw [degree, ok_bind, kept, scores.get inside, ok_bind]
    by_cases none : deg n = 0
    · rw [if_pos none]
      refine ⟨_, rfl, serves', rfl, count, stores.congr fun j _ => ?_, by simp [sum, none]⟩
      by_cases same : j = n
      · subst same
        simp [none, idle j none]
      · simp [same]
    · obtain ⟨contrib', stored, stores'⟩ := stores.set inside (score n / deg n)
      rw [if_neg none, stored, ok_bind]
      refine ⟨_, rfl, serves', rfl, count, stores'.congr fun j _ => ?_, by simp [sum, none]⟩
      by_cases same : j = n
      · subst same
        simp
      · simp [same]
  obtain ⟨⟨s', sum⟩, looped, serves', kept, count, stores, total⟩ := foldlM_invariant _ holds step (s := (s, 0))
    ⟨serves, rfl, rfl, by simpa using contribs, rfl⟩
  have range : (List.range numNodes).toFinset = Finset.range numNodes := by
    ext i
    simp
  have dangling : sum = ∑ u ∈ (Finset.range numNodes).filter fun u => deg u = 0, score u := by
    dsimp only at total
    rw [total, (perm.map _).sum_eq, ← List.sum_toFinset _ List.nodup_range, range, Finset.sum_filter]
  exact ⟨s', dangling ▸ looped, serves', kept, count, stores.congr fun n inside =>
    if_pos (perm.symm.subset (List.mem_range.mpr inside))⟩

omit [DecidableEq W] in
theorem receive_sum {contribs : PVector ℚ} {share : Nat → ℚ} (shares : contribs.Stores numNodes share)
    (l : List (WeightedEdge W)) (closed : ∀ e ∈ l, ∃ j < numNodes, e.idx = (j : Int)) (total : ℚ) :
    l.foldlM (receive contribs) total = .ok (total + (l.map fun e => share e.idx.toNat).sum) := by
  induction l generalizing total with
  | nil => simp [pure, Except.pure]
  | cons e rest ih =>
      obtain ⟨j, inside, idx⟩ := closed e (by simp)
      have received : receive contribs total e = .ok (total + share j) := by
        rw [receive, idx, index_natCast, ok_bind, shares.get inside, ok_bind]
      rw [List.foldlM_cons, received, ok_bind, ih fun e' member => closed e' (by simp [member])]
      rw [List.map_cons, List.sum_cons, idx, Int.toNat_natCast, add_assoc]

theorem gatherLoop (numbered : Numbered ws A pages numNodes inserted deg) (loops : Loops) (baseScore danglingSum : ℚ)
    {s : Ranking W} (serves : Serves ws A pages s.g) {score share : NodeID → ℚ} (scores : s.scores.Stores numNodes score)
    (shares : s.outgoingContrib.Stores numNodes share) :
    ∃ s', (loops.order (s.loopCount + 1) (List.range numNodes)).foldlM (gather baseScore danglingSum) s = .ok s' ∧
      Serves ws A pages s'.g ∧ s'.outgoingContrib = s.outgoingContrib ∧ s'.loopCount = s.loopCount ∧
      s'.scores.Stores numNodes fun n => baseScore + kDamp *
        (∑ v ∈ (Finset.range numNodes).filter (ExternalEdge inserted n), share (A.ids.idxOf v) + danglingSum) := by
  have perm := loops.order_perm (s.loopCount + 1) (List.range numNodes)
  let next (n : NodeID) : ℚ := baseScore + kDamp *
    (∑ v ∈ (Finset.range numNodes).filter (ExternalEdge inserted n), share (A.ids.idxOf v) + danglingSum)
  let holds (done : List Nat) (t : Ranking W) : Prop :=
    Serves ws A pages t.g ∧ t.outgoingContrib = s.outgoingContrib ∧ t.loopCount = s.loopCount ∧
      t.scores.Stores numNodes fun n => if n ∈ done then next n else score n
  have step (done : List Nat) (n : Nat) (t : Ranking W)
      (earlier : done ++ [n] <+: loops.order (s.loopCount + 1) (List.range numNodes)) (before : holds done t) :
      ∃ t', gather baseScore danglingSum t n = .ok t' ∧ holds (done ++ [n]) t' := by
    obtain ⟨serves, kept, count, stores⟩ := before
    have inside : n < numNodes := List.mem_range.mp (perm.subset (earlier.subset (by simp)))
    obtain ⟨g, looked, serves'⟩ := serves.lookup n
    rw [numbered.place n inside] at looked
    obtain ⟨g', read, serves''⟩ := serves'.neighboursOf (numbered.idxOf_lt inside)
    have received : (pages (A.ids.idxOf n)).present.foldlM (receive s.outgoingContrib) 0 =
        .ok (∑ v ∈ (Finset.range numNodes).filter (ExternalEdge inserted n), share (A.ids.idxOf v)) := by
      have closed (e : WeightedEdge W) (member : e ∈ (pages (A.ids.idxOf n)).present) :
          ∃ j < numNodes, e.idx = (j : Int) := by
        obtain ⟨_, _, l, _, there, idx, _⟩ := (numbered.neighbours n inside).sound e member
        exact ⟨l, numbered.length ▸ (List.getElem?_eq_some_iff.mp there).1, idx⟩
      rw [receive_sum shares _ closed, numbered.sum_present inside, zero_add]
    obtain ⟨scores', stored, stores'⟩ := stores.set inside (next n)
    rw [gather, looked, ok_bind]
    dsimp only
    rw [read, ok_bind]
    dsimp only
    rw [kept, received, ok_bind, stored, ok_bind]
    refine ⟨_, rfl, serves'', rfl, count, stores'.congr fun j _ => ?_⟩
    by_cases same : j = n
    · subst same
      simp
    · simp [same]
  obtain ⟨s', looped, serves', kept, count, stores⟩ := foldlM_invariant _ holds step
    ⟨serves, rfl, rfl, by simpa using scores⟩
  exact ⟨s', looped, serves', kept, count, stores.congr fun n inside =>
    if_pos (perm.symm.subset (List.mem_range.mpr inside))⟩

theorem iterate_spec (numbered : Numbered ws A pages numNodes inserted deg) (loops : Loops) {s : Ranking W}
    (serves : Serves ws A pages s.g) {score contrib : NodeID → ℚ} (scores : s.scores.Stores numNodes score)
    (contribs : s.outgoingContrib.Stores numNodes contrib) (idle : Idle deg contrib) :
    ∃ s' contrib', s.iterate loops numNodes = .ok s' ∧ Serves ws A pages s'.g ∧
      s'.scores.Stores numNodes (pullStep numNodes A.ids (ExternalEdge inserted) deg score) ∧
      s'.outgoingContrib.Stores numNodes contrib' ∧ Idle deg contrib' := by
  obtain ⟨t, contributed, serves', kept, count, shares⟩ := contributeLoop numbered loops serves scores contribs idle
  obtain ⟨s', gathered, serves'', kept', -, scores'⟩ := gatherLoop numbered loops ((1 - kDamp) / numNodes)
    ((∑ u ∈ (Finset.range numNodes).filter fun u => deg u = 0, score u) / numNodes) serves' (kept ▸ scores) shares
  refine ⟨{ s' with loopCount := s'.loopCount + 2 }, _, ?_, serves'', scores', kept' ▸ shares, fun n none => ?_⟩
  · rw [Ranking.iterate, contributed, ok_bind]
    dsimp only
    rw [gathered, ok_bind]
  · simp [none]

theorem pageRankPull_spec (numbered : Numbered ws A pages numNodes inserted deg) (loops : Loops) {g : RadixGraph W}
    (serves : Serves ws A pages g) (k : Nat) :
    ∃ s, pageRankPull loops g k numNodes = .ok s ∧
      s.scores.Stores numNodes ((pullStep numNodes A.ids (ExternalEdge inserted) deg)^[k] fun _ => 1 / numNodes) := by
  let holds (i : Nat) (s : Ranking W) : Prop := Serves ws A pages s.g ∧
    s.scores.Stores numNodes ((pullStep numNodes A.ids (ExternalEdge inserted) deg)^[i] fun _ => 1 / numNodes) ∧
    ∃ contrib, s.outgoingContrib.Stores numNodes contrib ∧ Idle deg contrib
  have step (i : Nat) (_ : i < k) (s : Ranking W) (before : holds i s) :
      ∃ s', s.iterate loops numNodes = .ok s' ∧ holds (i + 1) s' := by
    obtain ⟨serves, scores, contrib, contribs, idle⟩ := before
    obtain ⟨s', contrib', ran, serves', scores', rest⟩ := iterate_spec numbered loops serves scores contribs idle
    refine ⟨s', ran, serves', ?_, contrib', rest⟩
    rwa [Function.iterate_succ_apply']
  have run : ∃ s, pageRankPull loops g k numNodes = .ok s ∧ holds k s := by
    apply foldlM_range k holds step
    exact ⟨serves, PVector.filled_stores _ _, _, PVector.filled_stores _ _, fun _ _ => rfl⟩
  obtain ⟨s, ran, -, scores, -⟩ := run
  exact ⟨s, ran, scores⟩

/-! ## The scores as a whole -/

def Ranked (numNodes : Nat) (score : NodeID → ℚ) (scores : PVector ℚ) : Prop :=
  (∀ n < numNodes, scores.get n = .ok (score n)) ∧ ∑ n ∈ Finset.range numNodes, score n = 1

theorem numbered_of_built {order : List NodeID} {g : RadixGraph W} (built : BuiltBy ws order inserted g A)
    (present : order.Perm (List.range numNodes)) (simple : (inserted.map fun edge => (edge.1, edge.2.1)).Nodup) :
    ∃ pages, Serves ws A pages g ∧ Numbered ws A pages numNodes inserted (snapshotDegree g) := by
  have inRange := built.inRange
  obtain ⟨pages, serves, lists⟩ := built.serves
  obtain rfl := built.ids
  have member {n : NodeID} (inside : n < numNodes) : n ∈ A.ids := present.symm.subset (List.mem_range.mpr inside)
  have place (n : NodeID) (inside : n < numNodes) : SORT.position ws.sum A.ids n = some (A.ids.idxOf n) := by
    obtain ⟨k, found, here⟩ := inRange.position_of_mem (member inside)
    obtain ⟨below, rfl⟩ := List.getElem?_eq_some_iff.mp here
    rwa [inRange.distinct.idxOf_getElem]
  refine ⟨pages, serves, present, place, fun n inside => ?_, fun n inside => ?_, simple⟩
  · obtain ⟨g', looked, -⟩ := serves.lookup n
    rw [place n inside] at looked
    rw [snapshotDegree, looked]
    dsimp only
    rw [serves.snapshotDegOf (List.idxOf_lt_length_iff.mpr (member inside))]
    rfl
  · exact (lists _ (List.idxOf_lt_length_iff.mpr (member inside))).neighbours

theorem pulled_congr {order : List NodeID} {Edge : NodeID → NodeID → Prop} [DecidableRel Edge]
    (known : ∀ n < numNodes, order.idxOf n < numNodes) {x y : NodeID → ℚ} (same : Set.EqOn x y (Finset.range numNodes)) :
    pullStep numNodes order Edge deg x = pullStep numNodes order Edge deg y := by
  funext n
  have shared : ∑ v ∈ (Finset.range numNodes).filter (Edge n), x (order.idxOf v) / deg (order.idxOf v) =
      ∑ v ∈ (Finset.range numNodes).filter (Edge n), y (order.idxOf v) / deg (order.idxOf v) := by
    apply Finset.sum_congr rfl
    intro v member
    rw [same (Finset.mem_coe.mpr (Finset.mem_range.mpr (known v (Finset.mem_range.mp (Finset.mem_filter.mp member).1))))]
  have dangling : ∑ u ∈ (Finset.range numNodes).filter (fun u => deg u = 0), x u =
      ∑ u ∈ (Finset.range numNodes).filter fun u => deg u = 0, y u := by
    apply Finset.sum_congr rfl
    intro u member
    exact same (Finset.mem_coe.mpr (Finset.mem_filter.mp member).1)
  rw [pullStep, pullStep, pulled, pulled, shared, dangling]

def NumbersAlike (numNodes : Nat) (order : List NodeID) (Edge : NodeID → NodeID → Prop) : Prop :=
  ∀ u < numNodes, ∀ v < numNodes, (Edge (order.idxOf u) (order.idxOf v) ↔ Edge u v)

theorem NumbersAlike.symmetry {order : List NodeID} {Edge : NodeID → NodeID → Prop}
    (alike : NumbersAlike numNodes order Edge) (present : order.Perm (List.range numNodes)) :
    Ranks.Symmetry (Finset.range numNodes) Edge order.idxOf := by
  have known {n : NodeID} (inside : n < numNodes) : n ∈ order := present.symm.subset (List.mem_range.mpr inside)
  have length : order.length = numNodes := by rw [present.length_eq, List.length_range]
  refine ⟨⟨fun n inside => ?_, fun u insideU v _ same => ?_, fun i inside => ?_⟩, fun u insideU v insideV =>
    alike u (Finset.mem_range.mp insideU) v (Finset.mem_range.mp insideV)⟩
  · have below := List.idxOf_lt_length_iff.mpr (known (Finset.mem_range.mp (Finset.mem_coe.mp inside)))
    exact Finset.mem_coe.mpr (Finset.mem_range.mpr (length ▸ below))
  · exact (List.idxOf_inj (known (Finset.mem_range.mp (Finset.mem_coe.mp insideU)))).mp same
  · have below : i < order.length := length.symm ▸ Finset.mem_range.mp (Finset.mem_coe.mp inside)
    have distinct : order.Nodup := present.nodup_iff.mpr List.nodup_range
    exact ⟨order[i], Finset.mem_coe.mpr (Finset.mem_range.mpr (List.mem_range.mp (present.subset (List.getElem_mem below)))),
      distinct.idxOf_getElem i below⟩

/-- Where the internal ids number the same graph and `snapshot_deg` is the out-degree, the loops give a vertex of a
symmetric graph what the edges give it. -/
theorem pulled_eq_income {order : List NodeID} {Edge : NodeID → NodeID → Prop} [DecidableRel Edge]
    (symmetric : ∀ u v, Edge u v → Edge v u) (symmetry : Ranks.Symmetry (Finset.range numNodes) Edge order.idxOf)
    (degrees : ∀ n < numNodes, deg n = Ranks.outDegree (Finset.range numNodes) Edge n) {score : NodeID → ℚ}
    (same : ∀ u ∈ Finset.range numNodes, score (order.idxOf u) = score u) (n : NodeID) :
    pulled numNodes order Edge deg score n = Ranks.income (Finset.range numNodes) Edge score n := by
  have successors : (Finset.range numNodes).filter (Edge n) = (Finset.range numNodes).filter fun u => Edge u n :=
    Finset.filter_congr fun u _ => ⟨symmetric n u, symmetric u n⟩
  have dangling : (Finset.range numNodes).filter (fun u => deg u = 0) =
      (Finset.range numNodes).filter fun u => Ranks.outDegree (Finset.range numNodes) Edge u = 0 :=
    Finset.filter_congr fun u member => by rw [degrees u (Finset.mem_range.mp member)]
  rw [pulled, Ranks.income, dangling, successors, Finset.card_range]
  congr 1
  apply Finset.sum_congr rfl
  intro u member
  have inside := (Finset.mem_filter.mp member).1
  rw [same u inside, degrees _ (Finset.mem_range.mp (symmetry.mem inside)), symmetry.outDegree inside]

theorem pullStep_eq {order : List NodeID} {Edge : NodeID → NodeID → Prop} [DecidableRel Edge] {score : NodeID → ℚ}
    {n : NodeID} (same : pulled numNodes order Edge deg score n = Ranks.income (Finset.range numNodes) Edge score n) :
    pullStep numNodes order Edge deg score n = Ranks.rankStep kDamp (Finset.range numNodes) Edge score n := by
  rw [pullStep, Ranks.rankStep, Finset.card_range, same]

/-- `PageRankPull` returns, and its scores are those of the recurrence if the loops give every vertex, in each iteration
before, what the edges give it. -/
theorem ranked_built {order : List NodeID} {g : RadixGraph W} (built : BuiltBy ws order inserted g A)
    (present : order.Perm (List.range numNodes)) (nonempty : 0 < numNodes)
    (simple : (inserted.map fun edge => (edge.1, edge.2.1)).Nodup) (loops : Loops) (k : Nat) :
    ∃ s, pageRankPull loops g k numNodes = .ok s ∧
      ((∀ j < k, ∀ n < numNodes,
        pulled numNodes order (ExternalEdge inserted) (snapshotDegree g)
          (Ranks.rank kDamp (Finset.range numNodes) (ExternalEdge inserted) j) n =
        Ranks.income (Finset.range numNodes) (ExternalEdge inserted)
          (Ranks.rank kDamp (Finset.range numNodes) (ExternalEdge inserted) j) n) →
        Ranked numNodes (Ranks.rank kDamp (Finset.range numNodes) (ExternalEdge inserted) k) s.scores) := by
  obtain ⟨pages, serves, numbered⟩ := numbered_of_built built present simple
  obtain rfl := built.ids
  obtain ⟨s, ran, scores⟩ := pageRankPull_spec numbered loops serves k
  refine ⟨s, ran, fun agree => ?_⟩
  let step := pullStep numNodes A.ids (ExternalEdge inserted) (snapshotDegree g)
  let rank := Ranks.rank kDamp (Finset.range numNodes) (ExternalEdge inserted)
  have respects (x y : NodeID → ℚ) (same : Set.EqOn x y (Finset.range numNodes)) :
      Set.EqOn (step x) (step y) (Finset.range numNodes) := by
    have equal : step x = step y := pulled_congr (fun n inside => numbered.length ▸ numbered.idxOf_lt inside) same
    exact equal ▸ Set.eqOn_refl _ _
  have card : ((Finset.range numNodes).card : ℚ) = numNodes := by rw [Finset.card_range]
  have follows : Set.EqOn (step^[k] fun _ => 1 / (Finset.range numNodes).card) (rank k) (Finset.range numNodes) := by
    apply Ranks.iterate_eqOn respects
    intro j less n member
    exact pullStep_eq (agree j less n (Finset.mem_range.mp (Finset.mem_coe.mp member)))
  rw [card] at follows
  refine ⟨fun n inside => ?_, Ranks.sum_rank (Finset.nonempty_range_iff.mpr nonempty.ne') k⟩
  rw [scores.get inside]
  exact congrArg _ (follows (Finset.mem_coe.mpr (Finset.mem_range.mpr inside)))

/-- `PageRankPull` returns on every graph with the ids 0, 1, ..., and on a symmetric one the scores are those of the
recurrence if no iteration is made, or if the internal ids number the same graph and every `snapshot_deg` is the
out-degree. -/
theorem pageRankPull_ranked (P : Platform W) (global : GlobalInfo) {index : SORT W}
    (constructed : SORT.Constructed index ws) {L : Nat} (positive : 0 < L) {acts : List (Action W)}
    (builds : ∀ action ∈ acts, action.Builds) (small : ∀ action ∈ acts, ∀ id ∈ action.ids, id < 2 ^ ws.sum)
    {numNodes : Nat} (nonempty : 0 < numNodes) (present : (vertexOrder acts).Perm (List.range numNodes))
    (simple : ((insertedEdges acts).map fun edge => (edge.1, edge.2.1)).Nodup)
    (symmetric : ∀ u v, ExternalEdge (insertedEdges acts) u v → ExternalEdge (insertedEdges acts) v u) (loops : Loops) :
    ∃ g, actions P (construct global index L positive) acts = .ok g ∧
      ∀ k, ∃ s, pageRankPull loops g k numNodes = .ok s ∧
        (k = 0 ∨ NumbersAlike numNodes (vertexOrder acts) (ExternalEdge (insertedEdges acts)) ∧
          (∀ n < numNodes, snapshotDegree g n =
            Ranks.outDegree (Finset.range numNodes) (ExternalEdge (insertedEdges acts)) n) →
        Ranked numNodes (Ranks.rank kDamp (Finset.range numNodes) (ExternalEdge (insertedEdges acts)) k) s.scores) := by
  obtain ⟨g, A, ran, built⟩ := builds_built P global constructed positive builds small
  refine ⟨g, ran, fun k => ?_⟩
  obtain ⟨s, returned, ranked⟩ := ranked_built built present nonempty simple loops k
  refine ⟨s, returned, fun condition => ranked fun j less n _ => ?_⟩
  obtain ⟨alike, degrees⟩ := condition.resolve_left (Nat.ne_zero_of_lt less)
  have symmetry := alike.symmetry present
  exact pulled_eq_income symmetric symmetry degrees (symmetry.rank j) n

/-- The path from 0 to 2 in both directions, entered from its far end, after a snapshot. -/
theorem pageRankPull_ranked_snapshot : ∃ g : RadixGraph Nat,
    actions Platform.exact (construct ⟨0, true⟩ (.ofVector [2]) 1 (by decide))
        [.op (.insertEdge 2 1 1), .op (.insertEdge 1 2 1), .op (.insertEdge 1 0 1), .op (.insertEdge 0 1 1),
          .op (.createSnapshots false false)] = .ok g ∧
      ∀ k, ∃ s, pageRankPull .forward g k 3 = .ok s ∧
        Ranked 3 (Ranks.rank kDamp (Finset.range 3) (ExternalEdge [(2, 1, 1), (1, 2, 1), (1, 0, 1), (0, 1, (1 : Nat))]) k)
          s.scores := by
  let acts : List (Action Nat) := [.op (.insertEdge 2 1 1), .op (.insertEdge 1 2 1), .op (.insertEdge 1 0 1),
    .op (.insertEdge 0 1 1), .op (.createSnapshots false false)]
  have symmetric : ∀ u v, ExternalEdge (insertedEdges acts) u v → ExternalEdge (insertedEdges acts) v u := by
    rintro u v ⟨w, member⟩
    simp only [acts, insertedEdges, List.filterMap_cons, List.filterMap_nil, Action.edge, List.mem_cons, List.not_mem_nil,
      Prod.mk.injEq, or_false] at member
    rcases member with ⟨rfl, rfl, rfl⟩ | ⟨rfl, rfl, rfl⟩ | ⟨rfl, rfl, rfl⟩ | ⟨rfl, rfl, rfl⟩
    all_goals exact ⟨1, by simp [acts, insertedEdges, Action.edge]⟩
  obtain ⟨g, ran, ranked⟩ := pageRankPull_ranked Platform.exact ⟨0, true⟩
    (show SORT.Constructed (SORT.ofVector [2] : SORT Nat) [2] from .vector (by decide)) (show 0 < 1 by decide)
    (show ∀ action ∈ acts, Action.Builds action by simp [acts, Action.Builds]) (by decide) (show 0 < 3 by decide)
    (show (vertexOrder acts).Perm (List.range 3) by decide) (by decide) symmetric .forward
  have alike : NumbersAlike 3 (vertexOrder acts) (ExternalEdge (insertedEdges acts)) := by
    unfold NumbersAlike
    decide
  have degrees : (do
      let g ← actions Platform.exact (construct ⟨0, true⟩ (.ofVector [2]) 1 (by decide)) acts
      .ok ((List.range 3).all fun n =>
        snapshotDegree g n = Ranks.outDegree (Finset.range 3) (ExternalEdge (insertedEdges acts)) n) : Result _) =
        .ok true := by decide +kernel
  rw [ran, ok_bind, Except.ok.injEq, List.all_eq_true] at degrees
  refine ⟨g, ran, fun k => ?_⟩
  obtain ⟨s, returned, scores⟩ := ranked k
  exact ⟨s, returned, scores (.inr ⟨alike, fun n inside => of_decide_eq_true (degrees n (List.mem_range.mpr inside))⟩)⟩

/-- The same path without a snapshot: all scores stay equal after one iteration. -/
theorem pageRankPull_stale : ∃ (g : RadixGraph Nat) (s : Ranking Nat),
    actions Platform.exact (construct ⟨0, true⟩ (.ofVector [2]) 1 (by decide))
        [.op (.insertEdge 0 1 1), .op (.insertEdge 1 0 1), .op (.insertEdge 1 2 1), .op (.insertEdge 2 1 1)] = .ok g ∧
      pageRankPull .forward g 1 3 = .ok s ∧ s.scores.get 1 = .ok (1 / 3) ∧
      ¬ Ranked 3 (Ranks.rank kDamp (Finset.range 3) (ExternalEdge [(0, 1, 1), (1, 0, 1), (1, 2, 1), (2, 1, (1 : Nat))]) 1)
        s.scores := by
  have stale : (do
      let g ← actions Platform.exact (construct ⟨0, true⟩ (.ofVector [2]) 1 (by decide))
        [.op (.insertEdge 0 1 (1 : Nat)), .op (.insertEdge 1 0 1), .op (.insertEdge 1 2 1), .op (.insertEdge 2 1 1)]
      let s ← pageRankPull .forward g 1 3
      .ok (s.scores.get 1) : Result _) = .ok (.ok (1 / 3)) := by decide +kernel
  obtain ⟨g, ran, rest⟩ := bind_eq_ok.mp stale
  obtain ⟨s, ranked, read⟩ := bind_eq_ok.mp rest
  have third := Except.ok.inj read
  refine ⟨g, s, ran, ranked, third, fun right => ?_⟩
  have score := right.1 1 (by decide)
  rw [third, Except.ok.injEq] at score
  revert score
  decide +kernel

end Radix.Analytics
