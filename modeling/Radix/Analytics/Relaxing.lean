import Radix.Lib.Buckets
import Radix.Lib.Settled
import Radix.Analytics.DeltaStep

/-!
# What relaxing does to the bins

Every call of `RelaxEdges` keeps the distances tentative and every vertex that has an edge to relax in its bin.
-/

namespace Radix.Analytics

open Lib RadixGraph Lib.Distances Lib.Buckets

/-! ## The bins -/

def entries (localBins : List (List Nat)) : Nat := (localBins.map List.length).sum

theorem bin_grown (localBins : List (List Nat)) (count : Nat) :
    bin (localBins ++ List.replicate count []) = bin localBins := by
  funext i
  unfold bin
  rcases Nat.lt_or_ge i localBins.length with inside | beyond
  · rw [List.getElem?_append_left inside]
  · rw [List.getElem?_append_right beyond, List.getElem?_eq_none beyond, List.getElem?_replicate]
    split
    · rfl
    · rfl

theorem entries_grown (localBins : List (List Nat)) (count : Nat) :
    entries (localBins ++ List.replicate count []) = entries localBins := by
  simp [entries]

theorem bin_pushed {localBins : List (List Nat)} {k : Nat} (inside : k < localBins.length) (v : Nat) :
    bin (localBins.modify k (· ++ [v])) = Function.update (bin localBins) k (bin localBins k ++ [v]) := by
  funext i
  unfold bin
  rw [List.getElem?_modify]
  by_cases same : i = k
  · subst same
    simp [inside]
  · rw [Function.update_of_ne same]
    simp [Ne.symm same]

theorem entries_pushed {localBins : List (List Nat)} {k : Nat} (inside : k < localBins.length) (v : Nat) :
    entries (localBins.modify k (· ++ [v])) = entries localBins + 1 := by
  induction localBins generalizing k with
  | nil => cases inside
  | cons first rest ih =>
      cases k with
      | zero => simp [entries]; omega
      | succ k =>
          have later := ih (Nat.lt_of_succ_lt_succ inside)
          simp only [entries, List.modify_succ_cons, List.map_cons, List.sum_cons] at later ⊢
          omega

theorem bin_cleared (localBins : List (List Nat)) (k : Nat) :
    bin (localBins.set k []) = Function.update (bin localBins) k [] := by
  funext i
  unfold bin
  rw [List.getElem?_set]
  by_cases same : i = k
  · subst same
    rw [if_pos rfl, Function.update_self]
    split
    · rfl
    · rfl
  · rw [if_neg (Ne.symm same), Function.update_of_ne same]

theorem entries_cleared (localBins : List (List Nat)) (k : Nat) :
    entries (localBins.set k []) + (bin localBins k).length = entries localBins := by
  induction localBins generalizing k with
  | nil => rfl
  | cons first rest ih =>
      cases k with
      | zero => simp [entries, bin]; omega
      | succ k =>
          have later := ih k
          simp only [entries, bin, List.set_cons_succ, List.map_cons, List.sum_cons, List.getElem?_cons_succ] at later ⊢
          omega

/-! ## The distances and the bins -/

def ListedWeight (adj : Nat → List (WeightedEdge ℚ)) (u v : Nat) (w : ℚ) : Prop :=
  ∃ e ∈ adj u, e.idx = (v : Int) ∧ e.weight = w

structure Run where
  ws : List Nat
  A : Ledger ℚ
  pages : Nat → Page ℚ
  adj : Nat → List (WeightedEdge ℚ)
  room : Room
  met : Demand → Prop
  source : Nat
  delta : ℚ
  numNodes : Nat
  grid : Nat

/-- No edge from a vertex that the source reaches is lighter than a bin is wide, and the room is enough for all edges
and for the bins of the least distances over them. -/
structure Roomy (adj : Nat → List (WeightedEdge ℚ)) (source count : Nat) (delta : ℚ) (room : Room) : Prop where
  heavy : ∀ u v w d, Walk (ListedWeight adj) source u d → ListedWeight adj u v w → delta ≤ w
  cells : ∑ u ∈ Finset.range count, (adj u).length ≤ room.numEdges
  bins : ∀ u v w d, IsLeast {d | Walk (ListedWeight adj) source u d} d → ListedWeight adj u v w →
    ⌊(d + w) / delta⌋₊ + 1 ≤ room.maxBins

def Run.Roomy (R : Run) : Prop := Analytics.Roomy R.adj R.source R.A.ids.length R.delta R.room

structure Run.Proper (R : Run) : Prop where
  answers : Answers R.ws R.A R.pages R.adj
  positive : ∀ u v w, ListedWeight R.adj u v w → 0 < w
  onGrid : ∀ u v w, ListedWeight R.adj u v w → OnGrid R.grid w
  fine : 0 < R.grid
  wide : 0 < R.delta
  size : R.A.ids.length ≤ R.numNodes
  few : R.room.maxBins ≤ kMaxBin
  meets : ∀ demand : Demand, demand.Met R.room → R.met demand
  met : ∀ demand, R.met demand → demand.Met R.room ∨ R.Roomy

structure Waiting (R : Run) (c : Nat) (rest : List Nat) (s : Relaxation) (f : Nat → ℚ) : Prop where
  serves : Serves R.ws R.A R.pages s.g
  dist : s.dist.Stores R.numNodes f
  tentative : Tentative (ListedWeight R.adj) R.source kDistInf f
  pending : Pending (ListedWeight R.adj) kDistInf R.delta c f (bin s.localBins) rest
  inside : ∀ b, ∀ v ∈ bin s.localBins b, v < R.A.ids.length
  rest : ∀ v ∈ rest, v < R.A.ids.length
  room : s.localBins.length ≤ R.room.maxBins
  onGrid : ∀ v, OnGrid R.grid (f v)

def Covered (R : Run) (c : Nat) (rest : List Nat) (done : Finset Nat) (s : Relaxation) (f : Nat → ℚ) (spare : Nat) :
    Prop :=
  Paid (ListedWeight R.adj) R.delta (fun u => (R.adj u).length) c f (bin s.localBins) rest done
    (entries s.localBins) spare

structure Resting (R : Run) (c : Nat) (items : List Nat) (s : Relaxation) (f : Nat → ℚ) : Prop extends
    Waiting R c items s f where
  covered : R.Roomy → ∃ done, Covered R c items done s f 0

def work (R : Run) (s : Relaxation) (f : Nat → ℚ) : Nat :=
  potential R.grid (Finset.range R.numNodes) f + entries s.localBins

structure Lowers (R : Run) (c : Nat) (f f' : Nat → ℚ) : Prop where
  le : ∀ v, f' v ≤ f v
  kept : ∀ v, f' v = f v ∨ R.delta * c ≤ f' v

namespace Lowers

variable {R : Run} {c : Nat} {f f' f'' : Nat → ℚ}

theorem refl (R : Run) (c : Nat) (f : Nat → ℚ) : Lowers R c f f := ⟨fun v => le_refl (f v), fun _ => .inl rfl⟩

theorem trans (first : Lowers R c f f') (second : Lowers R c f' f'') : Lowers R c f f'' := by
  refine ⟨fun v => (second.le v).trans (first.le v), fun v => ?_⟩
  rcases second.kept v with same | here
  · rw [same]
    exact first.kept v
  · exact .inr here

theorem here (lowers : Lowers R c f f') {v : Nat} (before : R.delta * c ≤ f v) : R.delta * c ≤ f' v := by
  rcases lowers.kept v with same | after
  · rwa [same]
  · exact after

end Lowers

variable {R : Run} {c : Nat} {rest : List Nat} {s s' : Relaxation} {f f' : Nat → ℚ}

/-! ## One edge -/

theorem resizeBins_spec (proper : R.Proper) {localBins : List (List Nat)} (fits : localBins.length ≤ R.room.maxBins)
    {destBin : Nat} (grows : R.met (.bins (destBin + 1)) → destBin + 1 ≤ R.room.maxBins) :
    (resizeBins R.room localBins destBin).Reaches R.met fun grown =>
      destBin < grown.length ∧ grown.length ≤ R.room.maxBins ∧ bin grown = bin localBins ∧
        entries grown = entries localBins := by
  unfold resizeBins
  split
  · rename_i short
    apply Traced.reaches_demand
    · intro met
      have room := grows met
      rw [if_pos room]
      apply Traced.reaches_pure
      have length : (localBins ++ List.replicate (destBin + 1 - localBins.length) []).length = destBin + 1 := by
        rw [List.length_append, List.length_replicate]
        omega
      exact ⟨by rw [length]; exact Nat.lt_succ_self _, by rw [length]; exact room, bin_grown .., entries_grown ..⟩
    · intro unmet
      have short : ¬ destBin + 1 ≤ R.room.maxBins := fun room => unmet (proper.meets (.bins (destBin + 1)) room)
      rw [if_neg short]
      exact ⟨_, rfl⟩
  · rename_i long
    exact Traced.reaches_pure ⟨Nat.lt_of_not_le long, fits, rfl, rfl⟩

inductive Relaxing (R : Run) (u v : Nat) (w : ℚ) (f : Nat → ℚ) (bins : List (List Nat)) :
    (Nat → ℚ) → List (List Nat) → Prop
  | settled : f v ≤ f u + w → Relaxing R u v w f bins f bins
  | lowers {bins' : List (List Nat)} : f u + w < f v →
      bin bins' = Function.update (bin bins) ⌊(f u + w) / R.delta⌋₊ (bin bins ⌊(f u + w) / R.delta⌋₊ ++ [v]) →
      entries bins' = entries bins + 1 → Relaxing R u v w f bins (Function.update f v (f u + w)) bins'

theorem relaxEdge_spec (proper : R.Proper) (stores : s.dist.Stores R.numNodes f)
    (room : s.localBins.length ≤ R.room.maxBins) {u v : Nat} (source : u < R.numNodes) (target : v < R.numNodes)
    {e : WeightedEdge ℚ} (idx : e.idx = (v : Int))
    (grows : f u + e.weight < f v → R.met (.bins (⌊(f u + e.weight) / R.delta⌋₊ + 1)) →
      ⌊(f u + e.weight) / R.delta⌋₊ + 1 ≤ R.room.maxBins) :
    (relaxEdge R.room R.delta u s e).Reaches R.met fun s' =>
      ∃ f', s'.g = s.g ∧ s'.dist.Stores R.numNodes f' ∧ s'.localBins.length ≤ R.room.maxBins ∧
        Relaxing R u v e.weight f s.localBins f' s'.localBins := by
  unfold relaxEdge
  apply Traced.reaches_lift_bind (by rw [idx, index_natCast])
  apply Traced.reaches_lift_bind (stores.get target)
  apply Traced.reaches_lift_bind (stores.get source)
  dsimp only
  split
  · rename_i better
    obtain ⟨dist, stored, stores'⟩ := stores.set target (f u + e.weight)
    apply Traced.reaches_lift_bind stored
    apply (resizeBins_spec proper room (grows better)).bind
    rintro grown ⟨inside, room', same, count⟩
    apply Traced.reaches_pure
    refine ⟨_, rfl, stores', ?_, .lowers better ?_ ?_⟩
    · rwa [List.length_modify]
    · rw [bin_pushed inside, same]
    · rw [entries_pushed inside, count]
  · rename_i settled
    exact Traced.reaches_pure ⟨f, rfl, stores, room, .settled (le_of_not_gt settled)⟩

namespace Relaxing

variable {u v : Nat} {w : ℚ} {bins bins' : List (List Nat)}

theorem relaxed (relaxing : Relaxing R u v w f bins f' bins') : f' v ≤ f u + w := by
  cases relaxing with
  | settled le => exact le
  | lowers => rw [Function.update_self]

theorem idle (relaxing : Relaxing R u v w f bins f' bins') (edge : ListedWeight R.adj u v w)
    (done : Relaxed (ListedWeight R.adj) f u) : f' = f ∧ bins' = bins := by
  cases relaxing with
  | settled => exact ⟨rfl, rfl⟩
  | lowers better => exact absurd better (done v w edge).not_gt

theorem same (relaxing : Relaxing R u v w f bins f' bins') (positive : 0 < w) : f' u = f u := by
  cases relaxing with
  | settled => rfl
  | lowers better =>
      apply Function.update_of_ne
      rintro rfl
      linarith

theorem lowering (relaxing : Relaxing R u v w f bins f' bins') (positive : 0 < w) (here : R.delta * c ≤ f u) :
    Lowers R c f f' := by
  cases relaxing with
  | settled => exact .refl ..
  | lowers better =>
      constructor
      · intro x
        by_cases target : x = v
        · rw [target, Function.update_self]
          exact better.le
        · rw [Function.update_of_ne target]
      · intro x
        by_cases target : x = v
        · right
          rw [target, Function.update_self]
          linarith
        · exact .inl (Function.update_of_ne target ..)

end Relaxing

theorem Waiting.relax (proper : R.Proper) (waiting : Waiting R c rest s f) {u v : Nat} {w : ℚ}
    (edge : ListedWeight R.adj u v w) (here : R.delta * c ≤ f u) (target : v < R.A.ids.length) (graph : s'.g = s.g)
    (stores : s'.dist.Stores R.numNodes f') (room : s'.localBins.length ≤ R.room.maxBins)
    (relaxing : Relaxing R u v w f s.localBins f' s'.localBins) : Waiting R c rest s' f' := by
  generalize same : s'.localBins = bins' at relaxing
  cases relaxing with
  | settled =>
      refine ⟨graph ▸ waiting.serves, stores, waiting.tentative, ?_, ?_, waiting.rest, room, waiting.onGrid⟩
      · exact same.symm ▸ waiting.pending
      · exact same.symm ▸ waiting.inside
  | lowers better pushed =>
      have onGrid := (waiting.onGrid u).add (proper.onGrid u v w edge)
      rw [← same] at pushed
      refine ⟨graph ▸ waiting.serves, stores, ?_, ?_, ?_, waiting.rest, room, ?_⟩
      · exact waiting.tentative.relax proper.positive edge better
      · rw [pushed]
        exact waiting.pending.relax proper.positive proper.wide edge here better
      · intro b x member
        rw [pushed] at member
        by_cases last : b = ⌊(f u + w) / R.delta⌋₊
        · rw [last, Function.update_self] at member
          rcases List.mem_append.mp member with old | new
          · exact waiting.inside _ x old
          · rwa [List.mem_singleton.mp new]
        · rw [Function.update_of_ne last] at member
          exact waiting.inside b x member
      · intro x
        by_cases equal : x = v
        · rwa [equal, Function.update_self]
        · rw [Function.update_of_ne equal]
          exact waiting.onGrid x

theorem Relaxing.work_le (proper : R.Proper) (waiting : Waiting R c rest s f) {u v : Nat} {w : ℚ}
    (edge : ListedWeight R.adj u v w) (target : v < R.numNodes)
    (relaxing : Relaxing R u v w f s.localBins f' s'.localBins) : work R s' f' ≤ work R s f := by
  unfold work
  generalize s'.localBins = bins' at relaxing
  cases relaxing with
  | settled => exact le_refl _
  | lowers better _ count =>
      have lower := potential_lower proper.fine (Finset.mem_range.mpr target)
        ((waiting.onGrid u).add (proper.onGrid u v w edge)) better (waiting.onGrid v)
      omega

theorem Covered.relax (wide : 0 < R.delta) {done : Finset Nat} {spare : Nat}
    (covered : Covered R c rest done s f spare) {u v : Nat} {w : ℚ} (heavy : f u + w < f v → R.delta ≤ w)
    (here : R.delta * c ≤ f u) (relaxing : Relaxing R u v w f s.localBins f' s'.localBins) :
    Covered R c rest done s' f' (spare + 1) := by
  unfold Covered
  generalize s'.localBins = bins' at relaxing
  cases relaxing with
  | settled => exact covered.mono (Nat.le_succ spare)
  | lowers better pushed count =>
      rw [pushed, count]
      exact Paid.relax wide covered (heavy better) here better

/-! ## All edges of a vertex -/

namespace Waiting

theorem reached (proper : R.Proper) (waiting : Waiting R c rest s f) {u v : Nat} {w : ℚ}
    (edge : ListedWeight R.adj u v w) (better : f u + w < f v) : Walk (ListedWeight R.adj) R.source u (f u) := by
  apply (waiting.tentative.walk u).resolve_left
  have positive := proper.positive u v w edge
  have upper := waiting.tentative.le v
  exact (show f u < kDistInf by linarith).ne

theorem drop {u : Nat} (waiting : Waiting R c (u :: rest) s f)
    (done : Relaxed (ListedWeight R.adj) f u ∨ f u < R.delta * c) : Waiting R c rest s f :=
  ⟨waiting.serves, waiting.dist, waiting.tentative, waiting.pending.drop done, waiting.inside,
    fun v member => waiting.rest v (List.mem_cons_of_mem u member), waiting.room, waiting.onGrid⟩

theorem regraph (waiting : Waiting R c rest s f) {g : RadixGraph ℚ} (serves : Serves R.ws R.A R.pages g) :
    Waiting R c rest { s with g } f :=
  ⟨serves, waiting.dist, waiting.tentative, waiting.pending, waiting.inside, waiting.rest, waiting.room, waiting.onGrid⟩

end Waiting

structure Partway (R : Run) (c u : Nat) (rest : List Nat) (s : Relaxation) (f : Nat → ℚ)
    (done : List (WeightedEdge ℚ)) (t : Relaxation) (f' : Nat → ℚ) : Prop where
  waiting : Waiting R c (u :: rest) t f'
  lowers : Lowers R c f f'
  same : f' u = f u
  work : work R t f' ≤ work R s f
  relaxed : ∀ e ∈ done, ∀ v : Nat, e.idx = (v : Int) → f' v ≤ f u + e.weight
  idle : Relaxed (ListedWeight R.adj) f u → f' = f ∧ t.localBins = s.localBins
  covered : R.Roomy → ∀ others, Covered R c (u :: rest) others s f 0 → Covered R c (u :: rest) others t f' done.length

namespace Partway

variable {u : Nat} {done : List (WeightedEdge ℚ)} {t t' : Relaxation} {f'' : Nat → ℚ}

theorem start (resting : Resting R c (u :: rest) s f) {g : RadixGraph ℚ} (serves : Serves R.ws R.A R.pages g) :
    Partway R c u rest s f [] { s with g } f where
  waiting := resting.toWaiting.regraph serves
  lowers := .refl ..
  same := rfl
  work := le_refl _
  relaxed := by simp
  idle _ := ⟨rfl, rfl⟩
  covered _ _ covered := covered

theorem step (proper : R.Proper) (partway : Partway R c u rest s f done t f') (here : R.delta * c ≤ f u)
    {e : WeightedEdge ℚ} (listed : e ∈ R.adj u) {v : Nat} (target : v < R.A.ids.length) (idx : e.idx = (v : Int))
    (graph : t'.g = t.g) (stores : t'.dist.Stores R.numNodes f'') (room : t'.localBins.length ≤ R.room.maxBins)
    (relaxing : Relaxing R u v e.weight f' t.localBins f'' t'.localBins) :
    Partway R c u rest s f (done ++ [e]) t' f'' := by
  have edge : ListedWeight R.adj u v e.weight := ⟨e, listed, idx, rfl⟩
  have positive := proper.positive u v e.weight edge
  have here' := partway.lowers.here here
  have lowers := relaxing.lowering positive here'
  have less := relaxing.work_le proper partway.waiting edge (target.trans_le proper.size)
  constructor
  · exact partway.waiting.relax proper edge here' target graph stores room relaxing
  · exact partway.lowers.trans lowers
  · exact (relaxing.same positive).trans partway.same
  · exact less.trans partway.work
  · intro e' member x idx'
    rcases List.mem_append.mp member with old | new
    · exact (lowers.le x).trans (partway.relaxed e' old x idx')
    · obtain rfl := List.mem_singleton.mp new
      rw [idx, Int.natCast_inj] at idx'
      rw [← idx', ← partway.same]
      exact relaxing.relaxed
  · intro settled
    obtain ⟨kept, bins⟩ := partway.idle settled
    obtain ⟨kept', bins'⟩ := relaxing.idle edge (kept ▸ settled)
    exact ⟨kept'.trans kept, bins'.trans bins⟩
  · intro roomy others covered
    rw [List.length_append]
    exact (partway.covered roomy others covered).relax proper.wide
      (fun better => roomy.heavy u v _ _ (partway.waiting.reached proper edge better) edge) here' relaxing

theorem grows (proper : R.Proper) (resting : Resting R c (u :: rest) s f) (partway : Partway R c u rest s f done t f')
    {v : Nat} {w : ℚ} (edge : ListedWeight R.adj u v w) (better : f' u + w < f' v)
    (met : R.met (.bins (⌊(f' u + w) / R.delta⌋₊ + 1))) : ⌊(f' u + w) / R.delta⌋₊ + 1 ≤ R.room.maxBins := by
  rcases proper.met _ met with direct | roomy
  · exact direct
  · obtain ⟨others, covered⟩ := resting.covered roomy
    have near : f' u < R.delta * (c + 1) := (partway.covered roomy others covered).front u List.mem_cons_self
    have reached := partway.waiting.reached proper edge better
    have positive := proper.positive u v w edge
    have upper := partway.waiting.tentative.le v
    refine roomy.bins u v w (f' u) ⟨reached, fun d walk => ?_⟩ edge
    by_contra less
    rw [not_le] at less
    exact less.not_ge (partway.waiting.pending.le_walk proper.positive proper.wide roomy.heavy partway.waiting.tentative
      walk (less.trans near) (by linarith))

theorem finish (partway : Partway R c u rest s f (R.adj u) s' f') (resting : Resting R c (u :: rest) s f) :
    Resting R c rest s' f' := by
  have done : Relaxed (ListedWeight R.adj) f' u := by
    rintro v w ⟨e, listed, idx, rfl⟩
    rw [partway.same]
    exact partway.relaxed e listed v idx
  refine ⟨partway.waiting.drop (.inl done), fun roomy => ?_⟩
  obtain ⟨others, covered⟩ := resting.covered roomy
  by_cases settled : Relaxed (ListedWeight R.adj) f u
  · obtain ⟨rfl, bins⟩ := partway.idle settled
    refine ⟨others, ?_⟩
    rw [Covered, bins]
    exact covered.drop
  · -- what is done stays relaxed, so `u` is counted for the first time
    have new : u ∉ others := fun member => settled (covered.settled u member).2
    exact ⟨Insert.insert u others, (partway.covered roomy others covered).finish new done⟩

end Partway

theorem relaxEdges_spec (proper : R.Proper) {u : Nat} (resting : Resting R c (u :: rest) s f)
    (here : R.delta * c ≤ f u) :
    (relaxEdges R.room R.delta s u).Reaches R.met fun s' =>
      ∃ f', Resting R c rest s' f' ∧ Lowers R c f f' ∧ work R s' f' ≤ work R s f := by
  have source := resting.rest u List.mem_cons_self
  obtain ⟨g, read, serves⟩ := proper.answers.byOffset resting.serves source
  unfold relaxEdges
  apply Traced.reaches_lift_bind read
  dsimp only
  have looped : ((R.adj u).foldlM (relaxEdge R.room R.delta u) { s with g }).Reaches R.met fun t =>
      ∃ f', Partway R c u rest s f (R.adj u) t f' := by
    apply Traced.reaches_foldlM (R.adj u) fun done t => ∃ f', Partway R c u rest s f done t f'
    · rintro done e t earlier ⟨f', partway⟩
      have listed : e ∈ R.adj u := earlier.subset (by simp)
      obtain ⟨v, target, idx⟩ := proper.answers.closed u e listed
      apply (relaxEdge_spec proper partway.waiting.dist partway.waiting.room (source.trans_le proper.size)
        (target.trans_le proper.size) idx (partway.grows proper resting ⟨e, listed, idx, rfl⟩)).mono
      rintro t' ⟨f'', graph, stores, room, relaxing⟩
      exact ⟨f'', partway.step proper here listed target idx graph stores room relaxing⟩
    · exact ⟨f, .start resting serves⟩
  apply looped.mono
  rintro s' ⟨f', partway⟩
  exact ⟨f', partway.finish resting, partway.lowers, partway.work⟩

end Radix.Analytics
