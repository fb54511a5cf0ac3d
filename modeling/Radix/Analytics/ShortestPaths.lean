import Radix.Analytics.DeltaRuns

/-!
# Shortest paths over a graph built by insertions

`DeltaStep` always ends, and finds the least weights of paths where no edge is lighter than a bin is wide and there is
room for the edges and the distances. Otherwise it fails just where a bin that it takes up does not fit.
-/

namespace Radix.Analytics

open Lib RadixGraph Lib.Distances Lib.Buckets

theorem kDistInf_pos : 0 < kDistInf := mul_pos (by norm_num) (pow_pos two_pos 970)

theorem kDistInf_onGrid (q : Nat) : OnGrid q kDistInf :=
  ⟨9007199254740991 * 2 ^ 970 * q, by rw [kDistInf]; push_cast; norm_num⟩

/-! ## The whole run -/

namespace Run

variable {R : Run}

theorem Proper.start (proper : R.Proper) {g : RadixGraph ℚ} (serves : Serves R.ws R.A R.pages g)
    (inside : R.source < R.A.ids.length) {dist : PVector ℚ}
    (stores : dist.Stores R.numNodes (Function.update (fun _ => kDistInf) R.source 0)) :
    Resting R 0 [R.source] ⟨g, dist, []⟩ (Function.update (fun _ => kDistInf) R.source 0) where
  serves := serves
  dist := stores
  tentative := .start _ _ kDistInf_pos
  pending := .start ..
  inside b v member := by cases member
  rest v member := by rwa [List.mem_singleton.mp member]
  room := Nat.zero_le _
  onGrid v := by
    by_cases same : v = R.source
    · rw [same, Function.update_self]
      exact ⟨0, by simp⟩
    · rw [Function.update_of_ne same]
      exact kDistInf_onGrid R.grid
  covered _ := ⟨∅, .start _ _ _ proper.wide _⟩

theorem Proper.settles (proper : R.Proper) {g : RadixGraph ℚ} (serves : Serves R.ws R.A R.pages g) {source : NodeID}
    (place : SORT.position R.ws.sum R.A.ids source = some R.source) (inside : R.source < R.A.ids.length)
    (cells : 1 ≤ R.room.numEdges) :
    Traced.Settles R.met (fun s => ∃ f, Stepping.Final R s f)
      fun fuel => deltaStep R.room g source R.delta R.numNodes fuel := by
  obtain ⟨g', looked, serves'⟩ := serves.lookup source
  rw [place] at looked
  obtain ⟨v, at_uidx, idx⟩ := serves'.vertex inside
  obtain ⟨dist, stored, stores⟩ := (PVector.filled_stores R.numNodes kDistInf).set (inside.trans_le proper.size) 0
  obtain ⟨frontier, pushed, shown⟩ := (PVector.new_cells (α := Nat) R.room.numEdges).set cells R.source
  simp only [deltaStep, Traced.lift_bind looked, Traced.lift_bind at_uidx, idx, Traced.lift_bind (index_natCast R.source),
    Traced.lift_bind stored, Traced.lift_bind pushed]
  apply Stepping.steps_spec proper _ _ rfl
  · exact Function.update (fun _ => kDistInf) R.source 0
  · refine ⟨⟨[R.source], ⟨shown.length, ?_⟩, rfl, proper.start serves' inside stores⟩, ?_, rfl, rfl⟩
    · rintro (_ | i) u here
      · obtain rfl := Option.some.inj here
        exact shown.get cells (Function.update_self ..)
      · cases here
    · exact show 0 ≠ kMaxBin by decide

end Run

/-! ## Over a graph built by insertions -/

def DistancesFrom (Edge : Nat → Nat → ℚ → Prop) (uidx numNodes : Nat) (dist : PVector ℚ) : Prop :=
  ∀ i < numNodes, ∃ d, dist.get i = .ok d ∧ Least Edge uidx kDistInf i d

def InsertedWeight (order : List NodeID) (inserted : List (NodeID × NodeID × ℚ)) (i j : Nat) (w : ℚ) : Prop :=
  ∃ u v, order[i]? = some u ∧ order[j]? = some v ∧ (u, v, w) ∈ inserted

def SingleWeight (inserted : List (NodeID × NodeID × ℚ)) : Prop :=
  ∀ u v w w', (u, v, w) ∈ inserted → (u, v, w') ∈ inserted → w = w'

variable {ws : List Nat} {A : Ledger ℚ} {order : List NodeID} {inserted : List (NodeID × NodeID × ℚ)} {g : RadixGraph ℚ}

theorem InsertedWeight.of_listed {adj : Nat → List (WeightedEdge ℚ)} (outside : ∀ i, order.length ≤ i → adj i = [])
    (neighbours : ∀ k < order.length, Neighbours order inserted k (adj k)) {i j : Nat} {w : ℚ}
    (listed : ListedWeight adj i j w) : InsertedWeight order inserted i j w := by
  obtain ⟨e, member, idx, rfl⟩ := listed
  rcases Nat.lt_or_ge i order.length with inside | beyond
  · obtain ⟨u, v, l, here, there, idx', edge⟩ := (neighbours i inside).sound e member
    rw [idx, Int.natCast_inj] at idx'
    exact ⟨u, v, here, idx' ▸ there, edge⟩
  · rw [outside i beyond] at member
    cases member

theorem ListedWeight.of_inserted {adj : Nat → List (WeightedEdge ℚ)} (distinct : order.Nodup)
    (single : SingleWeight inserted)
    (neighbours : ∀ k < order.length, Neighbours order inserted k (adj k)) {i j : Nat} {w : ℚ}
    (edge : InsertedWeight order inserted i j w) : ListedWeight adj i j w := by
  obtain ⟨u, v, here, there, member⟩ := edge
  have inside := (List.getElem?_eq_some_iff.mp here).1
  obtain ⟨l, there', e, listed, idx⟩ := (neighbours i inside).complete u v w member here
  obtain ⟨u', v', l', here', there'', idx', member'⟩ := (neighbours i inside).sound e listed
  have same : j = l := one_place distinct there there'
  obtain rfl : l = l' := Int.natCast_inj.mp (idx.symm.trans idx')
  obtain rfl := Option.some.inj (here'.symm.trans here)
  obtain rfl := Option.some.inj (there''.symm.trans there')
  exact ⟨e, listed, same ▸ idx, single _ _ _ _ member' member⟩

theorem Stepping.Final.distances {R : Run} {s : Stepping} {f : Nat → ℚ} (final : Final R s f) (proper : R.Proper)
    (light : ∀ u v w, ListedWeight R.adj u v w → w ≤ 2 ^ 128) (few : R.A.ids.length ≤ NodeID.invalid) :
    DistancesFrom (ListedWeight R.adj) R.source R.numNodes s.dist := by
  have closed (u v : Nat) (w : ℚ) (edge : ListedWeight R.adj u v w) : u ∈ Finset.range R.A.ids.length := by
    obtain ⟨e, member, -⟩ := edge
    rw [Finset.mem_range]
    by_contra beyond
    rw [proper.answers.outside u (Nat.le_of_not_lt beyond)] at member
    cases member
  -- a path with fewer than `2 ^ 32` edges of float weights stays below `kDistInf`
  have large : ((Finset.range R.A.ids.length).card : ℚ) * 2 ^ 128 < kDistInf := by
    rw [Finset.card_range]
    have bound : (R.A.ids.length : ℚ) ≤ 4294967295 := by exact_mod_cast few
    calc (R.A.ids.length : ℚ) * 2 ^ 128 ≤ 4294967295 * 2 ^ 128 := by gcongr
      _ ≤ 2 ^ 970 := le_trans (by norm_num) (pow_le_pow_right₀ one_le_two (show 160 ≤ 970 by decide))
      _ < kDistInf := lt_mul_of_one_lt_left (by positivity) (by norm_num)
  intro i inside
  refine ⟨f i, final.dist.get inside, ?_⟩
  exact final.tentative.least proper.positive final.relaxed closed light (by norm_num) large i

variable {source : NodeID} {uidx : Nat} {delta : ℚ} {numNodes : Nat} {room : Room}

theorem distances_built (met : Demand → Prop) (built : BuiltBy ws order inserted g A)
    (few : order.length ≤ NodeID.invalid) (weights : ∀ e ∈ inserted, 0 < e.2.2 ∧ e.2.2 < 2 ^ 128)
    (existing : order[uidx]? = some source) (wide : 0 < delta) (size : order.length ≤ numNodes)
    (one : 1 ≤ room.numEdges) (most : room.maxBins ≤ kMaxBin) (meets : ∀ demand : Demand, demand.Met room → met demand)
    (met_cases : ∀ demand, met demand → demand.Met room ∨ Roomy g.adjacency uidx order.length delta room) :
    Traced.Settles met (fun s => DistancesFrom (ListedWeight g.adjacency) uidx numNodes s.dist)
      fun fuel => deltaStep room g source delta numNodes fuel := by
  obtain ⟨pages, serves, answers, neighbours, -⟩ := answers_of_built built few
  obtain ⟨place, inside⟩ := built.position existing
  obtain rfl := built.ids
  -- the weights are multiples of one fraction, so the distances cannot be lowered for ever
  obtain ⟨q, fine, grid⟩ := exists_grid (inserted.map fun e => e.2.2) (by
    intro w member
    obtain ⟨e, edge, rfl⟩ := List.mem_map.mp member
    exact (weights e edge).1.le)
  have weight (u v : Nat) (w : ℚ) (edge : ListedWeight g.adjacency u v w) : ∃ e ∈ inserted, e.2.2 = w := by
    obtain ⟨u', v', -, -, member⟩ := InsertedWeight.of_listed answers.outside neighbours edge
    exact ⟨_, member, rfl⟩
  let R : Run := { ws, A, pages, adj := g.adjacency, room, met, source := uidx, delta, numNodes, grid := q }
  have proper : R.Proper := by
    refine ⟨answers, fun u v w edge => ?_, fun u v w edge => ?_, fine, wide, size, most, meets, met_cases⟩
    · obtain ⟨e, member, rfl⟩ := weight u v w edge
      exact (weights e member).1
    · obtain ⟨e, member, rfl⟩ := weight u v w edge
      exact grid _ (List.mem_map.mpr ⟨e, member, rfl⟩)
  apply (proper.settles serves place inside one).mono
  rintro s ⟨f, final⟩
  apply final.distances proper _ few
  intro u v w edge
  obtain ⟨e, member, rfl⟩ := weight u v w edge
  exact (weights e member).2.le

theorem deltaStep_stable (room : Room) (g : RadixGraph ℚ) (source : NodeID) (delta : ℚ) (numNodes n : Nat) :
    Traced.Stable .hang (fun fuel => deltaStep room g source delta numNodes fuel) n := by
  unfold deltaStep
  apply (Traced.stable_const _).bind
  rintro ⟨_ | u, g⟩
  · exact Traced.stable_const _
  · apply (Traced.stable_const _).bind
    intro v
    apply (Traced.stable_const _).bind
    intro uidx
    apply (Traced.stable_const _).bind
    intro dist
    exact (Traced.stable_const _).bind fun frontier => Stepping.steps_stable room delta n _

def detour : List (Action ℚ) := [.op (.insertEdge 0 2 3), .op (.insertEdge 0 1 1), .op (.insertEdge 1 2 1)]

end Radix.Analytics
