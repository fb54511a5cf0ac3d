import Radix.Graph.Refinement

/-!
# Vertices are told apart by their low bits

The index looks at the low `B` bits of an id and compares no leaf with the id that was asked for.
-/

namespace Radix

open Lib Lib.LastWrite

namespace SORT

variable {W : Type} [Zero W] {B : Nat}

theorem entered_extends (B : Nat) (ids : List NodeID) (c : Call) : ids <+: entered B ids c := by
  unfold entered
  split
  · unfold enter
    split
    · exact List.prefix_append _ _
    · exact List.prefix_rfl
  · exact List.prefix_rfl

theorem enteredBy_extends (B : Nat) (ids : List NodeID) (calls : List (GlobalInfo × Call)) :
    ids <+: enteredBy B ids calls := by
  induction calls generalizing ids with
  | nil => exact List.prefix_rfl
  | cons c calls ih => exact (entered_extends B ids c.2).trans (ih _)

theorem position_extends {ids more : List NodeID} (earlier : ids <+: more) {id : NodeID} {k : Nat}
    (found : position B ids id = some k) : position B more id = some k := by
  obtain ⟨rest, rfl⟩ := earlier
  unfold position at found ⊢
  rw [List.findIdx?_append, found, Option.some_or]

theorem position_before {ids more : List NodeID} (earlier : ids <+: more) {id : NodeID} {k : Nat}
    (found : position B more id = some k) (old : k < ids.length) : position B ids id = some k := by
  cases known : position B ids id with
  | some j => rw [← position_extends earlier known, found]
  | none =>
      obtain ⟨rest, rfl⟩ := earlier
      unfold position at known found
      rw [List.findIdx?_append, known, Option.none_or, Option.map_eq_some_iff] at found
      obtain ⟨i, -, rfl⟩ := found
      omega

theorem mem_enteredBy {calls : List (GlobalInfo × Call)} {a : NodeID}
    (member : a ∈ enteredBy B [] calls) : a ∈ insertions calls := by
  induction calls using List.reverseRecOn with
  | nil => cases member
  | append_singleton calls last ih =>
      obtain ⟨info, c⟩ := last
      rw [enteredBy_append] at member
      rw [insertions_append, List.mem_append]
      match c with
      | .retrieveVertex id true =>
          simp only [enteredBy, List.foldl_cons, List.foldl_nil, entered, enter] at member
          split at member
          · rcases List.mem_append.mp member with old | new
            · exact .inl (ih old)
            · exact .inr new
          · exact .inl (ih member)
      | .retrieveVertex _ false | .checkExistence _ | .deleteVertex _ => exact .inl (ih member)

theorem position_inserted {calls : List (GlobalInfo × Call)} {a : NodeID}
    (inserted : a ∈ insertions calls) : position B (enteredBy B [] calls) a ≠ none := by
  induction calls using List.reverseRecOn with
  | nil => cases inserted
  | append_singleton calls last ih =>
      obtain ⟨info, c⟩ := last
      rw [insertions_append, List.mem_append] at inserted
      rw [enteredBy_append]
      rcases inserted with old | new
      · obtain ⟨k, found⟩ := Option.ne_none_iff_exists'.mp (ih old)
        rw [position_extends (enteredBy_extends B _ _) found]
        simp
      · match c with
        | .retrieveVertex id true =>
            obtain rfl := List.mem_singleton.mp new
            simp only [enteredBy, List.foldl_cons, List.foldl_nil, entered]
            rw [position_enter_self]
            split <;> simp_all
        | .retrieveVertex _ false | .checkExistence _ | .deleteVertex _ => cases new

theorem answer_retrieval {calls : List (GlobalInfo × Call)} {p : Nat} {info : GlobalInfo} {id : NodeID}
    {insertMode : Bool} (at_p : calls[p]? = some (info, .retrieveVertex id insertMode)) :
    answer B (enteredBy B [] (calls.take p)) (.retrieveVertex id insertMode) =
      .vertex (record (position B (enteredBy B [] (calls.take (p + 1))) id)) := by
  have next : calls.take (p + 1) = calls.take p ++ [(info, .retrieveVertex id insertMode)] := by
    rw [List.take_add_one, at_p]
    rfl
  rw [next, enteredBy_append]
  cases insertMode <;> rfl

theorem taken_extends (B : Nat) (calls : List (GlobalInfo × Call)) {p q : Nat} (le : p ≤ q) :
    enteredBy B [] (calls.take p) <+: enteredBy B [] (calls.take q) := by
  obtain ⟨more, split⟩ := List.take_prefix_take_left (l := calls) le
  rw [← split, enteredBy_append]
  exact enteredBy_extends B _ more

/-- No id that is asked for agrees in the low bits with another that was inserted before. -/
def NoConfusion (B : Nat) (calls : List (GlobalInfo × Call)) : Prop :=
  ∀ p q a b insertMode, p ≤ q → Asked calls p (.retrieveVertex a true) →
    Asked calls q (.retrieveVertex b insertMode) → a ≡ b [MOD 2 ^ B] → a = b

theorem record_eq_vertex {r : Option Nat} {k : Nat}
    (same : Answer.vertex (record r) = .vertex (Ptr.vertex k)) : r = some k := by
  cases r <;> simp_all [record]

theorem retrieved_node_iff {t₀ : SORT W} {ws : List Nat} (fresh : Constructed t₀ ws)
    (calls : List (GlobalInfo × Call)) :
    ∃ (answers : List Answer) (t : SORT W), t₀.runCalls calls = .ok (answers, t) ∧
      ((∀ p id insertMode (k : Nat), Asked calls p (.retrieveVertex id insertMode) →
          answers[p]? = some (.vertex (Ptr.vertex k)) →
          ∃ v, t.vertexTable[k]? = some v ∧ v.node = id) ↔ NoConfusion ws.sum calls) := by
  obtain ⟨answers, t, ran, dict, each⟩ := fresh.dictionary.runCalls calls
  have final {p : Nat} : enteredBy ws.sum [] (calls.take p) <+: enteredBy ws.sum [] calls := by
    have le := taken_extends ws.sum calls (Nat.le_max_left p calls.length)
    rwa [List.take_of_length_le (Nat.le_max_right p calls.length)] at le
  -- the id whose record a retrieval returns
  have owner {p : Nat} {id : NodeID} {insertMode : Bool} {k : Nat}
      (asked : Asked calls p (.retrieveVertex id insertMode))
      (returned : answers[p]? = some (.vertex (Ptr.vertex k))) :
      ∃ c v, c ∈ enteredBy ws.sum [] (calls.take (p + 1)) ∧ c ≡ id [MOD 2 ^ ws.sum] ∧
        t.vertexTable[k]? = some v ∧ v.node = c := by
    obtain ⟨info, at_p⟩ := asked
    rw [each p info _ at_p, answer_retrieval at_p, Option.some.injEq] at returned
    obtain ⟨c, here, same⟩ := position_lt (record_eq_vertex returned)
    have inside := (List.getElem?_eq_some_iff.mp here).1
    have there := List.prefix_iff_getElem?.mp (final (p := p + 1)) k inside
    obtain ⟨v, at_k, node, -⟩ := dict.vertexAt (there.trans (List.getElem?_eq_getElem inside ▸ here))
    exact ⟨c, v, List.mem_of_getElem? here, same, at_k, node⟩
  refine ⟨answers, t, ran, fun named p q a b insertMode le inserted asked same => ?_,
    fun distinct p id insertMode k asked returned => ?_⟩
  · have answered {r : Nat} {id : NodeID} {mode : Bool} (asked : Asked calls r (.retrieveVertex id mode)) :
        answers[r]? = some (.vertex (record (position ws.sum
          (enteredBy ws.sum [] (calls.take (r + 1))) id))) := by
      obtain ⟨info, at_r⟩ := asked
      rw [each r info _ at_r, answer_retrieval at_r]
    have entered : a ∈ insertions (calls.take (p + 1)) := by
      obtain ⟨info, at_p⟩ := inserted
      exact List.mem_filterMap.mpr ⟨_, List.mem_of_getElem? (List.getElem?_take_of_lt (Nat.lt_succ_self p) ▸ at_p), rfl⟩
    obtain ⟨k, place⟩ := Option.ne_none_iff_exists'.mp (position_inserted (B := ws.sum) entered)
    have first := answered inserted
    rw [place] at first
    have second := answered asked
    rw [← position_congr same,
      position_extends (taken_extends ws.sum calls (Nat.succ_le_succ le)) place] at second
    obtain ⟨v, at_k, node⟩ := named p a true k inserted first
    obtain ⟨v', at_k', node'⟩ := named q b insertMode k asked second
    obtain rfl := Option.some.inj (at_k.symm.trans at_k')
    exact node.symm.trans node'
  · obtain ⟨c, v, member, same, at_k, rfl⟩ := owner asked returned
    obtain ⟨⟨info, call⟩, inside, inserted⟩ := List.mem_filterMap.mp (mem_enteredBy member)
    obtain ⟨q, at_q⟩ := List.getElem?_of_mem inside
    match call, inserted with
    | .retrieveVertex _ true, rfl =>
        rw [List.getElem?_take] at at_q
        split at at_q
        · rename_i before
          exact ⟨v, at_k, distinct q p _ id insertMode (Nat.lt_succ_iff.mp before) ⟨info, at_q⟩ asked same⟩
        · cases at_q

end SORT

namespace RadixGraph

variable {W : Type} [Zero W] [DecidableEq W] {rules : Rules} {ws : List Nat} {g g' : RadixGraph W}
  {A A' : Ledger W}

def read (g : RadixGraph W) (u : NodeID) (timestamp : Int) : Result (Bool × List (WeightedEdge W)) := do
  let (found, neighbours, _) ← g.getNeighbours u [] timestamp
  .ok (found, neighbours)

theorem read_unknown (settled : Settled rules ws g A) {u : NodeID}
    (unknown : SORT.position ws.sum A.ids u = none) (timestamp : Int) :
    g.read u timestamp = .ok (false, []) := by
  obtain ⟨found, neighbours, g₁, reading, -, -, reads⟩ := getNeighbours_spec settled u timestamp
  rw [unknown] at reads
  rw [read, reading, ok_bind, reads.1, reads.2]

theorem read_stored (settled : Settled rules ws g A) {u : NodeID} {k : Nat}
    (known : SORT.position ws.sum A.ids u = some k) {v : Vertex W}
    (at_k : g.vertexIndex.vertexTable[k]? = some v) (alive : v.delTime = -1) {head : WeightedEdgeArray W}
    {snap log : List (WeightedEdge W)} {stamps : Option (List Int)}
    (stored : Stored v.next head snap log stamps) (timestamp : Int) :
    g.read u timestamp = .ok (if head.snapshotTimestamp ≤ timestamp then
      (true, listed [] snap (visibleLog timestamp stamps log)) else (false, [])) := by
  obtain ⟨root, retrieved, -⟩ := settled.index.query g.global u
  obtain ⟨bitmap', -, direct⟩ := neighboursAt_stored settled at_k alive stored timestamp
  have through : g.getNeighbours u [] timestamp =
      ({ g with vertexIndex := { g.vertexIndex with root := root } } : RadixGraph W).neighboursAt k []
        timestamp := by
    rw [getNeighbours, retrieved, ok_bind, known]
    rfl
  rw [read, through, neighboursAt_root, direct]
  by_cases recent : head.snapshotTimestamp ≤ timestamp
  · rw [if_pos recent, if_pos recent]
    rfl
  · rw [if_neg recent, if_neg recent]
    rfl

theorem Untouched.read (settled : Settled rules ws g A) (settled' : Settled rules ws g' A') {k : Nat}
    (untouched : Untouched k g g') (more : A.ids <+: A'.ids) {u : NodeID}
    (place : SORT.position ws.sum A'.ids u ≠ some k) (timestamp : Int) :
    ∃ found found' neighbours, g.read u timestamp = .ok (found, neighbours) ∧
      g'.read u timestamp = .ok (found', neighbours) ∧
      (found' = true ↔ found = true ∨ SORT.position ws.sum A.ids u = none ∧ SORT.position ws.sum A'.ids u ≠ none ∧
        0 ≤ timestamp) := by
  cases known : SORT.position ws.sum A.ids u with
  | some j =>
      have known' := SORT.position_extends more known
      obtain ⟨v, at_j, -, alive, head, snap, log, stamps, -, stored, -⟩ := settled'.vertex known'
      have other : j ≠ k := by
        rintro rfl
        exact place known'
      have same : g.vertexIndex.vertexTable[j]? = some v := by
        apply (untouched.record j v other at_j).resolve_right
        rintro ⟨large, -⟩
        rw [settled.index.length] at large
        exact absurd (SORT.position_isLt known) large.not_gt
      exact ⟨_, _, _, by rw [read_stored settled known same alive stored],
        by rw [read_stored settled' known' at_j alive stored], by simp⟩
  | none =>
      have nothing := read_unknown settled known timestamp
      cases known' : SORT.position ws.sum A'.ids u with
      | none => exact ⟨false, false, [], nothing, read_unknown settled' known' timestamp, by simp⟩
      | some j =>
          obtain ⟨v, at_j, -, alive, -⟩ := settled'.vertex known'
          have other : j ≠ k := by
            rintro rfl
            exact place known'
          have new : A.ids.length ≤ j := by
            by_contra inside
            have old := List.prefix_iff_getElem?.mp more j (Nat.not_le.mp inside)
            obtain ⟨c, here, same⟩ := SORT.position_lt known'
            obtain rfl := Option.some.inj (old.symm.trans here)
            exact SORT.position_eq_none.mp known _ (List.getElem_mem _) same
          rcases untouched.record j v other at_j with old | ⟨-, -, next⟩
          · have inside := (List.getElem?_eq_some_iff.mp old).1
            rw [settled.index.length] at inside
            omega
          · have stored := next ▸ Kept.newArray_stored g.global
            have zero : (SORT.newArray g.global : WeightedEdgeArray W).snapshotTimestamp = 0 := rfl
            refine ⟨false, decide (0 ≤ timestamp), [], nothing, ?_, by simp⟩
            rw [read_stored settled' known' at_j alive stored, visibleLog_nil, zero]
            by_cases recent : 0 ≤ timestamp
            · simp [recent, listed]
            · simp [recent]

omit [DecidableEq W] in
theorem entered_ids (B : Nat) (A : Ledger W) (stamp : Option Int) (src des : NodeID) (weight : W) :
    (A.next B stamp (.insertEdge src des weight)).ids = SORT.enter B (SORT.enter B A.ids src) des :=
  Ledger.write_ids stamp src des weight

theorem enter_extends (B : Nat) (ids : List NodeID) (id : NodeID) : ids <+: SORT.enter B ids id :=
  SORT.entered_extends B ids (.retrieveVertex id true)

theorem getInternalID_unknown (settled : Settled rules ws g A) (u : NodeID) :
    g.getInternalID u = .ok (-1) ↔ SORT.position ws.sum A.ids u = none := by
  cases known : SORT.position ws.sum A.ids u with
  | none =>
      obtain ⟨found, g₁, looked, -, -, source⟩ := liveVertex_spec settled u
      rw [known] at source
      subst source
      simp only [getInternalID, looked, ok_bind]
  | some k =>
      rw [getInternalID_spec settled known, Except.ok.injEq]
      simp only [reduceCtorEq]

theorem position_entered {B : Nat} {ids : List NodeID} {src des u : NodeID} (unknown : SORT.position B ids u = none)
    (other : ¬ src ≡ u [MOD 2 ^ B]) :
    SORT.position B (SORT.enter B (SORT.enter B ids src) des) u ≠ none ↔ des ≡ u [MOD 2 ^ B] := by
  have still : SORT.position B (SORT.enter B ids src) u = none := by
    rw [SORT.position_enter, unknown, Option.none_or, if_neg (fun both => other both.2)]
  rw [SORT.position_enter, still, Option.none_or]
  by_cases same : des ≡ u [MOD 2 ^ B]
  · rw [if_pos ⟨(SORT.position_congr same _).trans still, same⟩]
    simp [same]
  · rw [if_neg (fun both => same both.2)]
    simp [same]

theorem insertEdge_others (P : Platform W) (settled : Settled .lax ws g A) (src des : NodeID) (weight : W) :
    ∃ g', g.insertEdge P src des weight = .ok (true, g') ∧
      ∀ u timestamp, ¬ src ≡ u [MOD 2 ^ ws.sum] → ∃ found found' neighbours,
        g.read u timestamp = .ok (found, neighbours) ∧ g'.read u timestamp = .ok (found', neighbours) ∧
        (found' = true ↔ found = true ∨ des ≡ u [MOD 2 ^ ws.sum] ∧ g.getInternalID u = .ok (-1) ∧ 0 ≤ timestamp) := by
  have allowed : Rules.Tidy .lax → weight ≠ 0 ∧ A.edge ws.sum src des = none := fun tidy => tidy.elim
  obtain ⟨g', inserted, settled', -, -, k, source, untouched⟩ := insertEdge_spec P settled src des allowed
  have ids := entered_ids ws.sum A (Kept.logTimestamp g'.global) src des weight
  have entered : A.ids <+: SORT.enter ws.sum A.ids src := enter_extends _ _ _
  have more : SORT.enter ws.sum A.ids src <+: SORT.enter ws.sum (SORT.enter ws.sum A.ids src) des :=
    enter_extends _ _ _
  refine ⟨g', inserted, fun u timestamp other => ?_⟩
  have elsewhere : SORT.position ws.sum (A.next ws.sum (Kept.logTimestamp g'.global) (.insertEdge src des weight)).ids u ≠
      some k := by
    intro same
    rw [ids] at same
    exact other (Ledger.same_of_position (SORT.position_extends more source) same)
  obtain ⟨found, found', neighbours, before, after, changed⟩ :=
    untouched.read settled settled' (ids ▸ entered.trans more) elsewhere timestamp
  refine ⟨found, found', neighbours, before, after, ?_⟩
  rw [changed, getInternalID_unknown settled, ids]
  apply or_congr Iff.rfl
  constructor
  · rintro ⟨unknown, known, recent⟩
    exact ⟨(position_entered unknown other).mp known, unknown, recent⟩
  · rintro ⟨same, unknown, recent⟩
    exact ⟨unknown, (position_entered unknown other).mpr same, recent⟩

/-- Vertices are identified by the low bits of their ids, and by nothing else: records carry the id that was asked for
just when no two ids with the same low bits are used, and an edge inserted at one vertex changes no list of a vertex
with other low bits. Such a vertex is found as before, or because its record was made for the end of the edge. -/
theorem low_bits_identify {index : SORT W} {ws : List Nat} (constructed : SORT.Constructed index ws) :
    (∀ calls, ∃ (answers : List SORT.Answer) (t : SORT W), index.runCalls calls = .ok (answers, t) ∧
      ((∀ p id insertMode (k : Nat), SORT.Asked calls p (.retrieveVertex id insertMode) →
          answers[p]? = some (.vertex (Ptr.vertex k)) →
          ∃ v, t.vertexTable[k]? = some v ∧ v.node = id) ↔ SORT.NoConfusion ws.sum calls)) ∧
    ∀ (P : Platform W) (global : GlobalInfo) (L : Nat) (positive : 0 < L) (ops : List (Op W)),
      ∃ g, run P (construct global index L positive) ops = .ok g ∧
        ∀ src des weight, ∃ g', g.insertEdge P src des weight = .ok (true, g') ∧
          ∀ u timestamp, ¬ src ≡ u [MOD 2 ^ ws.sum] → ∃ found found' neighbours,
            g.read u timestamp = .ok (found, neighbours) ∧ g'.read u timestamp = .ok (found', neighbours) ∧
            (found' = true ↔
              found = true ∨ des ≡ u [MOD 2 ^ ws.sum] ∧ g.getInternalID u = .ok (-1) ∧ 0 ≤ timestamp) := by
  refine ⟨SORT.retrieved_node_iff constructed, fun P global L positive ops => ?_⟩
  have anything : Admissible Digraph.next (Digraph.Wellformed .lax) {} (ops.map (Op.masked ws.sum)) := by
    apply admissible_of_forall
    intro op _ G
    cases op with
    | insertEdge _ _ _ => exact fun tidy => tidy.elim
    | updateEdge _ _ _ | deleteEdge _ _ => exact fun everything => everything.elim
    | createSnapshots _ _ | setExpandRate _ | getGlobalTimestamp | getNeighbours _ _ => trivial
  obtain ⟨g, A, ran, settled, -, -⟩ := run_spec P (construct_tracks .lax global constructed positive)
    (Ledger.denotes_empty ws.sum) anything
  exact ⟨g, ran, insertEdge_others P settled⟩

/-- Two ids that differ in the low five bits get their own records, and an edge from one to the other is listed at the
first only, where the second is found from then on. -/
theorem low_bits_identify_vector :
    (∃ (answers : List SORT.Answer) (t : SORT Nat),
      (SORT.ofVector [2, 3]).runCalls [(⟨0, false⟩, .retrieveVertex 31 true), (⟨0, false⟩, .retrieveVertex 0 true),
        (⟨0, false⟩, .retrieveVertex 31 false)] = .ok (answers, t) ∧
      answers[2]? = some (.vertex (Ptr.vertex 0)) ∧ ∃ v, t.vertexTable[0]? = some v ∧ v.node = 31) ∧
    ∃ g g' : RadixGraph Nat, run Platform.exact (construct ⟨0, false⟩ (.ofVector [2, 3]) 1 (by decide))
        [.insertEdge 2 3 5] = .ok g ∧
      g.insertEdge Platform.exact 0 1 7 = .ok (true, g') ∧
      g.read 1 maxTimestamp = .ok (false, []) ∧ g'.read 1 maxTimestamp = .ok (true, []) := by
  have constructed : SORT.Constructed (SORT.ofVector [2, 3] : SORT Nat) [2, 3] := .vector (by decide)
  constructor
  · obtain ⟨answers, t, ran, named⟩ := (low_bits_identify constructed).1
      [(⟨0, false⟩, .retrieveVertex 31 true), (⟨0, false⟩, .retrieveVertex 0 true), (⟨0, false⟩, .retrieveVertex 31 false)]
    have apart : SORT.NoConfusion [2, 3].sum [(⟨0, false⟩, .retrieveVertex 31 true),
        (⟨0, false⟩, .retrieveVertex 0 true), (⟨0, false⟩, .retrieveVertex 31 false)] := by
      rintro p q a b insertMode - ⟨info, first⟩ ⟨info', second⟩ same
      have first := List.mem_of_getElem? first
      have second := List.mem_of_getElem? second
      simp only [List.mem_cons, List.not_mem_nil, Prod.mk.injEq, SORT.Call.retrieveVertex.injEq] at first second
      rcases first with ⟨-, rfl, -⟩ | ⟨-, rfl, -⟩ | ⟨-, rfl, -⟩ | never <;>
        rcases second with ⟨-, rfl, -⟩ | ⟨-, rfl, -⟩ | ⟨-, rfl, -⟩ | never' <;> first | rfl | simp_all [Nat.ModEq]
    have third : answers[2]? = some (.vertex (Ptr.vertex 0)) := by
      have shown : ((SORT.ofVector [2, 3] : SORT Nat).runCalls [(⟨0, false⟩, .retrieveVertex 31 true),
          (⟨0, false⟩, .retrieveVertex 0 true), (⟨0, false⟩, .retrieveVertex 31 false)]).map (fun r => r.1[2]?) =
            .ok (some (.vertex (Ptr.vertex 0))) := by rfl
      rw [ran] at shown
      exact Except.ok.inj shown
    exact ⟨answers, t, ran, third, named.mpr apart 2 31 false 0 ⟨_, rfl⟩ third⟩
  · obtain ⟨g, ran, inserts⟩ := (low_bits_identify constructed).2 Platform.exact ⟨0, false⟩ 1 (by decide)
      [.insertEdge 2 3 5]
    obtain ⟨g', inserted, others⟩ := inserts 0 1 7
    obtain ⟨found, found', neighbours, before, after, changed⟩ := others 1 maxTimestamp (by decide)
    have shown : (run Platform.exact (construct ⟨0, false⟩ (.ofVector [2, 3]) 1 (by decide)) [.insertEdge 2 3 5]).map
        (fun g : RadixGraph Nat => (g.read 1 maxTimestamp, g.getInternalID 1)) = .ok (.ok (false, []), .ok (-1)) := by rfl
    rw [ran] at shown
    obtain ⟨unlisted, unknown⟩ := Prod.mk.inj (Except.ok.inj shown)
    obtain ⟨rfl, rfl⟩ := Prod.mk.inj (Except.ok.inj (before.symm.trans unlisted))
    obtain rfl := changed.mpr (.inr ⟨rfl, unknown, by decide⟩)
    exact ⟨g, g', ran, inserted, before, after⟩

/-- With five bits the ids 0 and 32 share a record, and an edge of 0 is an edge of 32. -/
theorem confused_at_power_of_two :
    (do
      let (answers, t) ← (SORT.ofVector [2, 3] : SORT Nat).runCalls
        [(⟨0, false⟩, .retrieveVertex 0 true), (⟨0, false⟩, .retrieveVertex 32 true)]
      .ok (answers, t.vertexTable.map Vertex.node)) =
        (.ok ([.vertex (Ptr.vertex 0), .vertex (Ptr.vertex 0)], [0]) : Result _) ∧
    (do
      let g ← run Platform.exact (construct ⟨0, false⟩ (.ofVector [2, 3]) 1 (by decide))
        [.insertEdge 32 2 5, .insertEdge 0 1 7]
      g.lists 32) = .ok [(1, 7), (2, 5)] :=
  ⟨rfl, rfl⟩

end RadixGraph

end Radix
