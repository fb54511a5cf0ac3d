import Radix.Graph.History

/-!
# The graph as a ledger

The abstract graph: the ids in the order of their first insertion, and the history of each vertex.
-/

namespace Radix

open Lib Lib.LastWrite

structure Ledger (W : Type) [Zero W] where
  ids : List NodeID := []
  hist : Nat → History W := fun _ => []

namespace Ledger

variable {W : Type} [Zero W]

def enter (B : Nat) (A : Ledger W) (id : NodeID) : Ledger W := { A with ids := SORT.enter B A.ids id }

def log (A : Ledger W) (k : Nat) (p : Option Int × WeightedEdge W) : Ledger W :=
  { A with hist := Function.update A.hist k (A.hist k ++ [p]) }

theorem log_hist (A : Ledger W) (k : Nat) (p : Option Int × WeightedEdge W) :
    (A.log k p).hist = Function.update A.hist k (A.hist k ++ [p]) := rfl

def write (B : Nat) (A : Ledger W) (stamp : Option Int) (src des : NodeID) (weight : W) : Ledger W :=
  match SORT.position B A.ids src, SORT.position B A.ids des with
  | some k, some l => A.log k (stamp, { weight := weight, idx := (l : Int) })
  | _, _ => A

/-- The ledger after an operation whose log entry, if it writes one, has the timestamp `stamp`. -/
def next (B : Nat) (A : Ledger W) (stamp : Option Int) : RadixGraph.Op W → Ledger W
  | .insertEdge src des weight => ((A.enter B src).enter B des).write B stamp src des weight
  | .updateEdge src des weight => A.write B stamp src des weight
  | .deleteEdge src des => A.write B stamp src des 0
  | _ => A

variable [DecidableEq W]

def edgeWhere (B : Nat) (shown : Option Int → Bool) (A : Ledger W) (u v : NodeID) : Option W :=
  match SORT.position B A.ids u, SORT.position B A.ids v with
  | some k, some l =>
      (replayEdges (History.edges ((A.hist k).filter (shown ·.1))) l).map WeightedEdge.weight
  | _, _ => none

def edge (B : Nat) (A : Ledger W) (u v : NodeID) : Option W := A.edgeWhere B (fun _ => true) u v

def Allowed (rules : Rules) (B : Nat) (A : Ledger W) : RadixGraph.Op W → Prop
  | .insertEdge src des weight => rules.Tidy → weight ≠ 0 ∧ A.edge B src des = none
  | .updateEdge src des weight => rules.Strict → weight ≠ 0 ∧ A.edge B src des ≠ none
  | .deleteEdge src des => rules.Strict → A.edge B src des ≠ none
  | _ => True

structure Closed (A : Ledger W) : Prop where
  unborn : ∀ k, A.ids.length ≤ k → A.hist k = []
  known : ∀ k, ∀ p ∈ A.hist k, 0 ≤ p.2.idx ∧ p.2.idx < A.ids.length

variable {B : Nat} {A : Ledger W} {shown : Option Int → Bool}

theorem edgeWhere_of_positions {u v : NodeID} {k l : Nat}
    (source : SORT.position B A.ids u = some k) (target : SORT.position B A.ids v = some l) :
    A.edgeWhere B shown u v =
      (replayEdges (History.edges ((A.hist k).filter (shown ·.1))) l).map WeightedEdge.weight := by
  rw [edgeWhere, source, target]

theorem edgeWhere_of_unknown {u v : NodeID}
    (unknown : SORT.position B A.ids u = none ∨ SORT.position B A.ids v = none) :
    A.edgeWhere B shown u v = none := by
  rcases unknown with none | none
  · rw [edgeWhere, none]
  · rw [edgeWhere, none]
    cases SORT.position B A.ids u <;> rfl

theorem edge_of_positions {u v : NodeID} {k l : Nat} (source : SORT.position B A.ids u = some k)
    (target : SORT.position B A.ids v = some l) :
    A.edge B u v = (replayEdges (A.hist k).edges l).map WeightedEdge.weight := by
  rw [edge, edgeWhere_of_positions source target, List.filter_true]

theorem edgeWhere_congr (A : Ledger W) {u v v' : NodeID} (same : v ≡ v' [MOD 2 ^ B]) :
    A.edgeWhere B shown u v = A.edgeWhere B shown u v' := by
  rw [edgeWhere, edgeWhere, SORT.position_congr same]

theorem known_of_edgeWhere {u v : NodeID} {w : W} (present : A.edgeWhere B shown u v = some w) :
    ∃ id ∈ A.ids, id ≡ v [MOD 2 ^ B] := by
  cases target : SORT.position B A.ids v with
  | none => rw [edgeWhere_of_unknown (.inr target)] at present; cases present
  | some l =>
      obtain ⟨id, here, same⟩ := SORT.position_lt target
      exact ⟨id, List.mem_of_getElem? here, same⟩

omit [DecidableEq W] in
theorem enter_length_le (B : Nat) (A : Ledger W) (id : NodeID) :
    A.ids.length ≤ (A.enter B id).ids.length := by
  rw [enter, SORT.enter]
  split <;> simp

omit [DecidableEq W] in
theorem Closed.enter (closed : A.Closed) (id : NodeID) : (A.enter B id).Closed where
  unborn k large := closed.unborn k ((enter_length_le B A id).trans large)
  known k p member := by
    obtain ⟨nonneg, small⟩ := closed.known k p member
    have := enter_length_le B A id
    exact ⟨nonneg, by omega⟩

omit [DecidableEq W] in
theorem Closed.write (closed : A.Closed) (stamp : Option Int) (src des : NodeID) (weight : W) :
    (A.write B stamp src des weight).Closed := by
  rw [Ledger.write]
  split
  · rename_i k l source target
    have source_lt := SORT.position_isLt source
    have target_lt := SORT.position_isLt target
    constructor
    · intro j large
      have other : j ≠ k := by
        rintro rfl
        exact absurd source_lt (by simpa [log] using large)
      simpa [log, other] using closed.unborn j large
    · intro j p member
      by_cases here : j = k
      · subst here
        simp only [log, Function.update_self, List.mem_append, List.mem_singleton] at member
        rcases member with old | rfl
        · exact closed.known j p old
        · exact ⟨by simp, by simpa [log] using target_lt⟩
      · simp only [log, Function.update_of_ne here] at member
        exact closed.known j p member
  · exact closed

theorem Closed.absent (closed : A.Closed) {k l : Nat} (new : A.ids.length ≤ k ∨ A.ids.length ≤ l) :
    replayEdges (History.edges ((A.hist k).filter (shown ·.1))) l = none := by
  rcases new with new | new
  · rw [closed.unborn k new]
    rfl
  · refine replay_untouched _ fun member => ?_
    obtain ⟨e, inside, idx⟩ := List.mem_map.mp member
    obtain ⟨p, entry, rfl⟩ := List.mem_map.mp inside
    have := (closed.known k p (List.mem_of_mem_filter entry)).2
    omega

theorem position_enter_cases {ids : List NodeID} {id other : NodeID} {k : Nat}
    (found : SORT.position B (SORT.enter B ids id) other = some k) :
    SORT.position B ids other = some k ∨
      (SORT.position B ids other = none ∧ ids.length ≤ k) := by
  rw [SORT.position_enter] at found
  cases old : SORT.position B ids other with
  | some j => simpa [old] using found
  | none =>
      rw [old, Option.none_or] at found
      split at found
      · exact .inr ⟨rfl, (Option.some.inj found).le⟩
      · cases found

theorem position_of_enter {ids : List NodeID} {id other : NodeID}
    (unknown : SORT.position B (SORT.enter B ids id) other = none) :
    SORT.position B ids other = none := by
  rw [SORT.position_enter, Option.or_eq_none_iff] at unknown
  exact unknown.1

theorem Closed.edgeWhere_enter (closed : A.Closed) (id u v : NodeID) :
    (A.enter B id).edgeWhere B shown u v = A.edgeWhere B shown u v := by
  cases source : SORT.position B (A.enter B id).ids u with
  | none => rw [edgeWhere_of_unknown (.inl source), edgeWhere_of_unknown (.inl (position_of_enter source))]
  | some k =>
      cases target : SORT.position B (A.enter B id).ids v with
      | none =>
          rw [edgeWhere_of_unknown (.inr target), edgeWhere_of_unknown (.inr (position_of_enter target))]
      | some l =>
          rw [edgeWhere_of_positions source target, Ledger.enter]
          rcases position_enter_cases source with source' | ⟨source', new⟩
          · rcases position_enter_cases target with target' | ⟨target', new⟩
            · rw [edgeWhere_of_positions source' target']
            · rw [edgeWhere_of_unknown (.inr target'), closed.absent (.inr new), Option.map_none]
          · rw [edgeWhere_of_unknown (.inl source'), closed.absent (.inl new), Option.map_none]

theorem same_of_position {ids : List NodeID} {u v : NodeID} {k : Nat}
    (left : SORT.position B ids u = some k) (right : SORT.position B ids v = some k) :
    u ≡ v [MOD 2 ^ B] := by
  obtain ⟨a, at_k, left⟩ := SORT.position_lt left
  obtain ⟨b, at_k', right⟩ := SORT.position_lt right
  obtain rfl := Option.some.inj (at_k.symm.trans at_k')
  exact left.symm.trans right

def said (weight : W) : Option W := if weight = 0 then none else some weight

theorem same_iff_position {ids : List NodeID} {u v : NodeID} {j k : Nat}
    (left : SORT.position B ids u = some j) (right : SORT.position B ids v = some k) :
    v ≡ u [MOD 2 ^ B] ↔ j = k := by
  constructor
  · intro same
    rw [SORT.position_congr same, left] at right
    exact Option.some.inj right
  · rintro rfl
    exact same_of_position right left

theorem weight_snoc (log : List (WeightedEdge W)) (weight : W) (l m : Nat) :
    (replayEdges (log ++ [{ weight := weight, idx := (l : Int) }]) m).map WeightedEdge.weight =
      if m = l then said weight else (replayEdges log m).map WeightedEdge.weight := by
  rw [replayEdges, replay_snoc, LastWrite.write]
  by_cases aim : m = l
  · subst aim
    rw [Function.update_self, if_pos rfl, said]
    by_cases zero : weight = 0 <;> simp [WeightedEdge.live, zero]
  · rw [Function.update_of_ne (by simpa using aim), if_neg aim]

/-- What the shown entries say of a vertex after one more entry for the vertex `k`. -/
theorem weight_log (A : Ledger W) (stamp : Option Int) (weight : W) (j k l m : Nat) :
    (replayEdges (History.edges
        (((A.log k (stamp, { weight := weight, idx := (l : Int) })).hist j).filter (shown ·.1))) m).map
          WeightedEdge.weight =
      if shown stamp ∧ j = k ∧ m = l then said weight
      else (replayEdges (History.edges ((A.hist j).filter (shown ·.1))) m).map WeightedEdge.weight := by
  rw [log_hist]
  by_cases here : j = k
  · subst here
    rw [Function.update_self, List.filter_append]
    by_cases visible : shown stamp
    · have last : [(stamp, ({ weight := weight, idx := (l : Int) } : WeightedEdge W))].filter
          (shown ·.1) = [(stamp, { weight := weight, idx := (l : Int) })] := by simp [visible]
      rw [last, History.edges_append]
      simpa [visible, History.edges] using weight_snoc _ weight l m
    · simp [visible]
  · rw [Function.update_of_ne here, if_neg fun both => here both.2.1]

theorem edgeWhere_write (stamp : Option Int) {src des : NodeID} (weight : W)
    (source : SORT.position B A.ids src ≠ none) (target : SORT.position B A.ids des ≠ none)
    (u v : NodeID) :
    (A.write B stamp src des weight).edgeWhere B shown u v =
      if shown stamp ∧ src ≡ u [MOD 2 ^ B] ∧ des ≡ v [MOD 2 ^ B] then said weight
      else A.edgeWhere B shown u v := by
  obtain ⟨k, source⟩ := Option.ne_none_iff_exists'.mp source
  obtain ⟨l, target⟩ := Option.ne_none_iff_exists'.mp target
  have other {ids : List NodeID} {a b : NodeID} {i : Nat} (known : SORT.position B ids a = some i)
      (unknown : SORT.position B ids b = none) : ¬ a ≡ b [MOD 2 ^ B] := fun same => by
    rw [SORT.position_congr same, unknown] at known
    cases known
  rw [write, source, target]
  cases source' : SORT.position B A.ids u with
  | none =>
      rw [edgeWhere_of_unknown (.inl source'), if_neg fun both => other source source' both.2.1]
      exact edgeWhere_of_unknown (.inl source')
  | some j =>
      cases target' : SORT.position B A.ids v with
      | none =>
          rw [edgeWhere_of_unknown (.inr target'), if_neg fun both => other target target' both.2.2]
          exact edgeWhere_of_unknown (.inr target')
      | some m =>
          simp only [same_iff_position source' source, same_iff_position target' target,
            edgeWhere_of_positions source' target']
          rw [← weight_log A stamp weight j k l m]
          exact edgeWhere_of_positions (A := A.log k _) source' target'

end Ledger

namespace RadixGraph

variable {W : Type} [Zero W] [DecidableEq W]

structure Tracks (rules : Rules) (ws : List Nat) (versioned : Bool) (g : RadixGraph W)
    (A : Ledger W) : Prop where
  index : g.vertexIndex.Dictionary ws A.ids
  clean : g.bitmap.Clean
  rate : 1 < g.expandRate
  kept : ∀ k v, g.vertexIndex.vertexTable[k]? = some v →
    Kept rules g.global.ticks versioned v (A.hist k)
  closed : A.Closed

abbrev Settled (rules : Rules) (ws : List Nat) (g : RadixGraph W) (A : Ledger W) : Prop :=
  Tracks rules ws g.global.isMixedWorkloads g A

variable {rules : Rules} {ws : List Nat} {versioned : Bool} {g : RadixGraph W} {A : Ledger W}

theorem fresh_tracks (rules : Rules) (global : GlobalInfo) {index : SORT W} {ws : List Nat}
    (empty : index.Dictionary ws []) {bitmap : SegmentedBitmap} (clean : bitmap.Clean)
    (versioned : Bool) : Tracks rules ws versioned (fresh global index bitmap) {} where
  index := empty
  clean := clean
  rate := by norm_num [fresh]
  kept k v at_k := by
    have none : index.vertexTable = [] := List.length_eq_zero_iff.mp empty.length
    simp [fresh, none] at at_k
  closed := ⟨fun _ _ => rfl, fun _ _ member => by cases member⟩

theorem Tracks.vertex (tracks : Tracks rules ws versioned g A) {id : NodeID} {k : Nat}
    (found : SORT.position ws.sum A.ids id = some k) :
    ∃ v, g.vertexIndex.vertexTable[k]? = some v ∧ v.idx = k ∧
      Kept rules g.global.ticks versioned v (A.hist k) := by
  obtain ⟨other, here, -⟩ := SORT.position_lt found
  obtain ⟨v, at_k, -, idx⟩ := tracks.index.vertexAt here
  exact ⟨v, at_k, idx, tracks.kept k v at_k⟩

theorem liveVertex_spec (tracks : Tracks rules ws versioned g A) (id : NodeID) :
    ∃ found g', g.liveVertex id = .ok (found, g') ∧ Tracks rules ws versioned g' A ∧
      g'.global = g.global ∧
      match SORT.position ws.sum A.ids id with
      | none => found = none
      | some k => ∃ v, g'.vertexIndex.vertexTable[k]? = some v ∧ v.idx = k ∧ found = some (k, v) := by
  obtain ⟨root, retrieved, dict⟩ := tracks.index.query g.global id
  have tracks' : Tracks rules ws versioned
      { g with vertexIndex := { g.vertexIndex with root := root } } A :=
    ⟨dict, tracks.clean, tracks.rate, tracks.kept, tracks.closed⟩
  rw [liveVertex, retrieved, ok_bind]
  cases found : SORT.position ws.sum A.ids id with
  | none => exact ⟨none, _, rfl, tracks', rfl, rfl⟩
  | some k =>
      obtain ⟨v, at_k, idx, alive, -⟩ := tracks.vertex found
      refine ⟨some (k, v), _, ?_, tracks', rfl, v, at_k, idx, rfl⟩
      simp [SORT.record, SORT.vertexAt, at_k, alive]

structure Untouched (k : Nat) (g g' : RadixGraph W) : Prop where
  grown : g.vertexIndex.vertexTable.length ≤ g'.vertexIndex.vertexTable.length
  record : ∀ j v, j ≠ k → g'.vertexIndex.vertexTable[j]? = some v →
    g.vertexIndex.vertexTable[j]? = some v ∨
      g.vertexIndex.vertexTable.length ≤ j ∧ v.delTime = -1 ∧ v.next = [SORT.newArray g.global]

omit [DecidableEq W] in
theorem Untouched.trans {k : Nat} {g g' g'' : RadixGraph W} (first : Untouched k g g')
    (global : g'.global = g.global) (second : Untouched k g' g'') : Untouched k g g'' where
  grown := first.grown.trans second.grown
  record j v other at_j := by
    rcases second.record j v other at_j with old | ⟨large, alive, next⟩
    · exact first.record j v other old
    · exact .inr ⟨first.grown.trans large, alive, global ▸ next⟩

theorem enterVertex_spec (settled : Settled rules ws g A) (id : NodeID) :
    ∃ k index, g.enterVertex id = .ok (k, { g with vertexIndex := index }) ∧
      SORT.position ws.sum (A.enter ws.sum id).ids id = some k ∧
      Settled rules ws { g with vertexIndex := index } (A.enter ws.sum id) ∧
      ∀ j, Untouched j g { g with vertexIndex := index } := by
  obtain ⟨index, retrieved, dict, table⟩ := settled.index.enter g.global id
  obtain ⟨k, found⟩ : ∃ k, SORT.position ws.sum (SORT.enter ws.sum A.ids id) id = some k := by
    rw [SORT.position_enter_self]
    cases old : SORT.position ws.sum A.ids id <;> simp
  have grown : g.vertexIndex.vertexTable.length ≤ index.vertexTable.length := by
    rw [table]
    split <;> simp
  have record (j : Nat) (v : Vertex W) (at_j : index.vertexTable[j]? = some v) :
      g.vertexIndex.vertexTable[j]? = some v ∨
        g.vertexIndex.vertexTable.length ≤ j ∧ v.delTime = -1 ∧ v.next = [SORT.newArray g.global] := by
    rw [table] at at_j
    split at at_j
    · rw [List.getElem?_append] at at_j
      split at at_j
      · exact .inl at_j
      · rename_i new
        obtain rfl := List.mem_singleton.mp (List.mem_of_getElem? at_j)
        exact .inr ⟨Nat.not_lt.mp new, rfl, rfl⟩
    · exact .inl at_j
  refine ⟨k, index, ?_, found, ⟨dict, settled.clean, settled.rate, fun j v at_j => ?_,
    settled.closed.enter id⟩, fun _ => ⟨grown, fun j v _ at_j => record j v at_j⟩⟩
  · rw [enterVertex, retrieved, ok_bind, found]
    rfl
  · rcases record j v at_j with old | ⟨large, alive, next⟩
    · exact settled.kept j v old
    · rw [settled.index.length] at large
      have empty : A.hist j = [] := settled.closed.unborn j large
      exact empty ▸ Kept.fresh rules g.global alive next

theorem insertAt_spec (P : Platform W) (settled : Settled rules ws g A) {src des : NodeID} {k l : Nat}
    (source : SORT.position ws.sum A.ids src = some k)
    (target : SORT.position ws.sum A.ids des = some l) (weight : W) {delta : Int}
    (permitted : Carries.Permitted rules (replayEdges (A.hist k).edges)
      { weight := weight, idx := (l : Int) } delta) :
    ∃ g', g.insertAt P k l weight delta = .ok g' ∧
      Settled rules ws g' (A.write ws.sum (Kept.logTimestamp g'.global) src des weight) ∧
      g.global.ticks ≤ g'.global.ticks ∧
      g'.global.isMixedWorkloads = g.global.isMixedWorkloads ∧ Untouched k g g' := by
  obtain ⟨v, at_k, -, kept⟩ := settled.vertex source
  obtain ⟨next, bitmap', info', inserted, clean', le, mixed, kept'⟩ :=
    kept.insert P settled.rate settled.clean (e := { weight := weight, idx := (l : Int) }) (by simp)
      permitted
  have inside := (List.getElem?_eq_some_iff.mp at_k).1
  refine ⟨{ g with
    vertexIndex := g.vertexIndex.setVertex k { v with next := next }
    bitmap := bitmap', global := info' }, ?_, ?_, le, mixed, by simp [SORT.setVertex], fun j u other at_j => ?_⟩
  · simp only [insertAt, SORT.vertexAt, at_k, ok_bind, inserted]
  · have closed := settled.closed.write (B := ws.sum) (Kept.logTimestamp info') src des weight
    rw [Ledger.write, source, target] at closed ⊢
    refine ⟨settled.index.setVertex at_k rfl rfl, clean', settled.rate, fun j u at_j => ?_, closed⟩
    simp only [SORT.setVertex, List.getElem?_set] at at_j
    by_cases here : k = j
    · subst here
      simp only [if_true, inside, Option.some.injEq] at at_j
      subst at_j
      simpa [Ledger.log] using kept'
    · rw [if_neg here] at at_j
      have old := (settled.kept j u at_j).later le
      simpa [Ledger.log, Ne.symm here, mixed] using old
  · simp only [SORT.setVertex, List.getElem?_set, if_neg (Ne.symm other)] at at_j
    exact .inl at_j

theorem logEdge_spec (P : Platform W) (settled : Settled rules ws g A) (src des : NodeID) (weight : W)
    (delta : Int) (permitted : ∀ k l, SORT.position ws.sum A.ids src = some k →
      SORT.position ws.sum A.ids des = some l →
      Carries.Permitted rules (replayEdges (A.hist k).edges) { weight := weight, idx := (l : Int) } delta) :
    ∃ b g', g.logEdge P src des weight delta = .ok (b, g') ∧
      Settled rules ws g' (A.write ws.sum (Kept.logTimestamp g'.global) src des weight) ∧
      g.global.ticks ≤ g'.global.ticks ∧
      g'.global.isMixedWorkloads = g.global.isMixedWorkloads := by
  obtain ⟨srcVertex, g₁, looked, settled₁, global₁, source⟩ := liveVertex_spec settled src
  rw [← global₁] at settled₁ ⊢
  cases known : SORT.position ws.sum A.ids src with
  | none =>
      rw [known] at source
      subst source
      refine ⟨false, g₁, by simp only [logEdge, looked, ok_bind], ?_, le_rfl, rfl⟩
      rw [Ledger.write, known]
      exact settled₁
  | some k =>
      rw [known] at source
      obtain ⟨v, -, -, rfl⟩ := source
      obtain ⟨desVertex, g₂, looked', settled₂, global₂, target⟩ := liveVertex_spec settled₁ des
      rw [← global₂] at settled₂ ⊢
      cases known' : SORT.position ws.sum A.ids des with
      | none =>
          rw [known'] at target
          subst target
          refine ⟨false, g₂, by simp only [logEdge, looked, looked', ok_bind], ?_, le_rfl, rfl⟩
          rw [Ledger.write, known, known']
          exact settled₂
      | some l =>
          rw [known'] at target
          obtain ⟨u, -, idx, rfl⟩ := target
          obtain ⟨g', inserted, settled', le, mixed, -⟩ := insertAt_spec P settled₂ known known' weight
            (permitted k l known known')
          refine ⟨true, g', ?_, settled', le, mixed⟩
          simp only [logEdge, looked, looked', ok_bind, idx, inserted]

theorem insertEdge_spec (P : Platform W) (settled : Settled rules ws g A) (src des : NodeID)
    {weight : W} (allowed : rules.Tidy → weight ≠ 0 ∧ A.edge ws.sum src des = none) :
    ∃ g', g.insertEdge P src des weight = .ok (true, g') ∧
      Settled rules ws g' (A.next ws.sum (Kept.logTimestamp g'.global) (.insertEdge src des weight)) ∧
      g.global.ticks ≤ g'.global.ticks ∧
      g'.global.isMixedWorkloads = g.global.isMixedWorkloads ∧
      ∃ k, SORT.position ws.sum (A.enter ws.sum src).ids src = some k ∧ Untouched k g g' := by
  obtain ⟨k, index, entered, source, settled₁, untouched₁⟩ := enterVertex_spec settled src
  obtain ⟨l, index', entered', target, settled₂, untouched₂⟩ := enterVertex_spec settled₁ des
  obtain ⟨u, at_l, idx, -⟩ := settled₂.vertex target
  have source' : SORT.position ws.sum ((A.enter ws.sum src).enter ws.sum des).ids src = some k := by
    rw [Ledger.enter, SORT.position_enter, source, Option.some_or]
  have fresh (tidy : rules.Tidy) : replayEdges (A.hist k).edges l = none := by
    have still : ((A.enter ws.sum src).enter ws.sum des).edge ws.sum src des = none := by
      rw [Ledger.edge, (settled.closed.enter src).edgeWhere_enter, settled.closed.edgeWhere_enter]
      exact (allowed tidy).2
    rw [Ledger.edge_of_positions source' target] at still
    exact Option.map_eq_none_iff.mp still
  obtain ⟨g', inserted, settled', le, mixed, untouched⟩ := insertAt_spec P settled₂ source' target weight
    (.insertion fun tidy => ⟨by simpa [WeightedEdge.live] using (allowed tidy).1, fresh tidy⟩)
  refine ⟨g', ?_, settled', le, mixed, k, source,
    (untouched₁ k).trans rfl ((untouched₂ k).trans rfl untouched)⟩
  simp only [insertEdge, entered, entered', ok_bind, SORT.vertexAt, at_l, idx, inserted]

/-! ## Snapshots of all vertices -/

structure Midway (rules : Rules) (ws : List Nat) (versioned : Bool) (g₀ : RadixGraph W) (A : Ledger W)
    (done : List Nat) (g : RadixGraph W) : Prop where
  index : g.vertexIndex.Dictionary ws A.ids
  clean : g.bitmap.Clean
  expandRate : g.expandRate = g₀.expandRate
  ticks : g₀.global.ticks ≤ g.global.ticks
  mixed : g.global.isMixedWorkloads = g₀.global.isMixedWorkloads
  kept : ∀ k v, g.vertexIndex.vertexTable[k]? = some v → Kept rules g.global.ticks
    (if k ∈ done then g.global.isMixedWorkloads else versioned) v (A.hist k)

theorem snapshotVertex_spec (P : Platform W) {g₀ : RadixGraph W} (rate : 1 < g₀.expandRate)
    (sortNeighbours makeDense : Bool) {done : List Nat} (midway : Midway rules ws versioned g₀ A done g)
    {i : Nat} (inside : i < A.ids.length) :
    ∃ g', snapshotVertex P sortNeighbours makeDense g i = .ok g' ∧
      Midway rules ws versioned g₀ A (done ++ [i]) g' := by
  have bound : i < g.vertexIndex.vertexTable.length := by rwa [midway.index.length]
  have at_i := List.getElem?_eq_getElem bound
  obtain ⟨next, older, newArr, bitmap', chain, compaction, clean', kept'⟩ :=
    (midway.kept i _ at_i).snapshot P (midway.expandRate ▸ rate) g.global midway.clean sortNeighbours
      makeDense
  refine ⟨{ g with
    vertexIndex := g.vertexIndex.setVertex i { g.vertexIndex.vertexTable[i] with
      next := sortEdges P sortNeighbours newArr :: older }
    bitmap := bitmap', global := g.global.tick }, ?_, midway.index.setVertex at_i rfl rfl, clean',
    midway.expandRate, midway.ticks.trans (by simp), midway.mixed, fun k v at_k => ?_⟩
  · simp only [snapshotVertex, SORT.vertexAt, at_i, ok_bind, chain, compaction]
  · simp only [SORT.setVertex, List.getElem?_set] at at_k
    by_cases here : i = k
    · subst here
      simp only [if_true, bound, Option.some.injEq] at at_k
      subst at_k
      simpa using kept'
    · rw [if_neg here] at at_k
      have old := (midway.kept k v at_k).later (Nat.le_succ g.global.ticks)
      simpa [Ne.symm here] using old

/-- `CreateSnapshots` compacts every array and makes it versioned in mixed mode. -/
theorem createSnapshots_spec (P : Platform W) (tracks : Tracks rules ws versioned g A)
    (sortNeighbours makeDense : Bool) :
    ∃ g', g.createSnapshots P sortNeighbours makeDense = .ok g' ∧ Settled rules ws g' A ∧
      g.global.ticks ≤ g'.global.ticks ∧
      g'.global.isMixedWorkloads = g.global.isMixedWorkloads := by
  have perm := P.order_perm g.global g.vertexIndex.cnt
  have start : Midway rules ws versioned g A [] g :=
    ⟨tracks.index, tracks.clean, rfl, le_rfl, rfl, fun k v at_k => by simpa using tracks.kept k v at_k⟩
  obtain ⟨g', looped, midway⟩ := foldlM_invariant (P.order g.global g.vertexIndex.cnt)
    (Midway rules ws versioned g A) (fun done i s earlier midway => by
      have member : i ∈ List.range g.vertexIndex.cnt :=
        perm.subset (earlier.subset (by simp))
      exact snapshotVertex_spec P tracks.rate sortNeighbours makeDense midway
        (by rwa [List.mem_range, tracks.index.cnt] at member)) start
  refine ⟨{ g' with isSorted := sortNeighbours }, ?_, ⟨midway.index, midway.clean,
    midway.expandRate ▸ tracks.rate, fun k v at_k => ?_, tracks.closed⟩, midway.ticks, midway.mixed⟩
  · rw [createSnapshots, looped, ok_bind]
  · have inside : k ∈ P.order g.global g.vertexIndex.cnt := by
      have := (List.getElem?_eq_some_iff.mp at_k).1
      rw [midway.index.length] at this
      exact perm.mem_iff.mpr (by rwa [List.mem_range, tracks.index.cnt])
    have kept := midway.kept k v at_k
    rwa [if_pos inside] at kept

end RadixGraph

end Radix
