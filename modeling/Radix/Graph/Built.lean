import Radix.Graph.Translation

/-!
# Graphs built by insertions

Where a run only inserts edges and takes snapshots, every page holds the edges inserted at its vertex, and
a read of the present lists a last entry for each of their destinations.
-/

namespace Radix

open Lib Lib.LastWrite

namespace RadixGraph

variable {W : Type} [Zero W]

def Action.Builds : Action W → Prop
  | .op (.insertEdge _ _ weight) => weight ≠ 0
  | .op (.updateEdge ..) | .op (.deleteEdge ..) | .deleteVertex _ => False
  | _ => True

def Action.edge : Action W → Option (NodeID × NodeID × W)
  | .op (.insertEdge src des weight) => some (src, des, weight)
  | _ => none

def insertedEdges (acts : List (Action W)) : List (NodeID × NodeID × W) := acts.filterMap Action.edge

omit [Zero W] in
theorem insertedEdges_snoc (acts : List (Action W)) (action : Action W) :
    insertedEdges (acts ++ [action]) = insertedEdges acts ++ action.edge.toList := by
  rw [insertedEdges, List.filterMap_append]
  cases edge : action.edge <;> simp [insertedEdges, edge]

omit [Zero W] in
theorem mem_vertexOrder_of_edge [DecidableEq W] {acts : List (Action W)} {u v : NodeID} {w : W}
    (member : (u, v, w) ∈ insertedEdges acts) : u ∈ vertexOrder acts ∧ v ∈ vertexOrder acts := by
  obtain ⟨action, inside, edge⟩ := List.mem_filterMap.mp member
  have both : u ∈ action.inserted ∧ v ∈ action.inserted := by
    match action, edge with
    | .op (.insertEdge _ _ _), rfl => simp [Action.inserted]
  constructor
  · exact List.mem_eraseDups.mpr (List.mem_flatMap.mpr ⟨action, inside, both.1⟩)
  · exact List.mem_eraseDups.mpr (List.mem_flatMap.mpr ⟨action, inside, both.2⟩)

structure Neighbours (order : List NodeID) (inserted : List (NodeID × NodeID × W)) (k : Nat)
    (listed : List (WeightedEdge W)) : Prop where
  sound : ∀ e ∈ listed, ∃ u v, ∃ l : Nat, order[k]? = some u ∧ order[l]? = some v ∧ e.idx = l ∧
    (u, v, e.weight) ∈ inserted
  complete : ∀ u v w, (u, v, w) ∈ inserted → order[k]? = some u →
    ∃ l : Nat, order[l]? = some v ∧ ∃ e ∈ listed, e.idx = l
  nodup : (inserted.map fun edge => (edge.1, edge.2.1)).Nodup → (listed.map WeightedEdge.idx).Nodup

end RadixGraph

theorem still_stands {α : Type} {xs ys : List α} (earlier : xs <+: ys) {i : Nat} {x : α} (here : xs[i]? = some x) :
    ys[i]? = some x := by
  obtain ⟨rest, rfl⟩ := earlier
  rw [List.getElem?_append_left (List.getElem?_eq_some_iff.mp here).1, here]

theorem one_place {α : Type} {xs : List α} (distinct : xs.Nodup) {i j : Nat} {x : α} (here : xs[i]? = some x)
    (there : xs[j]? = some x) : i = j :=
  (List.getElem?_inj (List.getElem?_eq_some_iff.mp here).1 distinct).mp (here.trans there.symm)

namespace Page

open RadixGraph

variable {W : Type} [Zero W]

def entries (p : Page W) : List (WeightedEdge W) := p.snap ++ p.log

/-- The page of the vertex `k` holds one entry for each insertion of an edge there. -/
structure Enumerates [DecidableEq W] (order : List NodeID) (inserted : List (NodeID × NodeID × W)) (k : Nat)
    (p : Page W) : Prop where
  deg : p.deg = p.size
  live : ∀ e ∈ p.entries, e.live
  entry : ∀ e ∈ p.entries, ∃ u v, ∃ l : Nat, order[k]? = some u ∧ order[l]? = some v ∧ e.idx = l ∧
    (u, v, e.weight) ∈ inserted
  all : ∀ u v w, (u, v, w) ∈ inserted → order[k]? = some u →
    ∃ l : Nat, order[l]? = some v ∧ { weight := w, idx := (l : Int) } ∈ p.entries
  nodup : (inserted.map fun edge => (edge.1, edge.2.1)).Nodup → (p.entries.map WeightedEdge.idx).Nodup

namespace Enumerates

variable [DecidableEq W] {order order' : List NodeID} {inserted : List (NodeID × NodeID × W)} {k : Nat}
  {p p' : Page W}

theorem kept (lists : p.Enumerates order inserted k) : p.kept = p.entries := by
  rw [Page.kept, if_pos lists.deg.symm, entries]

theorem of_perm (lists : p.Enumerates order inserted k) (deg : p'.deg = p'.size) (perm : p'.entries.Perm p.entries) :
    p'.Enumerates order inserted k where
  deg := deg
  live e member := lists.live e (perm.subset member)
  entry e member := lists.entry e (perm.subset member)
  all u v w member here := by
    obtain ⟨l, there, listed⟩ := lists.all u v w member here
    exact ⟨l, there, perm.symm.subset listed⟩
  nodup distinct := (perm.map _).nodup_iff.mpr (lists.nodup distinct)

theorem extend (lists : p.Enumerates order inserted k) (earlier : order <+: order') (distinct : order'.Nodup)
    (known : ∀ u v w, (u, v, w) ∈ inserted → u ∈ order) : p.Enumerates order' inserted k where
  deg := lists.deg
  live := lists.live
  entry e member := by
    obtain ⟨u, v, l, here, there, rest⟩ := lists.entry e member
    exact ⟨u, v, l, still_stands earlier here, still_stands earlier there, rest⟩
  all u v w member here := by
    obtain ⟨j, at_j⟩ := List.getElem?_of_mem (known u v w member)
    have at_j' := still_stands earlier at_j
    have same : k = j := one_place distinct here at_j'
    obtain ⟨l, there, listed⟩ := lists.all u v w member (same ▸ at_j)
    exact ⟨l, still_stands earlier there, listed⟩
  nodup := lists.nodup

theorem fresh (info : GlobalInfo) (unused : ∀ u v w, (u, v, w) ∈ inserted → order[k]? ≠ some u) :
    (Page.fresh info : Page W).Enumerates order inserted k where
  deg := rfl
  live e member := by cases member
  entry e member := by cases member
  all u v w member here := absurd here (unused u v w member)
  nodup _ := List.nodup_nil

theorem other (lists : p.Enumerates order inserted k) {src des : NodeID} {weight : W}
    (elsewhere : order[k]? ≠ some src) :
    p.Enumerates order (inserted ++ [(src, des, weight)]) k where
  deg := lists.deg
  live := lists.live
  entry e member := by
    obtain ⟨u, v, l, here, there, idx, old⟩ := lists.entry e member
    exact ⟨u, v, l, here, there, idx, List.mem_append_left _ old⟩
  all u v w member here := by
    rcases List.mem_append.mp member with old | new
    · exact lists.all u v w old here
    · cases List.mem_singleton.mp new
      exact absurd here elsewhere
  nodup distinct := lists.nodup (by
    rw [List.map_append] at distinct
    exact distinct.of_append_left)

theorem logged (lists : p.Enumerates order inserted k) (ticks : Nat) {src des : NodeID} {weight : W} {l : Nat}
    (alive : weight ≠ 0) (source : order[k]? = some src) (target : order[l]? = some des) :
    (p.logged ticks { weight := weight, idx := (l : Int) } 1).Enumerates order (inserted ++ [(src, des, weight)]) k := by
  have entries : (p.logged ticks { weight := weight, idx := (l : Int) } 1).entries =
      p.entries ++ [{ weight := weight, idx := (l : Int) }] := by
    simp [Page.entries, Page.logged]
  constructor
  · have deg := lists.deg
    simp only [Page.logged, size, List.length_append, List.length_singleton] at deg ⊢
    push_cast at deg ⊢
    rw [deg, Int.add_assoc]
  · intro e member
    rw [entries] at member
    rcases List.mem_append.mp member with old | new
    · exact lists.live e old
    · rw [List.mem_singleton.mp new]
      simpa [WeightedEdge.live] using alive
  · intro e member
    rw [entries] at member
    rcases List.mem_append.mp member with old | new
    · obtain ⟨u, v, j, here, there, idx, before⟩ := lists.entry e old
      exact ⟨u, v, j, here, there, idx, List.mem_append_left _ before⟩
    · rw [List.mem_singleton.mp new]
      exact ⟨src, des, l, source, target, rfl, by simp⟩
  · intro u v w member here
    rw [entries]
    rcases List.mem_append.mp member with old | new
    · obtain ⟨j, there, listed⟩ := lists.all u v w old here
      exact ⟨j, there, List.mem_append_left _ listed⟩
    · cases List.mem_singleton.mp new
      exact ⟨l, target, by simp⟩
  · intro distinct
    rw [List.map_append, List.nodup_append] at distinct
    obtain ⟨before, -, apart⟩ := distinct
    rw [entries, List.map_append, List.nodup_append]
    refine ⟨lists.nodup before, List.nodup_singleton _, fun i old j new same => ?_⟩
    obtain ⟨e, member, idx⟩ := List.mem_map.mp old
    obtain ⟨u, v, m, here, there, idx', earlier⟩ := lists.entry e member
    simp only [List.map_cons, List.map_nil, List.mem_singleton] at new
    have position : m = l := by
      rw [idx', same, new] at idx
      exact Int.ofNat_inj.mp idx
    subst position
    obtain rfl := Option.some.inj (here.symm.trans source)
    obtain rfl := Option.some.inj (there.symm.trans target)
    exact apart _ (List.mem_map.mpr ⟨_, earlier, rfl⟩) _ (by simp) rfl

end Enumerates

def present [DecidableEq W] (p : Page W) : List (WeightedEdge W) := listed [] p.snap p.log

variable [DecidableEq W] {order : List NodeID} {inserted : List (NodeID × NodeID × W)} {k : Nat} {p : Page W}

theorem read_present {rules : Rules} {ticks : Nat} {past h : History W}
    (carries : Carries rules ticks p.deg p.snapshotTimestamp p.snap p.log p.stamps past h) :
    p.read maxTimestamp = (true, p.present) := by
  rw [Page.read, if_pos carries.shown.1, carries.visible_all, present]

theorem mem_entries_of_present {e : WeightedEdge W} (member : e ∈ p.present) : e ∈ p.entries := by
  rw [present, listed] at member
  split at member
  · exact List.mem_append_left _ member
  · rw [List.nil_append] at member
    exact List.mem_append.mpr (mem_of_mem_scan member)

theorem Enumerates.present_idx (lists : p.Enumerates order inserted k) {e : WeightedEdge W} (member : e ∈ p.entries) :
    ∃ d ∈ p.present, d.idx = e.idx := by
  rw [present, listed]
  split
  next empty => exact ⟨e, by simpa [entries, empty] using member, rfl⟩
  next =>
    rw [List.nil_append]
    by_cases logged : e.idx ∈ p.log.map WeightedEdge.idx
    · obtain ⟨c, inside, same⟩ := List.mem_map.mp logged
      obtain ⟨d, found⟩ : ∃ d, p.log.reverse.find? (fun d => d.idx = e.idx) = some d := by
        rw [← Option.isSome_iff_exists, List.find?_isSome]
        exact ⟨c, List.mem_reverse.mpr inside, by simpa using same⟩
      have here : d.idx = e.idx := by simpa using List.find?_some found
      have there : d ∈ p.log := List.mem_reverse.mp (List.mem_of_find?_eq_some found)
      rw [← here] at found
      exact ⟨d, mem_scan.mpr ⟨lists.live d (List.mem_append_right _ there), .inl found⟩, here⟩
    · have old : e ∈ p.snap := (List.mem_append.mp member).resolve_right fun inside =>
        logged (List.mem_map.mpr ⟨e, inside, rfl⟩)
      exact ⟨e, mem_scan.mpr ⟨lists.live e member, .inr ⟨logged, old⟩⟩, rfl⟩

theorem Enumerates.present_perm (lists : p.Enumerates order inserted k)
    (distinct : (p.entries.map WeightedEdge.idx).Nodup) :
    p.present.Perm p.entries := by
  rw [present, listed]
  split
  next empty => simp [entries, empty]
  next => exact scan_perm distinct lists.live

theorem Enumerates.neighbours (lists : p.Enumerates order inserted k) : Neighbours order inserted k p.present where
  sound e member := lists.entry e (mem_entries_of_present member)
  complete u v w member here := by
    obtain ⟨l, there, entry⟩ := lists.all u v w member here
    obtain ⟨e, listed, same⟩ := lists.present_idx entry
    exact ⟨l, there, e, listed, same⟩
  nodup distinct := by
    have entries := lists.nodup distinct
    exact ((lists.present_perm entries).map _).nodup_iff.mpr entries

end Page

namespace RadixGraph

variable {W : Type} [Zero W]

variable [DecidableEq W]

/-! ## Runs -/

variable {ws : List Nat} {g g' : RadixGraph W} {A : Ledger W}

/-- What is known after a run of insertions: the vertices in their order, none of them deleted, and pages
that list the inserted edges. -/
structure BuiltBy (ws : List Nat) (order : List NodeID) (inserted : List (NodeID × NodeID × W)) (g : RadixGraph W)
    (A : Ledger W) : Prop where
  inRange : InRange ws g A
  ids : A.ids = order
  alive : ∀ k, g.gone k = -1
  lists : ∀ k p, g.Paged k p → p.Enumerates order inserted k

omit [Zero W] [DecidableEq W] in
theorem vertexOrder_prefix (acts : List (Action W)) (action : Action W) :
    vertexOrder acts <+: vertexOrder (acts ++ [action]) := by
  rw [vertexOrder, vertexOrder, List.flatMap_append, List.eraseDups_append]
  exact List.prefix_append _ _

theorem InRange.distinct (inRange : InRange ws g A) : A.ids.Nodup := inRange.holds.dictionary.distinct.of_map _

omit [DecidableEq W] in
theorem Action.Builds.cases {action : Action W} (builds : action.Builds) :
    (∃ src des weight, action = .op (.insertEdge src des weight) ∧ weight ≠ 0) ∨
      action.edge = none ∧ action.inserted = [] ∧
        (∀ (B : Nat) (A : Ledger W) gone, A.entry B gone action = none) ∧ ∀ id, action ≠ .deleteVertex id := by
  match action, builds with
  | .op (.insertEdge src des weight), alive => exact .inl ⟨src, des, weight, rfl, alive⟩
  | .op (.createSnapshots _ _), _ | .op (.setExpandRate _), _ | .op .getGlobalTimestamp, _
  | .op (.getNeighbours _ _), _ | .getNeighboursByOffset _ _, _ =>
      exact .inr ⟨rfl, rfl, fun _ _ _ => rfl, nofun⟩

end RadixGraph

namespace Page

open RadixGraph

variable {W : Type} [Zero W] [DecidableEq W]

theorem Enumerates.quiet {order : List NodeID} {inserted : List (NodeID × NodeID × W)} {action : Action W}
    {info : GlobalInfo} {ticks k : Nat} {p p' : Page W} (lists : p.Enumerates order inserted k)
    (turned : Turned none action info ticks k p p') : p'.Enumerates order inserted k := by
  cases turned with
  | logs e delta p' entry => cases entry
  | snapshot sorted makeDense p' same snapshot =>
      cases snapshot with
      | mk drawn free snap perm =>
          refine lists.of_perm ?_ ?_
          · simp [Page.ofSnapshot, Page.size]
          · rw [← lists.kept]
            simpa [Page.ofSnapshot, Page.entries] using perm
  | same => exact lists

theorem Enumerates.inserts {order : List NodeID} {inserted : List (NodeID × NodeID × W)}
    {src des : NodeID} {weight : W} {info : GlobalInfo} {ticks j k l : Nat} {p p' : Page W}
    (lists : p.Enumerates order inserted k) (distinct : order.Nodup) (alive : weight ≠ 0)
    (source : order[j]? = some src) (target : order[l]? = some des)
    (turned : Turned (some (j, { weight := weight, idx := (l : Int) }, 1)) (.op (.insertEdge src des weight))
      info ticks k p p') : p'.Enumerates order (inserted ++ [(src, des, weight)]) k := by
  cases turned with
  | logs e delta p' entry logs =>
      cases entry
      cases logs with
      | room => exact lists.logged _ alive source target
      | full drawn free =>
          have compacted : (Page.ofSnapshot info drawn p.kept (free + 1)).Enumerates order inserted j := by
            refine lists.of_perm ?_ ?_
            · simp [Page.ofSnapshot, Page.size]
            · rw [← lists.kept]
              simp [Page.ofSnapshot, Page.entries]
          exact compacted.logged _ alive source target
  | snapshot sorted makeDense p' same => cases same
  | same elsewhere =>
      refine lists.other fun here => ?_
      have same := one_place distinct source here
      exact elsewhere _ _ (by rw [same])

end Page

namespace RadixGraph

variable {W : Type} [Zero W] [DecidableEq W] {ws : List Nat} {g g' : RadixGraph W} {A : Ledger W}

theorem InRange.position_of_mem (inRange : InRange ws g A) {id : NodeID} (known : id ∈ A.ids) :
    ∃ k, SORT.position ws.sum A.ids id = some k ∧ A.ids[k]? = some id := by
  have small := inRange.ids id known
  cases found : SORT.position ws.sum A.ids id with
  | none => exact absurd known ((SORT.position_none_inRange inRange.ids small).mp found)
  | some k => exact ⟨k, rfl, SORT.position_some_inRange inRange.ids small found⟩

theorem BuiltBy.position {order : List NodeID} {inserted : List (NodeID × NodeID × W)}
    (built : BuiltBy ws order inserted g A)
    {id : NodeID} {k : Nat} (existing : order[k]? = some id) :
    SORT.position ws.sum A.ids id = some k ∧ k < A.ids.length := by
  obtain rfl := built.ids
  obtain ⟨j, place, here⟩ := built.inRange.position_of_mem (List.mem_of_getElem? existing)
  obtain rfl : k = j := one_place built.inRange.distinct existing here
  exact ⟨place, (List.getElem?_eq_some_iff.mp existing).1⟩

theorem BuiltBy.act (P : Platform W) {acts : List (Action W)} {action : Action W}
    (built : BuiltBy ws (vertexOrder acts) (insertedEdges acts) g A) (builds : action.Builds)
    (small : ∀ id ∈ action.ids, id < 2 ^ ws.sum)
    (bounded : ∀ a ∈ acts.flatMap Action.inserted, a < 2 ^ ws.sum) :
    ∃ g' A', RadixGraph.act P g action = .ok g' ∧
      BuiltBy ws (vertexOrder (acts ++ [action])) (insertedEdges (acts ++ [action])) g' A' := by
  obtain ⟨g', acted, inRange'⟩ := built.inRange.act P small
  obtain ⟨g'', acted', -, gone', -⟩ := act_holds P id built.inRange.holds (Ledger.admits_lax ws.sum A action)
  obtain rfl := Except.ok.inj (acted'.symm.trans acted)
  have ids : (A.liveNext ws.sum g.gone (Kept.logTimestamp g''.global) action).ids = vertexOrder (acts ++ [action]) := by
    rw [liveNext_inserted bounded built.ids small, vertexOrder, List.flatMap_append, List.flatMap_singleton]
  have distinct := inRange'.distinct
  rw [ids] at distinct
  have earlier := vertexOrder_prefix acts action
  have source_known : ∀ u v w, (u, v, w) ∈ insertedEdges acts → u ∈ vertexOrder acts :=
    fun u v w member => (mem_vertexOrder_of_edge member).1
  refine ⟨g'', _, acted, inRange', ids, fun k => ?_, fun k p' paged => ?_⟩
  · rw [gone']
    rcases builds.cases with ⟨src, des, weight, rfl, -⟩ | ⟨-, -, -, calm⟩
    · exact built.alive k
    · cases action with
      | deleteVertex id => exact absurd rfl (calm id)
      | _ => exact built.alive k
  · obtain ⟨p, before, turned⟩ := act_pages P built.inRange.holds acted paged
    have listed : p.Enumerates (vertexOrder (acts ++ [action])) (insertedEdges acts) k := by
      rcases before with old | ⟨new, rfl⟩
      · exact (built.lists k p old).extend earlier distinct source_known
      · refine Page.Enumerates.fresh g.global fun u v w member here => ?_
        obtain ⟨j, at_j⟩ := List.getElem?_of_mem (source_known u v w member)
        have inside := (List.getElem?_eq_some_iff.mp at_j).1
        have same := one_place distinct here (still_stands earlier at_j)
        rw [built.ids] at new
        omega
    rw [insertedEdges_snoc]
    rcases builds.cases with ⟨src, des, weight, rfl, alive⟩ | ⟨edge, -, entry, -⟩
    · have entered : SORT.enter ws.sum (SORT.enter ws.sum A.ids src) des =
          vertexOrder (acts ++ [.op (.insertEdge src des weight)]) := by
        rw [← ids]
        exact (Ledger.write_ids (A := (A.enter ws.sum src).enter ws.sum des) _ src des weight).symm
      have known : src ∈ vertexOrder (acts ++ [.op (.insertEdge src des weight)]) ∧
          des ∈ vertexOrder (acts ++ [.op (.insertEdge src des weight)]) :=
        mem_vertexOrder_of_edge (w := weight) (by rw [insertedEdges_snoc]; simp [Action.edge])
      obtain ⟨j, at_j, source⟩ := inRange'.position_of_mem (ids ▸ known.1)
      obtain ⟨l, at_l, target⟩ := inRange'.position_of_mem (ids ▸ known.2)
      rw [ids] at at_j at_l source target
      have entry : A.entry ws.sum g.gone (.op (.insertEdge src des weight)) =
          some (j, { weight := weight, idx := (l : Int) }, 1) := by
        simp only [Ledger.entry, entered, at_j, at_l]
      rw [entry] at turned
      exact listed.inserts distinct alive source target turned
    · rw [entry] at turned
      rw [edge, Option.toList_none, List.append_nil]
      exact listed.quiet turned

theorem builds_built (P : Platform W) (global : GlobalInfo) {index : SORT W}
    (constructed : SORT.Constructed index ws) {L : Nat} (positive : 0 < L) {acts : List (Action W)}
    (builds : ∀ action ∈ acts, action.Builds)
    (small : ∀ action ∈ acts, ∀ id ∈ action.ids, id < 2 ^ ws.sum) :
    ∃ g A, actions P (construct global index L positive) acts = .ok g ∧
      BuiltBy ws (vertexOrder acts) (insertedEdges acts) g A := by
  have start : BuiltBy ws (vertexOrder ([] : List (Action W))) (insertedEdges []) (construct global index L positive)
      {} := by
    have inRange := InRange.start global constructed positive
    exact ⟨inRange, rfl, fun k => inRange.holds.gone_unborn (Nat.zero_le k),
      fun k p paged => absurd (paged.inside inRange.holds) (Nat.not_lt_zero k)⟩
  have step (done : List (Action W)) (action : Action W) (g : RadixGraph W) (earlier : done ++ [action] <+: acts)
      (before : ∃ A, BuiltBy ws (vertexOrder done) (insertedEdges done) g A) :
      ∃ g', RadixGraph.act P g action = .ok g' ∧
        ∃ A, BuiltBy ws (vertexOrder (done ++ [action])) (insertedEdges (done ++ [action])) g' A := by
    obtain ⟨A, built⟩ := before
    have member : action ∈ acts := earlier.subset (by simp)
    obtain ⟨g', A', acted, built'⟩ := built.act P (builds action member) (small action member) (by
      intro a inserted
      obtain ⟨action', inside, inserted⟩ := List.mem_flatMap.mp inserted
      exact small action' (earlier.subset (by simp [inside])) a (Action.inserted_ids inserted))
    exact ⟨g', acted, A', built'⟩
  obtain ⟨g, ran, A, built⟩ := foldlM_invariant acts
    (fun done g => ∃ A, BuiltBy ws (vertexOrder done) (insertedEdges done) g A) step ⟨{}, start⟩
  exact ⟨g, A, ran, built⟩

end RadixGraph

end Radix
