import Radix.Graph.Identity

/-!
# Deleted vertices

`DeleteVertex` marks the record of a vertex and leaves everything else as it is. A graph with deleted
vertices is thus a graph without any, and beside it a list of deletion times.
-/

namespace Radix

open Lib Lib.LastWrite

variable {W : Type} [Zero W]

def Vertex.revived (v : Vertex W) : Vertex W := { v with delTime := -1 }

namespace SORT

def revived (t : SORT W) : SORT W := { t with vertexTable := t.vertexTable.map Vertex.revived }

theorem vertexAt_revived (t : SORT W) (k : Nat) :
    t.revived.vertexAt k = (t.vertexAt k).map Vertex.revived := by
  rw [vertexAt, vertexAt, revived, List.getElem?_map]
  cases t.vertexTable[k]? <;> rfl

theorem getElem?_of_vertexAt {t : SORT W} {k : Nat} {v : Vertex W} (at_k : t.vertexAt k = .ok v) :
    t.vertexTable[k]? = some v := by
  unfold vertexAt at at_k
  split at at_k
  · cases at_k
  · cases at_k
    assumption

theorem setVertex_revived (t : SORT W) (k : Nat) (v : Vertex W) :
    (t.setVertex k v).revived = t.revived.setVertex k v.revived := by
  simp [revived, setVertex, List.map_set]

theorem newVertex_revived (info : GlobalInfo) (t : SORT W) (id : NodeID) :
    (newVertex info t id).revived = newVertex info t.revived id := by
  simp [revived, newVertex, Vertex.revived]

theorem insertVertex_revived (info : GlobalInfo) (id : NodeID) (levels : Nat) (t : SORT W)
    (current : Ptr) : insertVertex info id levels t.revived current =
      (insertVertex info id levels t current).map fun r => (r.1, r.2.1, r.2.2.revived) := by
  induction levels generalizing t current with
  | zero => rfl
  | succ below ih =>
      simp only [insertVertex]
      rw [map_bind]
      congr 1
      funext child
      split
      · rw [ih, bind_map, map_bind]
        rfl
      · split
        · have count : t.revived.vertexTable.length = t.vertexTable.length := List.length_map ..
          rw [count, ← newVertex_revived]
          rfl
        · rfl

theorem retrieveFrom_revived (info : GlobalInfo) (id : NodeID) (insertMode : Bool) (levels : Nat)
    (t : SORT W) (current : Ptr) : retrieveFrom info id insertMode levels t.revived current =
      (retrieveFrom info id insertMode levels t current).map fun r => (r.1, r.2.1, r.2.2.revived) := by
  induction levels generalizing t current with
  | zero => rfl
  | succ below ih =>
      simp only [retrieveFrom]
      rw [map_bind]
      congr 1
      funext child
      split
      · split
        · exact insertVertex_revived ..
        · rfl
      · split
        · rfl
        · rw [ih, bind_map, map_bind]
          rfl

theorem retrieveVertex_revived (info : GlobalInfo) (t : SORT W) (id : NodeID) (insertMode : Bool) :
    t.revived.retrieveVertex info id insertMode =
      (t.retrieveVertex info id insertMode).map fun r => (r.1, r.2.revived) := by
  have rooted : t.revived.ensureRoot = t.ensureRoot.map revived := by
    unfold ensureRoot
    by_cases null : t.root.isNull
    · by_cases none : t.numBits = [] <;> simp [revived, null, none, Except.map]
    · simp [revived, null, Except.map]
  rw [retrieveVertex, retrieveVertex, rooted, bind_map, map_bind]
  congr 1
  funext t
  rw [map_bind]
  change (retrieveFrom info id insertMode t.depth t.revived t.root >>= _) = _
  rw [retrieveFrom_revived, bind_map]
  rfl

end SORT

namespace RadixGraph

def revived (g : RadixGraph W) : RadixGraph W := { g with vertexIndex := g.vertexIndex.revived }

def gone (g : RadixGraph W) (k : Nat) : Int := (g.vertexIndex.vertexTable[k]?).elim (-1) Vertex.delTime

def deleteVertex (g : RadixGraph W) (id : NodeID) : Result (Bool × RadixGraph W) := do
  let (found, index) ← g.vertexIndex.deleteVertex g.global id
  .ok (found, { g with vertexIndex := index })

theorem enterVertex_revived (g : RadixGraph W) (id : NodeID) :
    g.revived.enterVertex id = (g.enterVertex id).map fun r => (r.1, r.2.revived) := by
  rw [enterVertex, enterVertex, map_bind]
  change (g.vertexIndex.revived.retrieveVertex g.global id true >>= _) = _
  rw [SORT.retrieveVertex_revived, bind_map]
  congr 1
  funext r
  obtain ⟨ptr, index⟩ := r
  cases ptr <;> rfl

variable [DecidableEq W]

theorem insert_revived (P : Platform W) (expandRate : ℚ) (info : GlobalInfo) (bitmap : SegmentedBitmap)
    (src : Vertex W) (des : Int) (weight : W) (deltaDeg : Int) :
    Radix.insert P expandRate info bitmap src.revived des weight deltaDeg =
      (Radix.insert P expandRate info bitmap src des weight deltaDeg).map fun r =>
        (r.1.revived, r.2) := by
  rw [Radix.insert, Radix.insert, map_bind]
  change (claimSlot P expandRate insertRounds info bitmap src.next >>= _) = _
  congr 1
  funext r
  obtain ⟨i, chain, bitmap, info⟩ := r
  cases chain with
  | nil => rfl
  | cons next older =>
      simp only
      rw [map_bind]
      congr 1
      funext r
      rw [map_bind]
      rfl

theorem insertAt_revived (P : Platform W) (g : RadixGraph W) (k : Nat) (des : Int) (weight : W)
    (deltaDeg : Int) : g.revived.insertAt P k des weight deltaDeg =
      (g.insertAt P k des weight deltaDeg).map revived := by
  rw [insertAt, insertAt, map_bind]
  change (g.vertexIndex.revived.vertexAt k >>= _) = _
  rw [SORT.vertexAt_revived, bind_map]
  congr 1
  funext v
  rw [insert_revived, bind_map, map_bind]
  congr 1
  funext r
  change Except.ok { g with vertexIndex := (g.vertexIndex.revived).setVertex k r.1.revived, bitmap := _, global := _ } = _
  rw [← SORT.setVertex_revived]
  rfl

theorem insertEdge_revived (P : Platform W) (g : RadixGraph W) (src des : NodeID) (weight : W) :
    g.revived.insertEdge P src des weight =
      (g.insertEdge P src des weight).map fun r => (r.1, r.2.revived) := by
  rw [insertEdge, insertEdge, map_bind, enterVertex_revived, bind_map]
  congr 1
  funext r
  change (r.2.revived.enterVertex des >>= _) = _
  rw [map_bind, enterVertex_revived, bind_map]
  congr 1
  funext r'
  rw [map_bind]
  change (r'.2.vertexIndex.revived.vertexAt r'.1 >>= _) = _
  rw [SORT.vertexAt_revived, bind_map]
  congr 1
  funext v
  rw [map_bind]
  change (r'.2.revived.insertAt P r.1 v.idx weight 1 >>= _) = _
  rw [insertAt_revived, bind_map]
  rfl

theorem snapshotVertex_revived (P : Platform W) (sortNeighbours makeDense : Bool) (g : RadixGraph W)
    (i : Nat) : snapshotVertex P sortNeighbours makeDense g.revived i =
      (snapshotVertex P sortNeighbours makeDense g i).map revived := by
  rw [snapshotVertex, snapshotVertex, map_bind]
  change (g.vertexIndex.revived.vertexAt i >>= _) = _
  rw [SORT.vertexAt_revived, bind_map]
  congr 1
  funext v
  obtain ⟨node, idx, delTime, chain⟩ := v
  cases chain with
  | nil => rfl
  | cons next older =>
      simp only [Vertex.revived]
      rw [map_bind]
      change (logCompaction g.global g.bitmap next _ >>= _) = _
      congr 1
      funext r
      simp only [Except.map]
      rw [revived, revived, SORT.setVertex_revived]
      rfl

theorem createSnapshots_revived (P : Platform W) (g : RadixGraph W) (sortNeighbours makeDense : Bool) :
    g.revived.createSnapshots P sortNeighbours makeDense =
      (g.createSnapshots P sortNeighbours makeDense).map revived := by
  rw [createSnapshots, createSnapshots, map_bind]
  change (List.foldlM (snapshotVertex P sortNeighbours makeDense) g.revived
    (P.order g.global g.vertexIndex.cnt) >>= _) = _
  rw [foldlM_map (snapshotVertex_revived P sortNeighbours makeDense), bind_map]
  rfl

/-! ## Deletion times under the operations -/

omit [DecidableEq W] in
theorem gone_setVertex (g : RadixGraph W) (index : SORT W) {k : Nat} {v v' : Vertex W}
    (at_k : index.vertexTable[k]? = some v) (same : v'.delTime = v.delTime)
    (before : ({ g with vertexIndex := index } : RadixGraph W).gone = g.gone) :
    ({ g with vertexIndex := index.setVertex k v' } : RadixGraph W).gone = g.gone := by
  rw [← before]
  funext j
  simp only [gone, SORT.setVertex, List.getElem?_set]
  by_cases here : k = j
  · subst here
    obtain ⟨inside, rfl⟩ := List.getElem?_eq_some_iff.mp at_k
    simp [inside, same]
  · rw [if_neg here]

theorem insertAt_gone (P : Platform W) {g g' : RadixGraph W} {k : Nat} {des : Int} {weight : W}
    {deltaDeg : Int} (ran : g.insertAt P k des weight deltaDeg = .ok g') : g'.gone = g.gone := by
  obtain ⟨v, at_k, ran⟩ := bind_eq_ok.mp ran
  obtain ⟨⟨v', bitmap, info⟩, inserted, ⟨⟩⟩ := bind_eq_ok.mp ran
  obtain ⟨⟨i, chain, bitmap₁, info₁⟩, -, stored⟩ := bind_eq_ok.mp inserted
  have there := SORT.getElem?_of_vertexAt at_k
  have same : v'.delTime = v.delTime := by
    cases chain with
    | nil => cases stored
    | cons next older =>
        obtain ⟨⟨next₁, info₂⟩, -, stored⟩ := bind_eq_ok.mp stored
        obtain ⟨next₂, -, ⟨⟩⟩ := bind_eq_ok.mp stored
        rfl
  exact gone_setVertex g g.vertexIndex there same rfl

theorem snapshotVertex_gone (P : Platform W) (sortNeighbours makeDense : Bool) {g g' : RadixGraph W}
    {i : Nat} (ran : snapshotVertex P sortNeighbours makeDense g i = .ok g') : g'.gone = g.gone := by
  obtain ⟨v, at_i, ran⟩ := bind_eq_ok.mp ran
  have there := SORT.getElem?_of_vertexAt at_i
  split at ran
  · cases ran
  · obtain ⟨⟨newArray, bitmap, info⟩, -, ⟨⟩⟩ := bind_eq_ok.mp ran
    exact gone_setVertex g g.vertexIndex there rfl rfl

theorem createSnapshots_gone (P : Platform W) (sortNeighbours makeDense : Bool) {g g' : RadixGraph W}
    (ran : g.createSnapshots P sortNeighbours makeDense = .ok g') : g'.gone = g.gone := by
  obtain ⟨g₁, looped, ⟨⟩⟩ := bind_eq_ok.mp ran
  have keeps (s : RadixGraph W) (i : Nat) (s' : RadixGraph W) (before : s.gone = g.gone)
      (taken : snapshotVertex P sortNeighbours makeDense s i = .ok s') : s'.gone = g.gone :=
    (snapshotVertex_gone P sortNeighbours makeDense taken).trans before
  have kept : g₁.gone = g.gone := foldlM_keeps keeps looped rfl
  exact kept

end RadixGraph

end Radix
