import Radix.Sort.Calls

/-!
# The tree with garbage collection

With `ENABLE_GARBAGE_COLLECTION` set to 1 a deletion puts the index of the record into a queue, and
the next new record takes its index from there, but its place at the end of `vertex_table`.
-/

namespace Radix

open Lib

variable {W : Type} [Zero W]

structure CollectedSORT (W : Type) [Zero W] extends SORT W where
  /-- A FIFO queue, its front first. -/
  deletedSlots : List Int := []

namespace CollectedSORT

/-- `deleted_slots.try_pop(i)` with `i = -1` before it, and the queue afterwards. -/
def tryPop (t : CollectedSORT W) : Int × List Int :=
  match t.deletedSlots with
  | [] => (-1, [])
  | i :: rest => (i, rest)

/-- The stores of `InsertVertex` to a new record. -/
def newVertex (info : GlobalInfo) (t : CollectedSORT W) (id : NodeID) : CollectedSORT W :=
  let (i, deletedSlots) := t.tryPop
  { t with
    vertexTable := t.vertexTable ++
      [{ node := id, idx := if i = -1 then (t.cnt : Int) else i, next := [SORT.newArray info] }]
    cnt := if i = -1 then t.cnt + 1 else t.cnt
    deletedSlots := deletedSlots }

def insertVertex (info : GlobalInfo) (id : NodeID) :
    (levels : Nat) → CollectedSORT W → (current : Ptr) → Result (Ptr × Ptr × CollectedSORT W)
  | 0, t, current => .ok (.empty, current, t)
  | below + 1, t, current => do
      let i := t.depth - (below + 1)
      let idx := t.digit id i
      let child ← current.child (t.numBits.getD i 0) idx
      if below ≠ 0 then do
        let child := if child.isNull then Ptr.newNode else child
        let (v, child, t) ← insertVertex info id below t child
        .ok (v, current.setChild idx child, t)
      else if child.isNull then
        let v := Ptr.vertex t.vertexTable.length
        .ok (v, current.setChild idx v, newVertex info t id)
      else .ok (child, current, t)

def retrieveFrom (info : GlobalInfo) (id : NodeID) (insertMode : Bool) :
    (levels : Nat) → CollectedSORT W → (current : Ptr) → Result (Ptr × Ptr × CollectedSORT W)
  | 0, t, current => .ok (.empty, current, t)
  | below + 1, t, current => do
      let i := t.depth - (below + 1)
      let idx := t.digit id i
      let child ← current.child (t.numBits.getD i 0) idx
      if child.isNull then
        if insertMode then insertVertex info id (below + 1) t current else .ok (.empty, current, t)
      else if below = 0 then .ok (child, current, t)
      else do
        let (v, child, t) ← retrieveFrom info id insertMode below t child
        .ok (v, current.setChild idx child, t)

def setRoot (t : CollectedSORT W) (root : Ptr) : CollectedSORT W := { t with root := root }

def retrieveVertex (info : GlobalInfo) (t : CollectedSORT W) (id : NodeID) (insertMode : Bool) :
    Result (Ptr × CollectedSORT W) := do
  let rooted ← t.ensureRoot
  let (v, root, t) ← retrieveFrom info id insertMode t.depth (t.setRoot rooted.root) rooted.root
  .ok (v, t.setRoot root)

def setVertex (t : CollectedSORT W) (k : Nat) (v : Vertex W) : CollectedSORT W :=
  { t with vertexTable := t.vertexTable.set k v }

def deleteVertex (info : GlobalInfo) (t : CollectedSORT W) (id : NodeID) :
    Result (Bool × CollectedSORT W) := do
  let (tmp, t) ← t.retrieveVertex info id false
  match tmp with
  | .empty => .ok (false, t)
  | .leaf k => do
      let v ← t.vertexAt k
      let t := t.setVertex k { v with delTime := info.globalTimestamp }
      .ok (true, { t with deletedSlots := t.deletedSlots ++ [v.idx] })
  | .node _ => .error .badPointer

/-- `RetrieveVertex(id)`, and null where the vertex has been deleted. -/
def liveVertex (info : GlobalInfo) (t : CollectedSORT W) (id : NodeID) : Result (Option (Vertex W)) := do
  let (ptr, t) ← t.retrieveVertex info id false
  match ptr with
  | .empty => .ok none
  | .leaf k => do
      let v ← t.vertexAt k
      .ok (if v.delTime ≠ -1 then none else some v)
  | .node _ => .error .badPointer

def getInternalID (info : GlobalInfo) (t : CollectedSORT W) (id : NodeID) : Result Int := do
  let v ← t.liveVertex info id
  .ok (v.elim (-1) Vertex.idx)

def getExternalID (t : CollectedSORT W) (offset : Int) : Result NodeID :=
  if (t.cnt : Int) ≤ offset then .ok NodeID.invalid
  else if offset < 0 then .error .outOfBounds
  else do
    let v ← t.vertexAt offset.toNat
    .ok v.node

/-! ## The walks do not look at the records -/

structure Follows (t : CollectedSORT W) (s : SORT W) : Prop where
  root : t.root = s.root
  numBits : t.numBits = s.numBits
  sumBits : t.sumBits = s.sumBits
  depth : t.depth = s.depth
  nodes : t.vertexTable.map Vertex.node = s.vertexTable.map Vertex.node

variable {t : CollectedSORT W} {s : SORT W}

theorem Follows.length (follows : t.Follows s) : t.vertexTable.length = s.vertexTable.length := by
  have := congrArg List.length follows.nodes
  rwa [List.length_map, List.length_map] at this

theorem Follows.digit (follows : t.Follows s) (id : NodeID) (i : Nat) : t.digit id i = s.digit id i := by
  rw [SORT.digit, SORT.digit, follows.sumBits, follows.depth]

def after (info : GlobalInfo) (id : NodeID) (t : CollectedSORT W) (s s' : SORT W) : CollectedSORT W :=
  if s'.vertexTable.length = s.vertexTable.length then t else t.newVertex info id

theorem after_same (info : GlobalInfo) (id : NodeID) (t : CollectedSORT W) (s : SORT W) :
    after info id t s s = t := if_pos rfl

theorem insertVertex_follows (info : GlobalInfo) (id : NodeID) (levels : Nat) (follows : t.Follows s)
    (current : Ptr) : t.insertVertex info id levels current =
      (s.insertVertex info id levels current).map fun r => (r.1, r.2.1, after info id t s r.2.2) := by
  induction levels generalizing current with
  | zero => exact congrArg (fun u => Except.ok (_, _, u)) (after_same info id t s).symm
  | succ below ih =>
      rw [insertVertex, SORT.insertVertex, follows.depth, follows.digit, follows.numBits, map_bind]
      congr 1
      funext child
      by_cases deeper : below ≠ 0
      · simp only [if_pos deeper]
        rw [ih, map_bind, bind_map]
        rfl
      · rw [if_neg deeper, if_neg deeper, follows.length]
        by_cases null : child.isNull
        · rw [if_pos null, if_pos null]
          have new : t.newVertex info id = after info id t s (s.newVertex info id) := by
            rw [after, if_neg]
            simp [SORT.newVertex]
          exact congrArg (fun u => Except.ok (_, _, u)) new
        · rw [if_neg null, if_neg null]
          exact congrArg (fun u => Except.ok (_, _, u)) (after_same info id t s).symm

theorem retrieveFrom_follows (info : GlobalInfo) (id : NodeID) (insertMode : Bool) (levels : Nat)
    (follows : t.Follows s) (current : Ptr) : t.retrieveFrom info id insertMode levels current =
      (s.retrieveFrom info id insertMode levels current).map
        fun r => (r.1, r.2.1, after info id t s r.2.2) := by
  induction levels generalizing current with
  | zero => exact congrArg (fun u => Except.ok (_, _, u)) (after_same info id t s).symm
  | succ below ih =>
      rw [retrieveFrom, SORT.retrieveFrom, follows.depth, follows.digit, follows.numBits, map_bind]
      congr 1
      funext child
      by_cases null : child.isNull
      · rw [if_pos null, if_pos null]
        cases insertMode with
        | true => exact insertVertex_follows info id (below + 1) follows current
        | false => exact congrArg (fun u => Except.ok (_, _, u)) (after_same info id t s).symm
      · rw [if_neg null, if_neg null]
        by_cases last : below = 0
        · rw [if_pos last, if_pos last]
          exact congrArg (fun u => Except.ok (_, _, u)) (after_same info id t s).symm
        · rw [if_neg last, if_neg last, ih, map_bind, bind_map]
          rfl

theorem ensureRoot_follows (follows : t.Follows s) :
    t.ensureRoot.map SORT.root = s.ensureRoot.map SORT.root := by
  rw [SORT.ensureRoot, SORT.ensureRoot, follows.root, follows.numBits]
  by_cases null : s.root.isNull
  · rw [if_pos null, if_pos null]
    split <;> rfl
  · rw [if_neg null, if_neg null]
    exact congrArg Except.ok follows.root

theorem retrieveVertex_follows (info : GlobalInfo) (id : NodeID) (insertMode : Bool)
    (follows : t.Follows s) {v : Ptr} {s' : SORT W}
    (retrieved : s.retrieveVertex info id insertMode = .ok (v, s')) :
    t.retrieveVertex info id insertMode = .ok (v, (after info id t s s').setRoot s'.root) := by
  obtain ⟨rooted, made, walked⟩ := bind_eq_ok.mp retrieved
  obtain ⟨⟨u, root, s''⟩, found, same⟩ := bind_eq_ok.mp walked
  obtain ⟨rfl, rfl⟩ := Prod.mk.inj (Except.ok.inj same)
  have unrooted : rooted = { s with root := rooted.root } := by
    rw [SORT.ensureRoot] at made
    split at made
    · split at made
      · contradiction
      · exact Except.ok.inj made ▸ rfl
    · exact Except.ok.inj made ▸ rfl
  have start : t.ensureRoot.map SORT.root = .ok rooted.root := by
    rw [ensureRoot_follows follows, made]
    rfl
  obtain ⟨rooted', made', root'⟩ := map_eq_ok.mp start
  rw [unrooted] at found
  have follows' : (t.setRoot rooted.root).Follows { s with root := rooted.root } :=
    ⟨rfl, follows.numBits, follows.sumBits, follows.depth, follows.nodes⟩
  have walk := retrieveFrom_follows info id insertMode s.depth follows' rooted.root
  rw [retrieveVertex, made', ok_bind, root', follows.depth, walk, found]
  refine congrArg (fun u => Except.ok (_, u)) ?_
  unfold after
  split <;> rfl

/-! ## Runs -/

inductive Use where
  | retrieve (id : NodeID)
  | delete (id : NodeID)
  deriving DecidableEq, Repr

def Use.id : Use → NodeID
  | .retrieve id | .delete id => id

def use (info : GlobalInfo) (t : CollectedSORT W) : Use → Result (CollectedSORT W)
  | .retrieve id => do
      let (_, t) ← t.retrieveVertex info id true
      .ok t
  | .delete id => do
      let (_, t) ← t.deleteVertex info id
      .ok t

def run (t : CollectedSORT W) (uses : List (GlobalInfo × Use)) : Result (CollectedSORT W) :=
  uses.foldlM (fun t u => t.use u.1 u.2) t

structure Unique (ws : List Nat) (t : CollectedSORT W) : Prop where
  apart : ∀ (k l : Nat) (v w : Vertex W), t.vertexTable[k]? = some v → t.vertexTable[l]? = some w → v.delTime = -1 →
    w.delTime = -1 → v.idx = w.idx → k = l
  placed : ∀ (k : Nat) (v : Vertex W), t.vertexTable[k]? = some v → v.delTime = -1 → v.idx = (k : Int)
  roundTrip : ∀ info id v, id < 2 ^ ws.sum → t.liveVertex info id = .ok (some v) →
    (t.getInternalID info id >>= t.getExternalID) = .ok id

/-- With these ids inserted so far, one of them deleted or not: after the deletion of an inserted id
no id is inserted for the first time. -/
def Retires (inserted : List NodeID) (deleted : Bool) : List (GlobalInfo × Use) → Prop
  | [] => True
  | (_, .retrieve id) :: uses =>
      (deleted = true → id ∈ inserted) ∧ Retires (id :: inserted) deleted uses
  | (_, .delete id) :: uses => Retires inserted (deleted || decide (id ∈ inserted)) uses

def Tracks (ws : List Nat) (ids : List NodeID) (t : CollectedSORT W) : Prop :=
  ∃ s : SORT W, t.Follows s ∧ s.Dictionary ws ids

variable {ws : List Nat} {ids : List NodeID} {deleted : Bool}

namespace Tracks

theorem nodes (tracks : t.Tracks ws ids) : t.vertexTable.map Vertex.node = ids := by
  obtain ⟨s, follows, dict⟩ := tracks
  rw [follows.nodes]
  apply List.ext_getElem?
  intro k
  rw [List.getElem?_map]
  cases here : ids[k]? with
  | none =>
      have beyond := List.getElem?_eq_none_iff.mp here
      rw [← dict.length] at beyond
      rw [List.getElem?_eq_none beyond, Option.map_none]
  | some id =>
      obtain ⟨v, there, node, -⟩ := dict.vertexAt here
      rw [there, Option.map_some, node]

theorem length (tracks : t.Tracks ws ids) : t.vertexTable.length = ids.length := by
  rw [← tracks.nodes, List.length_map]

theorem stay {s s' : SORT W} (info : GlobalInfo) (id : NodeID) (follows : t.Follows s)
    (dict : s.Dictionary ws ids) (dict' : s'.Dictionary ws ids) :
    (after info id t s s').setRoot s'.root = t.setRoot s'.root ∧ (t.setRoot s'.root).Tracks ws ids := by
  have same : s'.vertexTable.length = s.vertexTable.length := dict'.length.trans dict.length.symm
  refine ⟨by rw [after, if_pos same], s', ⟨rfl, ?_, ?_, ?_, ?_⟩, dict'⟩
  · exact follows.numBits.trans (dict.shaped.numBits.trans dict'.shaped.numBits.symm)
  · exact follows.sumBits.trans (dict.shaped.sumBits.trans dict'.shaped.sumBits.symm)
  · exact follows.depth.trans (dict.shaped.depth.trans dict'.shaped.depth.symm)
  · have before : t.Tracks ws ids := ⟨s, follows, dict⟩
    have behind : (⟨s', []⟩ : CollectedSORT W).Tracks ws ids := ⟨s', ⟨rfl, rfl, rfl, rfl, rfl⟩, dict'⟩
    exact before.nodes.trans behind.nodes.symm

theorem query (tracks : t.Tracks ws ids) (info : GlobalInfo) (id : NodeID) :
    ∃ root, t.retrieveVertex info id false =
        .ok (SORT.record (SORT.position ws.sum ids id), t.setRoot root) ∧
      (t.setRoot root).Tracks ws ids := by
  obtain ⟨s, follows, dict⟩ := tracks
  obtain ⟨root, retrieved, dict'⟩ := dict.query info id
  obtain ⟨same, tracks'⟩ := stay info id follows dict dict'
  refine ⟨root, ?_, tracks'⟩
  rw [retrieveVertex_follows info id false follows retrieved, same]

theorem retrieve_known (tracks : t.Tracks ws ids) (info : GlobalInfo) {id : NodeID} {k : Nat}
    (known : SORT.position ws.sum ids id = some k) :
    ∃ root, t.retrieveVertex info id true = .ok (Ptr.vertex k, t.setRoot root) ∧
      (t.setRoot root).Tracks ws ids := by
  obtain ⟨s, follows, dict⟩ := tracks
  obtain ⟨s', retrieved, dict', -⟩ := dict.enter info id
  have present : SORT.enter ws.sum ids id = ids := by
    rw [SORT.enter, known, if_neg (Option.some_ne_none k)]
  rw [present, known] at retrieved
  rw [present] at dict'
  obtain ⟨same, tracks'⟩ := stay info id follows dict dict'
  refine ⟨s'.root, ?_, tracks'⟩
  rw [retrieveVertex_follows info id true follows retrieved, same]
  rfl

theorem retrieve_new (tracks : t.Tracks ws ids) (info : GlobalInfo) {id : NodeID}
    (unknown : SORT.position ws.sum ids id = none) :
    ∃ root, t.retrieveVertex info id true =
        .ok (Ptr.vertex ids.length, (t.newVertex info id).setRoot root) ∧
      ((t.newVertex info id).setRoot root).Tracks ws (ids ++ [id]) := by
  obtain ⟨s, follows, dict⟩ := tracks
  obtain ⟨s', retrieved, dict', table⟩ := dict.enter info id
  rw [if_pos unknown] at table
  have entered : SORT.enter ws.sum ids id = ids ++ [id] := by rw [SORT.enter, if_pos unknown]
  rw [entered] at dict'
  rw [SORT.position_enter_self, if_pos unknown] at retrieved
  have longer : after info id t s s' = t.newVertex info id := by
    rw [after, if_neg]
    simp [table]
  refine ⟨s'.root, ?_, s', ⟨rfl, ?_, ?_, ?_, ?_⟩, dict'⟩
  · rw [retrieveVertex_follows info id true follows retrieved, longer]
    rfl
  · exact follows.numBits.trans (dict.shaped.numBits.trans dict'.shaped.numBits.symm)
  · exact follows.sumBits.trans (dict.shaped.sumBits.trans dict'.shaped.sumBits.symm)
  · exact follows.depth.trans (dict.shaped.depth.trans dict'.shaped.depth.symm)
  · simp [setRoot, newVertex, table, follows.nodes]

theorem setVertex (tracks : t.Tracks ws ids) {k : Nat} {v : Vertex W} (v' : Vertex W)
    (here : t.vertexTable[k]? = some v) (node : v'.node = v.node) (queue : List Int) :
    ({ t.setVertex k v' with deletedSlots := queue } : CollectedSORT W).Tracks ws ids := by
  obtain ⟨s, follows, dict⟩ := tracks
  refine ⟨s, ⟨follows.root, follows.numBits, follows.sumBits, follows.depth, ?_⟩, dict⟩
  rw [← follows.nodes]
  change (t.vertexTable.set k v').map Vertex.node = t.vertexTable.map Vertex.node
  obtain ⟨inside, rfl⟩ := List.getElem?_eq_some_iff.mp here
  have inside' : k < (t.vertexTable.map Vertex.node).length := by rwa [List.length_map]
  have unchanged := List.set_getElem_self inside'
  rw [List.map_set, node]
  simpa using unchanged

theorem live (tracks : t.Tracks ws ids) {info : GlobalInfo} {id : NodeID} {v : Vertex W}
    (live : t.liveVertex info id = .ok (some v)) :
    ∃ k, SORT.position ws.sum ids id = some k ∧ t.vertexTable[k]? = some v := by
  obtain ⟨root, retrieved, -⟩ := tracks.query info id
  rw [liveVertex, retrieved, ok_bind] at live
  cases known : SORT.position ws.sum ids id with
  | none =>
      rw [known] at live
      cases live
  | some k =>
      rw [known] at live
      obtain ⟨w, read, shown⟩ := bind_eq_ok.mp live
      have there : t.vertexTable[k]? = some w := by
        unfold SORT.vertexAt at read
        split at read
        · contradiction
        · rename_i u there
          exact there.trans (congrArg some (Except.ok.inj read))
      split at shown
      · cases shown
      · cases shown
        exact ⟨k, rfl, there⟩

end Tracks

structure Settled (ws : List Nat) (ids : List NodeID) (deleted : Bool) (t : CollectedSORT W) : Prop where
  tracks : t.Tracks ws ids
  bounded : ∀ id ∈ ids, id < 2 ^ ws.sum
  indices : ∀ (k : Nat) (v : Vertex W), t.vertexTable[k]? = some v → v.idx = (k : Int)
  cnt : t.cnt = ids.length
  queue : t.deletedSlots ≠ [] ↔ deleted = true
  slots : ∀ i ∈ t.deletedSlots, ∃ k < ids.length, i = (k : Int)

namespace Settled

theorem setRoot (settled : t.Settled ws ids deleted) {root : Ptr} (tracks : (t.setRoot root).Tracks ws ids) :
    (t.setRoot root).Settled ws ids deleted :=
  ⟨tracks, settled.bounded, settled.indices, settled.cnt, settled.queue, settled.slots⟩

theorem vertex (settled : t.Settled ws ids deleted) {k : Nat} {id : NodeID} (here : ids[k]? = some id) :
    ∃ v, t.vertexTable[k]? = some v ∧ v.node = id ∧ v.idx = (k : Int) := by
  have entry := congrArg (·[k]?) settled.tracks.nodes
  rw [List.getElem?_map, here] at entry
  obtain ⟨v, there, node⟩ := Option.map_eq_some_iff.mp entry
  exact ⟨v, there, node, settled.indices k v there⟩

theorem unique (settled : t.Settled ws ids deleted) : t.Unique ws where
  apart k l v w at_k at_l _ _ same := by
    rw [settled.indices k v at_k, settled.indices l w at_l] at same
    exact Int.ofNat.inj same
  placed k v at_k _ := settled.indices k v at_k
  roundTrip info id v inRange live := by
    obtain ⟨k, known, there⟩ := settled.tracks.live live
    have here := SORT.position_some_inRange settled.bounded inRange known
    obtain ⟨v', there', node, idx⟩ := settled.vertex here
    obtain rfl : v = v' := Option.some.inj (there.symm.trans there')
    have inside := SORT.position_isLt known
    rw [getInternalID, live, ok_bind, ok_bind, Option.elim_some, idx, getExternalID, settled.cnt,
      if_neg (by omega), if_neg (by omega), Int.toNat_natCast, SORT.vertexAt, there]
    exact congrArg Except.ok node

theorem retrieve_known (settled : t.Settled ws ids deleted) (info : GlobalInfo) {id : NodeID} {k : Nat}
    (known : SORT.position ws.sum ids id = some k) :
    ∃ t', t.use info (.retrieve id) = .ok t' ∧ t'.Settled ws ids deleted := by
  obtain ⟨root, retrieved, tracks'⟩ := settled.tracks.retrieve_known info known
  refine ⟨t.setRoot root, ?_, settled.setRoot tracks'⟩
  rw [use, retrieved, ok_bind]

theorem retrieve_new (settled : t.Settled ws ids false) (info : GlobalInfo) {id : NodeID}
    (inRange : id < 2 ^ ws.sum) (unknown : SORT.position ws.sum ids id = none) :
    ∃ t', t.use info (.retrieve id) = .ok t' ∧ t'.Settled ws (ids ++ [id]) false := by
  obtain ⟨root, retrieved, tracks'⟩ := settled.tracks.retrieve_new info unknown
  have empty : t.deletedSlots = [] := by
    by_contra waiting
    exact Bool.false_ne_true (settled.queue.mp waiting)
  have made : t.newVertex info id = { t with
      vertexTable := t.vertexTable ++ [{ node := id, idx := (t.cnt : Int), next := [SORT.newArray info] }]
      cnt := t.cnt + 1
      deletedSlots := [] } := by
    rw [newVertex, tryPop, empty]
    rfl
  refine ⟨_, by rw [use, retrieved, ok_bind], tracks', ?_, ?_, ?_, ?_, ?_⟩
  · intro other member
    cases List.mem_append.mp member with
    | inl old => exact settled.bounded other old
    | inr new => exact List.mem_singleton.mp new ▸ inRange
  · intro k v there
    rw [made] at there
    change (t.vertexTable ++ _)[k]? = some v at there
    by_cases old : k < t.vertexTable.length
    · rw [List.getElem?_append_left old] at there
      exact settled.indices k v there
    · have last : k = t.vertexTable.length := by
        have := (List.getElem?_eq_some_iff.mp there).1
        rw [List.length_append, List.length_singleton] at this
        omega
      subst last
      rw [List.getElem?_concat_length] at there
      cases there
      rw [settled.cnt, settled.tracks.length]
  · rw [made, List.length_append, List.length_singleton, ← settled.cnt]
    rfl
  · rw [made]
    simp [CollectedSORT.setRoot]
  · rw [made]
    exact fun _ member => nomatch member

theorem retrieve_reuses (settled : t.Settled ws ids true) (info : GlobalInfo) {id : NodeID}
    (unknown : SORT.position ws.sum ids id = none) :
    ∃ t', t.use info (.retrieve id) = .ok t' ∧ ¬ t'.Unique ws := by
  obtain ⟨root, retrieved, -⟩ := settled.tracks.retrieve_new info unknown
  refine ⟨_, by rw [use, retrieved, ok_bind], fun unique => ?_⟩
  obtain ⟨i, rest, queue⟩ := List.exists_cons_of_ne_nil (settled.queue.mpr rfl)
  obtain ⟨k, inside, rfl⟩ := settled.slots i (queue ▸ List.mem_cons_self)
  have table : ((t.newVertex info id).setRoot root).vertexTable = t.vertexTable ++
      [{ node := id, idx := (k : Int), next := [SORT.newArray info] }] := by
    have real : (k : Int) ≠ -1 := by omega
    rw [newVertex, tryPop, queue]
    simp only [if_neg real]
    rfl
  have place := unique.placed t.vertexTable.length
    { node := id, idx := (k : Int), next := [SORT.newArray info] }
    (by rw [table, List.getElem?_concat_length]) rfl
  rw [settled.tracks.length] at place
  exact inside.ne (Int.ofNat.inj place)

theorem delete (settled : t.Settled ws ids deleted) (info : GlobalInfo) {id : NodeID}
    (inRange : id < 2 ^ ws.sum) :
    ∃ t', t.use info (.delete id) = .ok t' ∧ t'.Settled ws ids (deleted || decide (id ∈ ids)) := by
  obtain ⟨root, retrieved, tracks'⟩ := settled.tracks.query info id
  have rooted := settled.setRoot tracks'
  cases known : SORT.position ws.sum ids id with
  | none =>
      have absent := (SORT.position_none_inRange settled.bounded inRange).mp known
      rw [decide_eq_false absent, Bool.or_false]
      refine ⟨t.setRoot root, ?_, rooted⟩
      rw [use, deleteVertex, retrieved, known]
      rfl
  | some k =>
      have here := SORT.position_some_inRange settled.bounded inRange known
      rw [decide_eq_true (List.mem_of_getElem? here), Bool.or_true]
      obtain ⟨v, there, node, idx⟩ := rooted.vertex here
      have read : (t.setRoot root).vertexAt k = .ok v := by rw [SORT.vertexAt, there]
      have kept := rooted.tracks.setVertex { v with delTime := info.globalTimestamp } there rfl
        (t.deletedSlots ++ [v.idx])
      refine ⟨_, ?_, kept, settled.bounded, fun l w at_l => ?_, settled.cnt, ?_, fun i member => ?_⟩
      · rw [use, deleteVertex, retrieved, known]
        simp only [SORT.record, read, ok_bind]
        rfl
      · change (t.vertexTable.set k _)[l]? = some w at at_l
        rw [List.getElem?_set] at at_l
        split at at_l
        case isTrue same =>
          subst same
          split at at_l
          · cases at_l
            exact idx
          · contradiction
        case isFalse => exact settled.indices l w at_l
      · simp
      · cases List.mem_append.mp member with
        | inl old => exact settled.slots i old
        | inr new =>
            rw [List.mem_singleton.mp new]
            exact ⟨k, SORT.position_isLt known, idx⟩

end Settled

theorem forall_prefix_cons {α : Type*} {a : α} {l : List α} {p : List α → Prop} :
    (∀ e, e <+: a :: l → p e) ↔ p [] ∧ ∀ e, e <+: l → p (a :: e) := by
  constructor
  · intro all
    exact ⟨all [] List.nil_prefix, fun e front => all (a :: e) ((List.prefix_cons_inj a).mpr front)⟩
  · rintro ⟨none, rest⟩ e front
    obtain rfl | ⟨e', rfl, front'⟩ := List.prefix_cons_iff.mp front
    · exact none
    · exact rest e' front'

def AlwaysUnique (ws : List Nat) (t : CollectedSORT W) (uses : List (GlobalInfo × Use)) : Prop :=
  ∀ earlier, earlier <+: uses → ∃ t', t.run earlier = .ok t' ∧ t'.Unique ws

theorem alwaysUnique_nil (unique : t.Unique ws) : t.AlwaysUnique ws [] := by
  intro earlier front
  rw [List.prefix_nil.mp front]
  exact ⟨t, rfl, unique⟩

theorem alwaysUnique_cons {t' : CollectedSORT W} {info : GlobalInfo} {u : Use}
    {uses : List (GlobalInfo × Use)} (unique : t.Unique ws) (used : t.use info u = .ok t') :
    t.AlwaysUnique ws ((info, u) :: uses) ↔ t'.AlwaysUnique ws uses := by
  unfold AlwaysUnique
  rw [forall_prefix_cons]
  have first (earlier : List (GlobalInfo × Use)) : t.run ((info, u) :: earlier) = t'.run earlier := by
    rw [run, List.foldlM_cons, used, ok_bind]
    rfl
  simp only [first]
  exact ⟨fun both => both.2, fun rest => ⟨⟨t, rfl, unique⟩, rest⟩⟩

theorem Settled.alwaysUnique_iff (settled : t.Settled ws ids deleted) {inserted : List NodeID}
    (same : ∀ id, id ∈ inserted ↔ id ∈ ids) {uses : List (GlobalInfo × Use)}
    (inRange : ∀ u ∈ uses, u.2.id < 2 ^ ws.sum) :
    t.AlwaysUnique ws uses ↔ Retires inserted deleted uses := by
  induction uses generalizing t ids deleted inserted with
  | nil => exact ⟨fun _ => trivial, fun _ => alwaysUnique_nil settled.unique⟩
  | cons first uses ih =>
      obtain ⟨info, u⟩ := first
      have later := fun v member => inRange v (List.mem_cons_of_mem _ member)
      cases u with
      | delete id =>
          have here : id < 2 ^ ws.sum := inRange (info, .delete id) List.mem_cons_self
          obtain ⟨t', used, settled'⟩ := settled.delete info here
          rw [alwaysUnique_cons settled.unique used, ih settled' same later, Retires]
          simp only [same]
      | retrieve id =>
          have here : id < 2 ^ ws.sum := inRange (info, .retrieve id) List.mem_cons_self
          rw [Retires, same]
          cases known : SORT.position ws.sum ids id with
          | some k =>
              have member := List.mem_of_getElem? (SORT.position_some_inRange settled.bounded here known)
              obtain ⟨t', used, settled'⟩ := settled.retrieve_known info known
              have same' (other : NodeID) : other ∈ id :: inserted ↔ other ∈ ids := by
                rw [List.mem_cons, same]
                exact or_iff_right_of_imp fun equal => equal ▸ member
              rw [alwaysUnique_cons settled.unique used, ih settled' same' later]
              exact ⟨fun rest => ⟨fun _ => member, rest⟩, And.right⟩
          | none =>
              have absent := (SORT.position_none_inRange settled.bounded here).mp known
              cases deleted with
              | false =>
                  obtain ⟨t', used, settled'⟩ := settled.retrieve_new info here known
                  have same' (other : NodeID) : other ∈ id :: inserted ↔ other ∈ ids ++ [id] := by
                    rw [List.mem_cons, same, List.mem_append, List.mem_singleton, or_comm]
                  rw [alwaysUnique_cons settled.unique used, ih settled' same' later]
                  exact ⟨fun rest => ⟨(fun impossible => nomatch impossible), rest⟩, And.right⟩
              | true =>
                  obtain ⟨t', used, misplaced⟩ := settled.retrieve_reuses info known
                  rw [alwaysUnique_cons settled.unique used]
                  constructor
                  · intro always
                    obtain ⟨t'', ran, unique⟩ := always [] List.nil_prefix
                    cases ran
                    exact absurd unique misplaced
                  · exact fun retires => absurd (retires.1 rfl) absent

/-- Slot reuse keeps indices unique, and leading back to their vertices, exactly in the runs that
reuse none: those that insert no new id once an inserted one has been deleted. -/
theorem recycled_unique_iff {t₀ : SORT W} {ws : List Nat} (fresh : SORT.Constructed t₀ ws)
    (uses : List (GlobalInfo × Use)) (inRange : ∀ u ∈ uses, u.2.id < 2 ^ ws.sum) :
    (⟨t₀, []⟩ : CollectedSORT W).AlwaysUnique ws uses ↔ Retires [] false uses := by
  have dict := fresh.dictionary
  have none (k : Nat) (v : Vertex W) : t₀.vertexTable[k]? ≠ some v := by
    rw [List.eq_nil_of_length_eq_zero dict.length]
    exact fun impossible => nomatch impossible
  have settled : (⟨t₀, []⟩ : CollectedSORT W).Settled ws [] false :=
    ⟨⟨t₀, ⟨rfl, rfl, rfl, rfl, rfl⟩, dict⟩, (fun _ member => nomatch member),
      fun k v there => absurd there (none k v), dict.cnt, by simp, (fun _ member => nomatch member)⟩
  exact settled.alwaysUnique_iff (fun _ => Iff.rfl) inRange

theorem recycled_unique_iff_twice : (⟨SORT.ofVector [2], []⟩ : CollectedSORT Nat).AlwaysUnique [2]
    [(⟨0, false⟩, .retrieve 0), (⟨0, false⟩, .retrieve 1), (⟨0, false⟩, .delete 0),
      (⟨1, false⟩, .delete 0), (⟨1, false⟩, .retrieve 0)] :=
  (recycled_unique_iff (.vector (by decide)) _ (by decide)).mpr (by simp [Retires])

def deletedTwice : List (GlobalInfo × Use) :=
  [(⟨0, false⟩, .retrieve 0), (⟨0, false⟩, .delete 0), (⟨0, false⟩, .delete 0),
    (⟨0, false⟩, .retrieve 1), (⟨0, false⟩, .retrieve 2)]

theorem reuse_not_unique : ∃ t : CollectedSORT Nat,
    (⟨SORT.ofVector [2], []⟩ : CollectedSORT Nat).run deletedTwice = .ok t ∧
      (t.vertexTable.map fun v => (v.node, v.idx, v.delTime)) = [(0, 0, 0), (1, 0, -1), (2, 0, -1)] ∧
      (t.getInternalID ⟨0, false⟩ 1 >>= t.getExternalID) = .ok 0 ∧ ¬ t.Unique [2] := by
  have ends : ((⟨SORT.ofVector [2], []⟩ : CollectedSORT Nat).run deletedTwice).map (fun t =>
      (t.vertexTable.map fun v => (v.node, v.idx, v.delTime),
        (t.getInternalID ⟨0, false⟩ 1 >>= t.getExternalID).toOption,
        (t.liveVertex ⟨0, false⟩ 1).toOption.join.isSome)) =
      .ok ([(0, 0, 0), (1, 0, -1), (2, 0, -1)], some 0, true) := by rfl
  obtain ⟨t, ran, shown⟩ := map_eq_ok.mp ends
  simp only [Prod.mk.injEq] at shown
  obtain ⟨table, back, live⟩ := shown
  have back := toOption_eq_some.mp back
  refine ⟨t, ran, table, back, fun unique => ?_⟩
  obtain ⟨v, found⟩ := Option.isSome_iff_exists.mp live
  have live := unique.roundTrip ⟨0, false⟩ 1 v (by decide) (toOption_eq_some.mp (Option.join_eq_some_iff.mp found))
  rw [back] at live
  cases live

end CollectedSORT

end Radix
