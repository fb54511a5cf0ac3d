import Radix.Lib.Census
import Radix.Sort.Transform

/-!
# Walks over the whole tree

`Size`, `Transform` and the destructor follow the pointers of every node, after any calls that
insert, look up and rebuild.
-/

namespace Radix

open Lib

variable {W : Type} [Zero W]

/-- A slot that holds a `SimpleVertex`. The places of `vertex_table` are `int`s and stay below. -/
abbrev Ptr.simpleVertex : Ptr := .leaf (2 ^ 31)

def Ptr.isSimple : Ptr → Bool
  | .leaf k => k == 2 ^ 31
  | _ => false

namespace SORT

/-! ## Simple vertices -/

def insertSimpleFrom (t : SORT W) (id : NodeID) : (levels : Nat) → (current : Ptr) → Result Ptr
  | 0, current => .ok current
  | below + 1, current => do
      let i := t.depth - (below + 1)
      let idx := t.digit id i
      let child ← current.child (t.numBits.getD i 0) idx
      if below ≠ 0 then do
        let child := if child.isNull then Ptr.newNode else child
        let child ← insertSimpleFrom t id below child
        .ok (current.setChild idx child)
      else .ok (if child.isNull then current.setChild idx Ptr.simpleVertex else current)

def insertSimpleVertex (t : SORT W) (id : NodeID) : Result (SORT W) := do
  let t ← t.ensureRoot
  let root ← insertSimpleFrom t id t.depth t.root
  .ok { t with root := root }

theorem insertSimpleFrom_eq (t : SORT W) (id : NodeID) (levels : Nat) (current : Ptr) :
    insertSimpleFrom t id levels current = place t (Ptr.simpleVertex, id) levels current := by
  induction levels generalizing current with
  | zero => rfl
  | succ below ih => simp only [insertSimpleFrom, place, ih]

/-! ## The destructor -/

/-- The pointers that a node on level `d` adds to `ptrs` and to the queue. A pointer is told apart
from all others by the digits that it hangs under. -/
def gathered (t : SORT W) (u : List Nat × Ptr) (d : Nat) : Result (List (List Nat × Ptr)) :=
  if d < t.depth - 1 then
    let bits := t.numBits.getD d 0
    (List.range (2 ^ bits)).foldlM (fun ptrs i => do
      let child ← u.2.child bits i
      .ok (if child.isNull then ptrs else ptrs ++ [(u.1 ++ [i], child)])) []
  else .ok []

def gatherLoop (t : SORT W) :
    (rounds : Nat) → List ((List Nat × Ptr) × Nat) → (ptrs : List (List Nat × Ptr)) → Result (List (List Nat × Ptr))
  | _, [], ptrs => .ok ptrs
  | 0, _ :: _, _ => .error .hang
  | rounds + 1, (u, d) :: queue, ptrs =>
      if d < t.depth then do
        let more ← t.gathered u d
        gatherLoop t rounds (queue ++ more.map fun v => (v, d + 1)) (ptrs ++ more)
      else gatherLoop t rounds queue ptrs

def deleteNode (deleted : List (List Nat)) (u : List Nat × Ptr) : Result (List (List Nat)) :=
  match u.2 with
  | .empty => .ok deleted
  | .leaf _ => .error .badPointer
  | .node _ => .ok (deleted ++ [u.1])

def destroy (t : SORT W) (rounds : Nat) : Result (List (List Nat)) := do
  let ptrs ← t.gatherLoop rounds [(([], t.root), 0)] [([], t.root)]
  ptrs.foldlM deleteNode []

/-! ## The calls -/

inductive TreeCall where
  | insertSimpleVertex (id : NodeID)
  | retrieveVertex (id : NodeID) (insertMode : Bool)
  | checkExistence (id : NodeID)
  | deleteVertex (id : NodeID)
  | transform (d : Nat) (newBits : List Nat)
  deriving DecidableEq, Repr

/-- One call; `Transform` is called with the empty vertex set. For the `del_time` that `DeleteVertex`
writes there is room in a `SimpleVertex`, and nothing reads it there. -/
def treeCall (t : SORT W) (info : GlobalInfo) : TreeCall → Result (SORT W)
  | .insertSimpleVertex id => t.insertSimpleVertex id
  | .retrieveVertex id insertMode => do
      let (_, t) ← t.retrieveVertex info id insertMode
      .ok t
  | .checkExistence id => do
      let _ ← t.checkExistence id
      .ok t
  | .deleteVertex id => do
      let (tmp, t) ← t.retrieveVertex info id false
      -- a second retrieval finds the same record
      if tmp.isSimple then .ok t
      else do
        let (_, t) ← t.deleteVertex info id
        .ok t
  | .transform d newBits => t.transform d newBits []

def runTree (t : SORT W) (calls : List (GlobalInfo × TreeCall)) : Result (SORT W) :=
  calls.foldlM (fun t c => t.treeCall c.1 c.2) t

/-! ## What the calls keep -/

def Occupant (t : SORT W) (ptr : Ptr) : Prop :=
  ptr = .empty ∨ ptr.isSimple = true ∨ ∃ k < t.vertexTable.length, ptr = Ptr.vertex k

structure Walkable (t : SORT W) (ws : List Nat) : Prop where
  shaped : t.Shaped ws
  levels : ws ≠ []
  root : t.root = .empty ∨ t.root.Rooted ws
  leaves : ∀ id, t.Occupant (t.root.find (cut ws id))

def Stores (t : SORT W) (ws : List Nat) (id : NodeID) : Prop := t.root.find (cut ws id) ≠ .empty

theorem Occupant.leaf {t : SORT W} {ptr : Ptr} (occupant : t.Occupant ptr) : ptr = .empty ∨ ∃ k, ptr = .leaf k := by
  rcases occupant with none | simple | ⟨k, -, rfl⟩
  · exact .inl none
  · cases ptr with
    | empty => exact .inl rfl
    | leaf k => exact .inr ⟨k, rfl⟩
    | node _ => cases simple
  · exact .inr ⟨k, rfl⟩

theorem Occupant.mono {t t' : SORT W} (grows : t.vertexTable.length ≤ t'.vertexTable.length) {ptr : Ptr}
    (occupant : t.Occupant ptr) : t'.Occupant ptr :=
  occupant.imp_right (Or.imp_right fun ⟨k, inside, same⟩ => ⟨k, inside.trans_le grows, same⟩)

namespace Walkable

variable {t : SORT W} {ws : List Nat}

theorem made (walkable : t.Walkable ws) (root : t.root ≠ .empty) : t.root.Rooted ws :=
  walkable.root.resolve_left root

theorem ensureRoot (walkable : t.Walkable ws) : ∃ root, t.ensureRoot = .ok { t with root := root } ∧
    root = (if t.root.isNull then Ptr.newNode else t.root) ∧ root.Rooted ws ∧
      ({ t with root := root } : SORT W).Walkable ws ∧
      ∀ id, ({ t with root := root } : SORT W).Stores ws id ↔ t.Stores ws id := by
  obtain ⟨w, rest, rfl⟩ := List.exists_cons_of_ne_nil walkable.levels
  rcases walkable.root with null | rooted
  · have rooted : Ptr.newNode.Rooted (w :: rest) := Trie.bare_rooted w rest
    have bare (id : NodeID) : Ptr.newNode.find (cut (w :: rest) id) = .empty := by
      simp [Trie.bare]
    refine ⟨Ptr.newNode, ?_, by rw [null]; rfl, rooted, ⟨⟨walkable.shaped.1, walkable.shaped.2, walkable.shaped.3⟩,
      walkable.levels, .inr rooted, fun id => .inl (bare id)⟩, fun id => ?_⟩
    · simp [SORT.ensureRoot, null, walkable.shaped.numBits]
    · rw [Stores, Stores, bare, null, Trie.find_empty]
  · obtain ⟨c, node⟩ := rooted.node
    refine ⟨t.root, ?_, by rw [node]; rfl, rooted, walkable, fun _ => Iff.rfl⟩
    rw [SORT.ensureRoot, node, Ptr.isNull_node, if_neg (by simp), ← node]

theorem put (walkable : t.Walkable ws) (rooted : t.root.Rooted ws) {u : SORT W} (shaped : u.Shaped ws)
    (grows : t.vertexTable.length ≤ u.vertexTable.length) {k : Nat} (occupant : u.Occupant (.leaf k)) (id : NodeID) :
    ({ u with root := Trie.put (.leaf k) (cut ws id) t.root } : SORT W).Walkable ws ∧
      ∀ other, ({ u with root := Trie.put (.leaf k) (cut ws id) t.root } : SORT W).Stores ws other ↔
        t.Stores ws other ∨ id ≡ other [MOD 2 ^ ws.sum] := by
  have found (other : NodeID) : (Trie.put (.leaf k) (cut ws id) t.root).find (cut ws other) =
      if id ≡ other [MOD 2 ^ ws.sum] then .leaf k else t.root.find (cut ws other) := by
    by_cases same : id ≡ other [MOD 2 ^ ws.sum]
    · rw [if_pos same, ← (cut_eq_iff ws id other).mpr same, Trie.find_put_same]
    · have different : cut ws other ≠ cut ws id := fun equal => same ((cut_eq_iff ws id other).mp equal.symm)
      rw [if_neg same, Trie.find_put_other _ (by simp) different (by simpa using rooted.fits)]
  refine ⟨⟨⟨shaped.1, shaped.2, shaped.3⟩, walkable.levels, .inr (Trie.put_rooted k (cut_fit ws id) rooted),
    fun other => ?_⟩, fun other => ?_⟩
  · rw [found]
    split
    · exact occupant
    · exact (walkable.leaves other).mono grows
  · rw [Stores, found, Stores]
    by_cases same : id ≡ other [MOD 2 ^ ws.sum]
    · simp [same]
    · simp [same]

end Walkable

def TreeCall.inserted : TreeCall → List NodeID
  | .insertSimpleVertex id | .retrieveVertex id true => [id]
  | _ => []

structure Called (t : SORT W) (ws : List Nat) (inserted : List NodeID) (t' : SORT W) : Prop where
  walkable : t'.Walkable ws
  root : t'.root ≠ .empty
  stores : ∀ id, t'.Stores ws id ↔ t.Stores ws id ∨ ∃ a ∈ inserted, a ≡ id [MOD 2 ^ ws.sum]

namespace Walkable

variable {t : SORT W} {ws : List Nat}

structure Started (t : SORT W) (ws : List Nat) (s : SORT W) : Prop where
  made : t.ensureRoot = .ok s
  root : s = { t with root := if t.root.isNull then Ptr.newNode else t.root }
  rooted : s.root.Rooted ws
  walkable : s.Walkable ws
  stores : ∀ id, s.Stores ws id ↔ t.Stores ws id

theorem start (walkable : t.Walkable ws) : ∃ s, Started t ws s := by
  obtain ⟨root, made, same, rooted, after, stores⟩ := walkable.ensureRoot
  exact ⟨_, made, by rw [same], rooted, after, stores⟩

end Walkable

namespace Walkable.Started

variable {t s : SORT W} {ws : List Nat}

theorem called (started : Started t ws s) : Called t ws [] s := by
  obtain ⟨w, rest, rfl⟩ := List.exists_cons_of_ne_nil started.walkable.levels
  obtain ⟨c, node⟩ := started.rooted.node
  refine ⟨started.walkable, fun null => ?_, fun id => by simp [started.stores]⟩
  cases node.symm.trans null

theorem kept (started : Started t ws s) {id : NodeID} (taken : s.root.find (cut ws id) ≠ .empty) :
    Called t ws [id] s := by
  refine ⟨started.walkable, started.called.root, fun other => ?_⟩
  have same : id ≡ other [MOD 2 ^ ws.sum] → t.Stores ws other := by
    intro same
    rw [← started.stores, Stores, ← (cut_eq_iff ws id other).mpr same]
    exact taken
  simp only [List.mem_singleton, exists_eq_left]
  rw [started.stores, or_iff_left_of_imp same]

theorem put (started : Started t ws s) {u : SORT W} (shaped : u.Shaped ws)
    (grows : s.vertexTable.length ≤ u.vertexTable.length) {k : Nat} (occupant : u.Occupant (.leaf k)) (id : NodeID) :
    Called t ws [id] { u with root := Trie.put (.leaf k) (cut ws id) s.root } := by
  obtain ⟨after, stores⟩ := started.walkable.put started.rooted shaped grows occupant id
  refine ⟨after, Trie.put_ne_empty (by simp) _ _, fun other => ?_⟩
  · simp only [List.mem_singleton, exists_eq_left]
    rw [stores, started.stores]

end Walkable.Started

namespace Walkable

variable {t : SORT W} {ws : List Nat}

theorem insertSimpleVertex (walkable : t.Walkable ws) (id : NodeID) :
    ∃ t', t.insertSimpleVertex id = .ok t' ∧ Called t ws [id] t' := by
  obtain ⟨s, started⟩ := walkable.start
  have shaped := started.walkable.shaped
  obtain ⟨w, rest, rfl⟩ := List.exists_cons_of_ne_nil walkable.levels
  obtain ⟨c, node⟩ := started.rooted.node
  have fits := started.rooted.fits
  rw [node] at fits
  have placed := place_spec (Ptr.simpleVertex, id) [] shaped fits
  rw [← insertSimpleFrom_eq, show rest.length + 1 = s.depth from shaped.depth.symm, ← node] at placed
  rw [SORT.insertSimpleVertex, started.made, ok_bind, placed]
  by_cases free : Ptr.isNull (s.root.find (cut (w :: rest) id))
  · rw [if_pos free]
    exact ⟨_, rfl, started.put shaped le_rfl (.inr (.inl rfl)) id⟩
  · rw [if_neg free]
    exact ⟨_, rfl, started.kept fun null => free (Ptr.isNull_iff.mpr null)⟩

theorem retrieveVertex_started (walkable : t.Walkable ws) (info : GlobalInfo) (id : NodeID) (insertMode : Bool) :
    ∃ s t', Started t ws s ∧ t.retrieveVertex info id insertMode = .ok (t'.root.find (cut ws id), t') ∧
      Called t ws (TreeCall.retrieveVertex id insertMode).inserted t' ∧ (insertMode = false → t' = s) := by
  obtain ⟨s, started⟩ := walkable.start
  have shaped := started.walkable.shaped
  obtain ⟨w, rest, rfl⟩ := List.exists_cons_of_ne_nil walkable.levels
  obtain ⟨c, node⟩ := started.rooted.node
  have fits := started.rooted.fits
  rw [node] at fits
  have retrieved := retrieveFrom_spec info id insertMode [] shaped fits
  rw [show rest.length + 1 = s.depth from shaped.depth.symm, ← node] at retrieved
  rw [SORT.retrieveVertex, started.made, ok_bind, retrieved]
  by_cases free : Ptr.isNull (s.root.find (cut (w :: rest) id))
  · cases insertMode with
    | true =>
        rw [if_pos ⟨rfl, free⟩]
        have grows : s.vertexTable.length < (s.newVertex info id).vertexTable.length := by simp [newVertex]
        refine ⟨s, _, started, ?_, started.put (newVertex_shaped shaped info id) grows.le
          (.inr (.inr ⟨_, grows, rfl⟩)) id, fun query => by cases query⟩
        rw [Trie.find_put_same]
        rfl
    | false =>
        rw [if_neg (by simp)]
        exact ⟨s, s, started, rfl, started.called, fun _ => rfl⟩
  · rw [if_neg fun both => free both.2]
    refine ⟨s, s, started, rfl, ?_, fun _ => rfl⟩
    cases insertMode with
    | true => exact started.kept fun null => free (Ptr.isNull_iff.mpr null)
    | false => exact started.called

theorem retrieveVertex (walkable : t.Walkable ws) (info : GlobalInfo) (id : NodeID) (insertMode : Bool) :
    ∃ t', t.retrieveVertex info id insertMode = .ok (t'.root.find (cut ws id), t') ∧
      Called t ws (TreeCall.retrieveVertex id insertMode).inserted t' := by
  obtain ⟨-, t', -, retrieved, called, -⟩ := walkable.retrieveVertex_started info id insertMode
  exact ⟨t', retrieved, called⟩

theorem query (walkable : t.Walkable ws) (info : GlobalInfo) (id : NodeID) :
    t.retrieveVertex info id false =
      .ok (t.root.find (cut ws id), { t with root := if t.root.isNull then Ptr.newNode else t.root }) := by
  obtain ⟨s, t', started, retrieved, -, same⟩ := walkable.retrieveVertex_started info id false
  obtain rfl := same rfl
  have found : t'.root.find (cut ws id) = t.root.find (cut ws id) := by
    rcases walkable.root with null | rooted
    · rw [null, Trie.find_empty]
      by_contra stored
      exact (started.stores id).mp stored (by rw [null, Trie.find_empty])
    · obtain ⟨w, rest, rfl⟩ := List.exists_cons_of_ne_nil walkable.levels
      obtain ⟨c, node⟩ := rooted.node
      rw [started.root, node]
      rfl
  rw [retrieved, found, ← started.root]

theorem checkExistence (walkable : t.Walkable ws) (id : NodeID) : ∃ b, t.checkExistence id = .ok b := by
  rcases walkable.root with null | rooted
  · exact ⟨false, by rw [SORT.checkExistence, null]; rfl⟩
  · have shaped := walkable.shaped
    obtain ⟨w, rest, rfl⟩ := List.exists_cons_of_ne_nil walkable.levels
    obtain ⟨c, node⟩ := rooted.node
    have fits := rooted.fits
    rw [node] at fits
    have walked := existsFrom_spec [] shaped fits id
    rw [show rest.length + 1 = t.depth from shaped.depth.symm] at walked
    exact ⟨_, by rw [SORT.checkExistence, node, Ptr.isNull_node, if_neg (by simp), walked]⟩

theorem deleteVertex (walkable : t.Walkable ws) (info : GlobalInfo) (id : NodeID) :
    ∃ t', t.treeCall info (.deleteVertex id) = .ok t' ∧ Called t ws [] t' := by
  obtain ⟨s, retrieved, called⟩ := walkable.retrieveVertex info id false
  rw [treeCall, retrieved, ok_bind]
  have again := called.walkable.query info id
  have root : Ptr.isNull s.root = false := by
    rw [Bool.eq_false_iff, ne_eq, Ptr.isNull_iff]
    exact called.root
  rw [root] at again
  rcases called.walkable.leaves id with none | simple | ⟨k, inside, leaf⟩
  · refine ⟨s, ?_, called⟩
    rw [none] at again ⊢
    simp only [SORT.deleteVertex, again, ok_bind]
    rfl
  · exact ⟨s, if_pos simple, called⟩
  · rw [leaf] at again ⊢
    by_cases simple : Ptr.isSimple (Ptr.vertex k)
    · exact ⟨s, if_pos simple, called⟩
    · have here : s.vertexAt k = .ok s.vertexTable[k] := by
        rw [SORT.vertexAt, List.getElem?_eq_getElem inside]
      refine ⟨s.setVertex k { s.vertexTable[k] with delTime := info.globalTimestamp }, (if_neg simple).trans ?_,
        ⟨⟨called.walkable.shaped.1, called.walkable.shaped.2, called.walkable.shaped.3⟩,
        called.walkable.levels, called.walkable.root, fun other => ?_⟩, called.root, called.stores⟩
      · simp only [SORT.deleteVertex, again, ok_bind]
        change (s.vertexAt k >>= _) >>= _ = _
        rw [here]
        rfl
      · exact (called.walkable.leaves other).mono (List.length_set ..).ge

theorem search_take (t : SORT W) (newBits : List Nat) (state : SORT W × Frontier) :
    (List.range t.depth).foldlM (searchLevel newBits) state =
      (List.range t.depth).foldlM (searchLevel (newBits.take t.depth)) state := by
  refine foldlM_congr (fun i inside s => ?_) state
  have same (u : SORT W) : adopt newBits u i = adopt (newBits.take t.depth) u i := by
    rw [adopt, adopt, List.getElem?_take_of_lt (List.mem_range.mp inside)]
  simp only [searchLevel, same]

theorem transform (walkable : t.Walkable ws) (root : t.root ≠ .empty) {newBits : List Nat}
    (long : ws.length ≤ newBits.length) : ∃ t', t.transform t.depth newBits [] = .ok t' ∧
      t'.Walkable (newBits.take ws.length) ∧ t'.root ≠ .empty := by
  have shaped := walkable.shaped
  have length : (newBits.take ws.length).length = ws.length := List.length_take_of_le long
  have levels : newBits.take ws.length ≠ [] := List.ne_nil_of_length_pos (by
    rw [length]
    exact List.length_pos_iff.mpr walkable.levels)
  have shaped' := withWidths_shaped shaped length
  obtain ⟨frontiers, searched, reached⟩ := search_spec shaped length
    ((walkable.made root).isNode walkable.levels) (walkable.made root).fits
  have entry (u : Ptr × Nat) (member : u ∈ frontiers) : t.Occupant u.1 ∧ u.1 ≠ .empty := by
    obtain ⟨-, here, stored⟩ := (reached.mem_iff u).mp member
    exact ⟨here ▸ walkable.leaves u.2, stored⟩
  obtain ⟨root', placed, rebuilt⟩ := rebuild_spec shaped' levels frontiers fun u member => (entry u member).2
  have rooted := rebuilt.rooted fun u member => (entry u member).1.leaf.resolve_left (entry u member).2
  refine ⟨{ t.withWidths (newBits.take ws.length) with root := root' }, ?_, ⟨⟨rfl, rfl, shaped'.depth⟩, levels,
    .inr rooted, fun id => ?_⟩, fun null => ?_⟩
  · have read : newBits.take t.depth = newBits.take ws.length := by rw [shaped.depth]
    rw [SORT.transform, if_neg (by simp), frontier, if_pos rfl, search_take, read, searched, ok_bind]
    exact congrArg (· >>= _) placed
  · rw [rebuilt.found, firstEntry]
    cases first : frontiers.find? fun u => u.2 % 2 ^ (newBits.take ws.length).sum =
        id % 2 ^ (newBits.take ws.length).sum with
    | none => exact .inl rfl
    | some u => exact (entry u (List.mem_of_find?_eq_some first)).1
  · obtain ⟨c, node⟩ := rebuilt.node
    cases node.symm.trans null

end Walkable

/-! ## What the destructor deletes -/

def subtree (ws : List Nat) (v : List Nat × Ptr) : List (List Nat) := (Trie.nodePaths ws v.2).map (v.1 ++ ·)

theorem subtree_node (w : Nat) (rest : List Nat) (place : List Nat) (c : Nat → Ptr) :
    subtree (w :: rest) (place, .node c) =
      place :: (List.range (2 ^ w)).flatMap fun d => subtree rest (place ++ [d], c d) := by
  rw [subtree, Trie.nodePaths_node, List.map_cons, List.append_nil, List.map_flatMap]
  refine congrArg _ (List.flatMap_congr fun d _ => ?_)
  rw [subtree, List.map_map]
  exact List.map_congr_left fun ds _ => by simp

theorem flatMap_filter {α β : Type} (keep : α → Bool) (g : α → List β) (as : List α)
    (dropped : ∀ a ∈ as, keep a = false → g a = []) : (as.filter keep).flatMap g = as.flatMap g := by
  induction as with
  | nil => rfl
  | cons a as ih =>
      have rest := ih fun b member => dropped b (List.mem_cons_of_mem a member)
      cases kept : keep a with
      | false => simp [kept, rest, dropped a List.mem_cons_self kept]
      | true => simp [kept, rest]

theorem gathered_spec {t : SORT W} {before rest : List Nat} {w : Nat} (shaped : t.Shaped (before ++ w :: rest))
    (place : List Nat) {u : Ptr} (rooted : u.Rooted (w :: rest)) :
    ∃ more, t.gathered (place, u) before.length = .ok more ∧ (∀ v ∈ more, rest ≠ [] ∧ v.2.Rooted rest) ∧
      subtree (w :: rest) (place, u) = place :: more.flatMap (subtree rest) := by
  obtain ⟨c, rfl, all⟩ := rooted
  obtain ⟨level, bits, -⟩ := shaped.level 0
  have depth : t.depth = before.length + (rest.length + 1) := by simp [shaped.depth]
  rw [subtree_node]
  cases rest with
  | nil =>
      refine ⟨[], ?_, by simp, by simp [subtree]⟩
      rw [gathered, if_neg (by simp [depth])]
  | cons w' rest =>
      have collected := foldlM_collect Ptr.isNull (fun child i => (place ++ [i], child)) (List.range (2 ^ w))
        (fun j inside => child_inside c inside) []
      refine ⟨_, Eq.trans ?_ collected, ?_, ?_⟩
      · rw [gathered, if_pos (by simp [depth]), bits]
      · simp only [List.nil_append, List.mem_map, List.mem_filter, Bool.not_eq_true']
        rintro v ⟨j, ⟨-, stored⟩, rfl⟩
        refine ⟨by simp, ?_⟩
        rcases all j with none | ⟨-, grown⟩
        · simp [none] at stored
        · exact grown.rooted
      · rw [List.nil_append, List.flatMap_map, flatMap_filter]
        intro d _ dropped
        have null : c d = .empty := by simpa [Ptr.isNull_iff] using dropped
        simp [null, subtree]

theorem gatherLoop_spec {t : SORT W} {ws : List Nat} (shaped : t.Shaped ws) (nodes : Nat)
    (queue : List ((List Nat × Ptr) × Nat)) (rooted : ∀ v ∈ queue, v.2 < ws.length ∧ v.1.2.Rooted (ws.drop v.2))
    (count : (queue.flatMap fun v => subtree (ws.drop v.2) v.1).length = nodes)
    {ptrs : List (List Nat × Ptr)} (ptrsNodes : ∀ u ∈ ptrs, ∃ c, u.2 = .node c) {done : List (List Nat)}
    (listed : (ptrs.map Prod.fst).Perm (done ++ queue.map fun v => v.1.1)) :
    ∃ final, (∀ rounds ≥ nodes, t.gatherLoop rounds queue ptrs = .ok final) ∧ (∀ u ∈ final, ∃ c, u.2 = .node c) ∧
      (final.map Prod.fst).Perm (done ++ queue.flatMap fun v => subtree (ws.drop v.2) v.1) := by
  induction nodes generalizing queue ptrs done with
  | zero =>
      cases queue with
      | nil => exact ⟨ptrs, fun rounds _ => by cases rounds <;> rfl, ptrsNodes, listed⟩
      | cons v queue =>
          obtain ⟨inside, here⟩ := rooted v (by simp)
          obtain ⟨⟨place, u⟩, d⟩ := v
          rw [List.drop_eq_getElem_cons inside] at here
          obtain ⟨c, rfl⟩ := here.node
          rw [List.flatMap_cons, List.drop_eq_getElem_cons inside, subtree_node] at count
          simp at count
  | succ nodes ih =>
      cases queue with
      | nil => simp at count
      | cons v queue =>
          obtain ⟨⟨place, u⟩, d⟩ := v
          obtain ⟨inside, here⟩ := rooted ((place, u), d) (by simp)
          have split : ws = ws.take d ++ ws[d] :: ws.drop (d + 1) := by
            rw [← List.drop_eq_getElem_cons inside, List.take_append_drop]
          have taken : (ws.take d).length = d := List.length_take_of_le (by omega)
          rw [List.drop_eq_getElem_cons inside] at here
          obtain ⟨more, found, below, unfolded⟩ := gathered_spec (split ▸ shaped) place here
          rw [taken] at found
          rw [← List.drop_eq_getElem_cons inside] at unfolded
          let queue' := queue ++ more.map fun v => (v, d + 1)
          have later : (queue'.flatMap fun v => subtree (ws.drop v.2) v.1) =
              (queue.flatMap fun v => subtree (ws.drop v.2) v.1) ++ more.flatMap (subtree (ws.drop (d + 1))) := by
            rw [List.flatMap_append, List.flatMap_map]
          have queued : ∀ v ∈ queue', v.2 < ws.length ∧ v.1.2.Rooted (ws.drop v.2) := by
            intro v member
            rcases List.mem_append.mp member with old | new
            · exact rooted v (by simp [old])
            · obtain ⟨u, inside', rfl⟩ := List.mem_map.mp new
              obtain ⟨some, rooted'⟩ := below u inside'
              exact ⟨by simpa using some, rooted'⟩
          have fewer : (queue'.flatMap fun v => subtree (ws.drop v.2) v.1).length = nodes := by
            rw [List.flatMap_cons, unfolded] at count
            rw [later]
            simp only [List.length_append, List.length_cons] at count ⊢
            omega
          have nodes' : ∀ u ∈ ptrs ++ more, ∃ c, u.2 = Trie.node c := by
            intro u member
            rcases List.mem_append.mp member with old | new
            · exact ptrsNodes u old
            · obtain ⟨some, rooted'⟩ := below u new
              obtain ⟨w, rest, same⟩ := List.exists_cons_of_ne_nil some
              rw [same] at rooted'
              exact rooted'.node
          have listed' : ((ptrs ++ more).map Prod.fst).Perm (done ++ [place] ++ queue'.map fun v => v.1.1) := by
            simpa [queue', Function.comp_def] using listed.append_right (more.map Prod.fst)
          obtain ⟨final, ran, finalNodes, perm⟩ := ih queue' queued fewer nodes' listed'
          refine ⟨final, fun rounds enough => ?_, finalNodes, perm.trans ?_⟩
          · obtain ⟨rounds, rfl⟩ := Nat.exists_eq_add_of_lt (show 0 < rounds by omega)
            rw [Nat.zero_add, gatherLoop, if_pos (by rwa [shaped.depth]), found, ok_bind]
            exact ran rounds (by omega)
          · rw [List.append_assoc, List.singleton_append, later, List.flatMap_cons, unfolded, List.cons_append]
            exact .append_left done (List.perm_append_comm.cons place)

theorem deleteNode_all {ptrs : List (List Nat × Ptr)} (nodes : ∀ u ∈ ptrs, ∃ c, u.2 = .node c)
    (deleted : List (List Nat)) : ptrs.foldlM deleteNode deleted = .ok (deleted ++ ptrs.map Prod.fst) := by
  induction ptrs generalizing deleted with
  | nil => simp [pure, Except.pure]
  | cons u ptrs ih =>
      obtain ⟨c, node⟩ := nodes u (by simp)
      have first : deleteNode deleted u = .ok (deleted ++ [u.1]) := by rw [deleteNode, node]
      rw [List.foldlM_cons, first, ok_bind, ih fun v member => nodes v (by simp [member])]
      simp

/-- All three walks over the tree follow existing nodes to their end, and the destructor deletes each
of its nodes once. -/
structure WalksSafely (t : SORT W) : Prop where
  size : ∃ enough n, ∀ rounds ≥ enough, t.size rounds = .ok n
  transform : ∀ newBits, t.depth ≤ newBits.length → ∃ t', t.transform t.depth newBits [] = .ok t'
  destroy : ∃ enough deleted, (∀ rounds ≥ enough, t.destroy rounds = .ok deleted) ∧ deleted.Nodup ∧
    ∀ ds, ds ∈ deleted ↔ ds.length < t.depth ∧ ∃ c, t.root.find ds = .node c

namespace Walkable

variable {t : SORT W} {ws : List Nat}

theorem destroy (walkable : t.Walkable ws) (root : t.root ≠ .empty) : ∃ enough deleted,
    (∀ rounds ≥ enough, t.destroy rounds = .ok deleted) ∧ deleted.Perm (Trie.nodePaths ws t.root) := by
  have rooted := walkable.made root
  have start : ∀ v ∈ [((([] : List Nat), t.root), 0)], v.2 < ws.length ∧ v.1.2.Rooted (ws.drop v.2) := by
    intro v member
    obtain rfl := List.mem_singleton.mp member
    exact ⟨List.length_pos_iff.mpr walkable.levels, rooted⟩
  have node : ∀ u ∈ [(([] : List Nat), t.root)], ∃ c, u.2 = Trie.node c := by
    intro u member
    obtain rfl := List.mem_singleton.mp member
    obtain ⟨w, rest, rfl⟩ := List.exists_cons_of_ne_nil walkable.levels
    exact rooted.node
  obtain ⟨ptrs, ran, nodes, perm⟩ := gatherLoop_spec walkable.shaped _ _ start rfl node
    (show ([(([] : List Nat), t.root)].map Prod.fst).Perm ([] ++ [((([] : List Nat), t.root), 0)].map fun v => v.1.1)
      from .refl _)
  obtain ⟨enough, ran⟩ : ∃ enough, ∀ rounds ≥ enough, t.gatherLoop rounds [(([], t.root), 0)] [([], t.root)] =
        .ok ptrs :=
    ⟨_, ran⟩
  refine ⟨enough, ptrs.map Prod.fst, fun rounds enough => ?_, ?_⟩
  · rw [SORT.destroy, ran rounds enough, ok_bind, deleteNode_all nodes, List.nil_append]
  · simpa [subtree] using perm

theorem walksSafely (walkable : t.Walkable ws) (root : t.root ≠ .empty) : t.WalksSafely := by
  refine ⟨⟨_, _, fun rounds enough => size_spec walkable.shaped walkable.levels (walkable.made root) enough⟩,
    fun newBits long => ?_, ?_⟩
  · rw [walkable.shaped.depth] at long
    obtain ⟨t', transformed, -⟩ := walkable.transform root long
    exact ⟨t', transformed⟩
  · obtain ⟨enough, deleted, destroyed, perm⟩ := walkable.destroy root
    refine ⟨enough, deleted, destroyed, perm.nodup_iff.mpr (Trie.nodePaths_nodup ws t.root), fun ds => ?_⟩
    rw [perm.mem_iff, Trie.mem_nodePaths (walkable.made root), walkable.shaped.depth]

theorem transform_null (walkable : t.Walkable ws) (null : t.root = .empty) (newBits : List Nat) :
    t.transform t.depth newBits [] = .error .nullPointer := by
  have positive : t.depth ≠ 0 := by
    rw [walkable.shaped.depth]
    exact fun none => walkable.levels (List.length_eq_zero_iff.mp none)
  obtain ⟨levels, depth⟩ := Nat.exists_eq_succ_of_ne_zero positive
  obtain ⟨slots, some⟩ := Nat.exists_eq_succ_of_ne_zero (Nat.two_pow_pos (t.numBits.getD 0 0)).ne'
  have searched : successors (t.numBits.getD 0 0) (Trie.empty, 0) = .error .nullPointer := by
    rw [successors, some, List.range_succ_eq_map]
    rfl
  have level : searchLevel newBits (t, [(t.root, 0)]) 0 = .error .nullPointer := by
    rw [null, searchLevel]
    simp only [List.foldlM_cons, searched, error_bind]
  rw [SORT.transform, if_neg (by simp), frontier, if_pos rfl, depth, List.range_succ_eq_map, List.foldlM_cons, level]
  rfl

theorem unsafe_null (walkable : t.Walkable ws) (null : t.root = .empty) : ¬ t.WalksSafely := by
  intro walks
  obtain ⟨t', transformed⟩ := walks.transform (List.replicate t.depth 0) (by simp)
  cases (walkable.transform_null null _).symm.trans transformed

end Walkable

/-! ## Runs -/

def TreeCall.makesRoot : TreeCall → Bool
  | .insertSimpleVertex _ | .retrieveVertex _ _ | .deleteVertex _ => true
  | .checkExistence _ | .transform _ _ => false

def TreeCall.rebuilds (depth : Nat) : TreeCall → Bool
  | .transform d _ => d == depth
  | _ => false

def TreeCall.Complete (depth : Nat) : TreeCall → Prop
  | .transform d newBits => d = depth → depth ≤ newBits.length
  | _ => True

theorem ofFanout_walkable {ws : List Nat} (levels : ws ≠ []) : (ofFanout ws : SORT W).Walkable ws :=
  ⟨ofFanout_shaped ws, levels, .inl rfl, fun _ => .inl (Trie.find_empty _)⟩

namespace Walkable

variable {t : SORT W} {ws : List Nat}

theorem treeCall (walkable : t.Walkable ws) (info : GlobalInfo) {c : TreeCall} (complete : c.Complete ws.length)
    (root : c.rebuilds ws.length = true → t.root ≠ .empty) :
    ∃ t' ws', t.treeCall info c = .ok t' ∧ t'.Walkable ws' ∧ ws'.length = ws.length ∧
      (c.makesRoot = true ∨ t.root ≠ .empty → t'.root ≠ .empty) ∧
      (c.makesRoot = false → c.rebuilds ws.length = false → t' = t) := by
  cases c with
  | insertSimpleVertex id =>
      obtain ⟨t', inserted, called⟩ := walkable.insertSimpleVertex id
      exact ⟨t', ws, inserted, called.walkable, rfl, fun _ => called.root, fun made => by cases made⟩
  | retrieveVertex id insertMode =>
      obtain ⟨t', retrieved, called⟩ := walkable.retrieveVertex info id insertMode
      exact ⟨t', ws, by rw [SORT.treeCall, retrieved]; rfl, called.walkable, rfl, fun _ => called.root,
        fun made => by cases made⟩
  | checkExistence id =>
      obtain ⟨b, checked⟩ := walkable.checkExistence id
      exact ⟨t, ws, by rw [SORT.treeCall, checked]; rfl, walkable, rfl, fun made => made.resolve_left Bool.false_ne_true,
        fun _ _ => rfl⟩
  | deleteVertex id =>
      obtain ⟨t', deleted, called⟩ := walkable.deleteVertex info id
      exact ⟨t', ws, deleted, called.walkable, rfl, fun _ => called.root, fun made => by cases made⟩
  | transform d newBits =>
      by_cases same : d = ws.length
      · obtain ⟨t', transformed, after, root'⟩ := walkable.transform (root (by simpa [TreeCall.rebuilds] using same))
          (complete same)
        refine ⟨t', _, ?_, after, List.length_take_of_le (complete same), fun _ => root', fun _ rebuilt => ?_⟩
        · rw [SORT.treeCall, same, ← walkable.shaped.depth, transformed]
        · exact absurd same (by simpa [TreeCall.rebuilds] using rebuilt)
      · refine ⟨t, ws, ?_, walkable, rfl, fun made => made.resolve_left Bool.false_ne_true, fun _ _ => rfl⟩
        rw [SORT.treeCall, SORT.transform, if_pos (by rwa [walkable.shaped.depth])]

theorem runTree (walkable : t.Walkable ws) (root : t.root ≠ .empty) {calls : List (GlobalInfo × TreeCall)}
    (complete : ∀ c ∈ calls, c.2.Complete ws.length) : ∃ t', t.runTree calls = .ok t' ∧ t'.WalksSafely := by
  induction calls generalizing t ws with
  | nil => exact ⟨t, rfl, walkable.walksSafely root⟩
  | cons c calls ih =>
      obtain ⟨s, ws', called, after, length, made, -⟩ := walkable.treeCall c.1 (complete c (by simp)) fun _ => root
      obtain ⟨t', ran, walks⟩ := ih after (made (.inr root)) fun d member => by
        rw [length]
        exact complete d (by simp [member])
      exact ⟨t', by rw [SORT.runTree, List.foldlM_cons, called, ok_bind]; exact ran, walks⟩

end Walkable

/-- A call that makes the root comes before every call that rebuilds the tree. -/
def RootFirst (depth : Nat) (calls : List TreeCall) : Prop :=
  ∃ before c after, calls = before ++ c :: after ∧ c.makesRoot = true ∧ ∀ b ∈ before, b.rebuilds depth = false

theorem rootFirst_cons {depth : Nat} {c : TreeCall} {calls : List TreeCall} :
    RootFirst depth (c :: calls) ↔ c.makesRoot = true ∨ c.rebuilds depth = false ∧ RootFirst depth calls := by
  constructor
  · rintro ⟨_ | ⟨b, before⟩, c', after, split, makes, quiet⟩
    · obtain ⟨rfl, rfl⟩ := List.cons.inj split
      exact .inl makes
    · obtain ⟨rfl, rfl⟩ := List.cons.inj split
      exact .inr ⟨quiet c (by simp), before, c', after, rfl, makes, fun b member => quiet b (by simp [member])⟩
  · rintro (makes | ⟨quiet, before, c', after, rfl, makes, quietBefore⟩)
    · exact ⟨[], c, calls, rfl, makes, by simp⟩
    · refine ⟨c :: before, c', after, rfl, makes, fun b member => ?_⟩
      rcases List.mem_cons.mp member with rfl | inside
      · exact quiet
      · exact quietBefore b inside

/-- The root is made by the first call that needs it, if that call is no `Transform`. -/
theorem Walkable.walks_iff {t : SORT W} {ws : List Nat} (walkable : t.Walkable ws) (null : t.root = .empty)
    {calls : List (GlobalInfo × TreeCall)} (complete : ∀ c ∈ calls, c.2.Complete ws.length) :
    (∃ t', t.runTree calls = .ok t' ∧ t'.WalksSafely) ↔ RootFirst ws.length (calls.map Prod.snd) := by
  induction calls generalizing t ws with
  | nil =>
      constructor
      · rintro ⟨t', ran, walks⟩
        obtain rfl := Except.ok.inj ran
        exact absurd walks (walkable.unsafe_null null)
      · rintro ⟨before, c, after, split, -⟩
        simp at split
  | cons c calls ih =>
      rw [List.map_cons, rootFirst_cons]
      have complete' : ∀ d ∈ calls, d.2.Complete ws.length := fun d member => complete d (by simp [member])
      by_cases rebuilds : c.2.rebuilds ws.length = true
      · -- it finds no root
        obtain ⟨info, call⟩ := c
        cases call with
        | transform d newBits =>
            have same : d = t.depth := by
              rw [walkable.shaped.depth]
              simpa [TreeCall.rebuilds] using rebuilds
            rw [SORT.runTree, List.foldlM_cons, SORT.treeCall, same, walkable.transform_null null]
            constructor
            · rintro ⟨t', ran, -⟩
              cases ran
            · rintro (makes | ⟨quiet, -⟩)
              · cases makes
              · exact absurd rebuilds (by rw [← same] at quiet; rw [quiet]; decide)
        | _ => cases rebuilds
      · obtain ⟨s, ws', called, after, length, made, kept⟩ :=
          walkable.treeCall c.1 (complete c (by simp)) fun rebuilt => absurd rebuilt rebuilds
        have quiet : c.2.rebuilds ws.length = false := Bool.eq_false_iff.mpr rebuilds
        rw [SORT.runTree, List.foldlM_cons, called, ok_bind, and_iff_right quiet]
        cases makes : c.2.makesRoot with
        | true =>
            refine iff_of_true ?_ (.inl rfl)
            exact after.runTree (made (.inl makes)) fun d member => by rw [length]; exact complete' d member
        | false =>
            obtain rfl := kept makes quiet
            rw [or_iff_right (by decide)]
            exact ih walkable null complete'

/-- The walks are safe after a run whenever some call made the root and every rebuilding of the tree
came after it: they do not look whether there is a root. -/
theorem walksSafely_iff {t₀ : SORT W} {ws : List Nat} (constructed : Constructed t₀ ws) {calls : List (GlobalInfo × TreeCall)}
    (complete : ∀ c ∈ calls, c.2.Complete t₀.depth) :
    (∃ t, t₀.runTree calls = .ok t ∧ t.WalksSafely) ↔ RootFirst t₀.depth (calls.map Prod.snd) := by
  obtain ⟨rfl, levels⟩ := constructed.fanout
  exact (ofFanout_walkable levels).walks_iff rfl complete

theorem walksSafely_iff_transformed : ∃ t : SORT Nat,
    (ofVector [1, 0, 1]).runTree [(⟨0, false⟩, .checkExistence 2), (⟨0, false⟩, .insertSimpleVertex 2),
      (⟨0, false⟩, .transform 2 [2, 0])] = .ok t ∧ t.WalksSafely := by
  have constructed : Constructed (ofVector [1, 0, 1] : SORT Nat) [1, 1] := .vector (by decide)
  have complete : ∀ c ∈ [((⟨0, false⟩ : GlobalInfo), TreeCall.checkExistence 2), (⟨0, false⟩, .insertSimpleVertex 2),
      (⟨0, false⟩, .transform 2 [2, 0])], c.2.Complete (ofVector [1, 0, 1] : SORT Nat).depth := by
    simp [TreeCall.Complete, ofVector, ofFanout, prune]
  exact (walksSafely_iff constructed complete).mpr ⟨[.checkExistence 2], .insertSimpleVertex 2, [.transform 2 [2, 0]], rfl, rfl,
    by decide⟩

/-- A tree on which no call has been made has no root, and all three walks look for its children. -/
theorem untouched_unsafe :
    (ofVector [1, 1] : SORT Nat).runTree [] = .ok (ofVector [1, 1]) ∧
    (∀ rounds, (ofVector [1, 1] : SORT Nat).size (rounds + 1) = .error .nullPointer) ∧
    (∀ rounds, (ofVector [1, 1] : SORT Nat).destroy (rounds + 1) = .error .nullPointer) ∧
    (ofVector [1, 1] : SORT Nat).transform 2 [1, 1] [] = .error .nullPointer ∧
    ¬ (ofVector [1, 1] : SORT Nat).WalksSafely := by
  refine ⟨rfl, fun _ => rfl, fun _ => rfl, rfl, fun walks => ?_⟩
  obtain ⟨t, transformed⟩ := walks.transform [1, 1] (by decide)
  cases transformed

/-! ## The size after insertions -/

/-- The calls whose trees `Size` compares. -/
def TreeCall.Inserts : TreeCall → Prop
  | .insertSimpleVertex _ | .retrieveVertex _ _ => True
  | _ => False

def insertedIds (calls : List (GlobalInfo × TreeCall)) : Finset NodeID :=
  (calls.flatMap fun c => c.2.inserted).toFinset

def slots (ws : List Nat) (ids : Finset NodeID) : Nat :=
  ∑ i ∈ Finset.range ws.length,
    2 ^ ws.getD i 0 * if i = 0 then 1 else (ids.image (· >>> (ws.sum - sumBefore (sums 0 ws) i))).card

theorem Walkable.inserts {t : SORT W} {ws : List Nat} (walkable : t.Walkable ws)
    {calls : List (GlobalInfo × TreeCall)} (only : ∀ c ∈ calls, c.2.Inserts) :
    ∃ t', t.runTree calls = .ok t' ∧ t'.Walkable ws ∧ (calls ≠ [] ∨ t.root ≠ .empty → t'.root ≠ .empty) ∧
      ∀ id, t'.Stores ws id ↔ t.Stores ws id ∨ ∃ a ∈ insertedIds calls, a ≡ id [MOD 2 ^ ws.sum] := by
  induction calls generalizing t with
  | nil => exact ⟨t, rfl, walkable, fun made => made.resolve_left (by simp), fun id => by simp [insertedIds]⟩
  | cons c calls ih =>
      have first : ∃ s, t.treeCall c.1 c.2 = .ok s ∧ Called t ws c.2.inserted s := by
        obtain ⟨info, call⟩ := c
        cases call with
        | insertSimpleVertex id => exact walkable.insertSimpleVertex id
        | retrieveVertex id insertMode =>
            obtain ⟨s, retrieved, called⟩ := walkable.retrieveVertex info id insertMode
            exact ⟨s, by rw [SORT.treeCall, retrieved]; rfl, called⟩
        | _ => exact False.elim (only _ List.mem_cons_self)
      obtain ⟨s, called, after⟩ := first
      obtain ⟨t', ran, walkable', root, stores⟩ := ih after.walkable fun d member => only d (by simp [member])
      refine ⟨t', ?_, walkable', fun _ => root (.inr after.root), fun id => ?_⟩
      · rw [SORT.runTree, List.foldlM_cons, called, ok_bind]
        exact ran
      · rw [stores, after.stores, or_assoc]
        simp only [insertedIds, List.flatMap_cons, List.toFinset_append, Finset.mem_union, List.mem_toFinset, or_and_right,
          exists_or]

theorem slots_eq (w : Nat) (ws : List Nat) (ids : Finset NodeID) :
    slots (w :: ws) ids = 2 ^ w + Trie.nodes (2 ^ ·) ws ids := by
  have shift (i : Nat) (inside : i < ws.length) :
      (w :: ws).sum - sumBefore (sums 0 (w :: ws)) (i + 1) = (ws.drop i).sum := by
    have before : sumBefore (sums 0 (w :: ws)) (i + 1) = ((w :: ws).take (i + 1)).sum := by
      rw [sumBefore, if_pos (Nat.succ_pos i), Nat.add_sub_cancel, sums_getD _ _ (by simp; omega), Nat.zero_add]
    have split := List.sum_take_add_sum_drop (w :: ws) (i + 1)
    rw [List.drop_succ_cons] at split
    omega
  rw [slots, Trie.nodes_eq_sum, List.length_cons, Finset.sum_range_succ', Nat.add_comm]
  refine congrArg₂ _ (by simp) (Finset.sum_congr rfl fun i inside => ?_)
  rw [if_neg (Nat.succ_ne_zero i), shift i (Finset.mem_range.mp inside)]
  simp only [Nat.shiftRight_eq_div_pow, List.getD_cons_succ]

theorem Walkable.size_slots {t : SORT W} {ws : List Nat} (walkable : t.Walkable ws) (root : t.root ≠ .empty)
    {ids : Finset NodeID} (inRange : ∀ id ∈ ids, id < 2 ^ ws.sum)
    (stores : ∀ id, t.Stores ws id ↔ ∃ a ∈ ids, a ≡ id [MOD 2 ^ ws.sum]) :
    ∃ enough, ∀ rounds ≥ enough, t.size rounds = .ok (slots ws ids) := by
  refine ⟨_, fun rounds enough => (size_spec walkable.shaped walkable.levels (walkable.made root) enough).trans ?_⟩
  have rooted := walkable.made root
  have stored (x : Nat) : x ∈ ids ↔ x < 2 ^ ws.sum ∧ t.root.find (cut ws x) ≠ .empty := by
    refine ⟨fun member => ⟨inRange x member, (stores x).mpr ⟨x, member, rfl⟩⟩, ?_⟩
    rintro ⟨small, found⟩
    obtain ⟨a, member, same⟩ := (stores x).mp found
    exact same.eq_of_lt_of_lt (inRange a member) small ▸ member
  obtain ⟨w, rest, rfl⟩ := List.exists_cons_of_ne_nil walkable.levels
  rw [shape, Trie.weigh_map, Trie.weigh_rooted _ rooted stored, slots_eq]

theorem Walkable.shape_eq {t t' : SORT W} {ws : List Nat} (walkable : t.Walkable ws) (walkable' : t'.Walkable ws)
    (root : t.root ≠ .empty) (root' : t'.root ≠ .empty) (same : ∀ id, t.Stores ws id ↔ t'.Stores ws id) :
    t.shape = t'.shape := by
  refine Trie.Rooted.ext ((walkable.made root).map _) ((walkable'.made root').map _) fun ds fit => ?_
  have agree := same (join 0 ws ds)
  rw [Stores, Stores, cut_join fit] at agree
  rw [shape, shape, Trie.find_map, Trie.find_map]
  have left := (walkable.leaves (join 0 ws ds)).leaf
  have right := (walkable'.leaves (join 0 ws ds)).leaf
  rw [cut_join fit] at left right
  rcases left with none | ⟨k, leaf⟩
  · have none' : t'.root.find ds = .empty := by_contra fun stored => agree.mpr stored none
    rw [none, none']
  · rcases right with none' | ⟨k', leaf'⟩
    · exact absurd none' (agree.mp (by rw [leaf]; simp))
    · rw [leaf, leaf']
      rfl

def InRange (ws : List Nat) (calls : List (GlobalInfo × TreeCall)) : Prop :=
  ∀ c ∈ calls, c.2.Inserts ∧ ∀ id ∈ c.2.inserted, id < 2 ^ ws.sum

/-- `Size` depends on the set of the inserted ids alone: it adds up the slots of one node for each
different prefix of them, and of the root. Any other calls that insert the same ids leave a tree of
the same shape, and a query changes nothing below the root. -/
theorem size_insertions {t₀ : SORT W} {ws : List Nat} (constructed : Constructed t₀ ws) {calls : List (GlobalInfo × TreeCall)}
    (some : calls ≠ []) (inRange : InRange ws calls) :
    ∃ t, t₀.runTree calls = .ok t ∧
      (∃ enough, ∀ rounds ≥ enough, t.size rounds = .ok (slots ws (insertedIds calls))) ∧
      (∀ others, others ≠ [] → InRange ws others → insertedIds others = insertedIds calls →
        ∃ s, t₀.runTree others = .ok s ∧ s.shape = t.shape) ∧
      ∀ info id, ∃ v, t.retrieveVertex info id false = .ok (v, t) ∧
        t₀.retrieveVertex info id false = .ok (.empty, { t₀ with root := Ptr.newNode }) := by
  obtain ⟨rfl, levels⟩ := constructed.fanout
  have fresh : (ofFanout ws : SORT W).Walkable ws := ofFanout_walkable levels
  have after {calls : List (GlobalInfo × TreeCall)} (some : calls ≠ []) (inRange : InRange ws calls) :
      ∃ t, (ofFanout ws : SORT W).runTree calls = .ok t ∧ t.Walkable ws ∧ t.root ≠ .empty ∧
        ∀ id, t.Stores ws id ↔ ∃ a ∈ insertedIds calls, a ≡ id [MOD 2 ^ ws.sum] := by
    obtain ⟨t, ran, walkable, root, stores⟩ := fresh.inserts fun c member => (inRange c member).1
    refine ⟨t, ran, walkable, root (.inl some), fun id => ?_⟩
    rw [stores, or_iff_right (fun stored => stored (Trie.find_empty _))]
  obtain ⟨t, ran, walkable, root, stores⟩ := after some inRange
  refine ⟨t, ran, walkable.size_slots root ?_ stores, fun others some' inRange' same => ?_, fun info id => ?_⟩
  · intro id member
    obtain ⟨c, inside, inserted⟩ := List.mem_flatMap.mp (List.mem_toFinset.mp member)
    exact (inRange c inside).2 id inserted
  · obtain ⟨s, ran', walkable', root', stores'⟩ := after some' inRange'
    refine ⟨s, ran', walkable'.shape_eq walkable root' root fun id => ?_⟩
    rw [stores, stores', same]
  · have query := walkable.query info id
    rw [Bool.eq_false_iff.mpr (Ptr.isNull_iff.not.mpr root)] at query
    refine ⟨_, query, ?_⟩
    rw [fresh.query info id]
    exact congrArg (fun ptr => Except.ok (ptr, _)) (Trie.find_empty _)

/-- Both ids need the same node below the root. -/
theorem size_insertions_three : ∃ t : SORT Nat,
    (ofVector [1, 0, 2]).runTree [(⟨0, false⟩, .retrieveVertex 5 true), (⟨0, false⟩, .retrieveVertex 1 false),
      (⟨0, false⟩, .retrieveVertex 7 true)] = .ok t ∧ ∃ enough, ∀ rounds ≥ enough, t.size rounds = .ok 6 := by
  have constructed : Constructed (ofVector [1, 0, 2] : SORT Nat) [1, 2] := .vector (by decide)
  have inRange : InRange [1, 2] [((⟨0, false⟩ : GlobalInfo), .retrieveVertex 5 true),
      (⟨0, false⟩, .retrieveVertex 1 false), (⟨0, false⟩, .retrieveVertex 7 true)] := by
    simp [InRange, TreeCall.Inserts, TreeCall.inserted]
  obtain ⟨t, ran, sized, -⟩ := size_insertions constructed (by simp) inRange
  exact ⟨t, ran, sized⟩

end SORT

end Radix
