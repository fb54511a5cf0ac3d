import Radix.Lib.Trie
import Radix.Utils.EdgeArray

/-!
# The space-optimized radix tree of `sort.cpp`

The tree that one caller at a time works on. A pointer held by a child slot is a trie: null, a
vertex record named by its place in `vertex_table`, or a node with its child slots. Shift widths stay
below the sizes of the shifted types: every fanout is at most 30 bits and their sum at most 63.
-/

namespace Radix

open Lib

/-- What `root` and the `uint64_t` child slots hold. -/
abbrev Ptr := Trie Nat

namespace Ptr

abbrev vertex (k : Nat) : Ptr := .leaf k

/-- `current->children[idx]`, for a node made with `1 << bits` slots. -/
def child : Ptr → (bits idx : Nat) → Result Ptr
  | .empty, _, _ => .error .nullPointer
  | .leaf _, _, _ => .error .badPointer
  | .node children, bits, idx =>
      if idx < 2 ^ bits then .ok (children idx) else .error .outOfBounds

def setChild : Ptr → (idx : Nat) → Ptr → Ptr
  | .node children, idx, ptr => .node (Function.update children idx ptr)
  | current, _, _ => current

def isNull : Ptr → Bool
  | .empty => true
  | _ => false

abbrev newNode : Ptr := Trie.bare

@[simp] theorem isNull_empty : isNull Trie.empty = true := rfl

@[simp] theorem isNull_vertex (k : Nat) : isNull (Trie.leaf k) = false := rfl

@[simp] theorem isNull_node (c : Nat → Ptr) : isNull (Trie.node c) = false := rfl

theorem isNull_iff {ptr : Ptr} : isNull ptr = true ↔ ptr = .empty := by cases ptr <;> simp [isNull]

end Ptr

def sums : Nat → List Nat → List Nat
  | _, [] => []
  | before, bits :: rest => (before + bits) :: sums (before + bits) rest

theorem sums_length (before : Nat) (ws : List Nat) : (sums before ws).length = ws.length := by
  induction ws generalizing before with
  | nil => rfl
  | cons w ws ih => simp [sums, ih]

structure SORT (W : Type) [Zero W] where
  root : Ptr := .empty
  vertexTable : List (Vertex W) := []
  numBits : List Nat := []
  sumBits : List Nat := []
  depth : Nat := 0
  cnt : Nat := 0

def prune (numBits : List Nat) : List Nat := numBits.filter (· ≠ 0)

namespace SORT

variable {W : Type} [Zero W]

/-! ## Construction -/

def ofFanout (numBits : List Nat) : SORT W where
  numBits := numBits
  sumBits := sums 0 numBits
  depth := numBits.length

def ofVector (numBits : List Nat) : SORT W := ofFanout (prune numBits)

def ofArray (d : Nat) (numBits : List Nat) : SORT W := ofFanout (prune (numBits.take d))

def ofOptimal (optimalFanout : Nat → Nat → Nat → List Nat) (n bitLength l : Nat) (pruned : Bool) :
    SORT W :=
  let s := optimalFanout n bitLength l
  ofFanout (if pruned then prune s else s)

/-! ## The digits of an id -/

/-- `sum_bits[i - 1]`, or 0 for the first level. -/
def sumBefore (sumBits : List Nat) (i : Nat) : Nat := if 0 < i then sumBits.getD (i - 1) 0 else 0

/-- `((id & ((1ull << num_now) - 1)) >> (sum_bits[depth - 1] - sum_bits[i]))` -/
def digitOf (sumBits : List Nat) (depth : Nat) (id i : Nat) : Nat :=
  let numNow := sumBits.getD (depth - 1) 0 - sumBefore sumBits i
  (id &&& (2 ^ numNow - 1)) >>> (sumBits.getD (depth - 1) 0 - sumBits.getD i 0)

def digit (t : SORT W) (id : NodeID) (i : Nat) : Nat := digitOf t.sumBits t.depth id i

/-! ## Retrieval and insertion

The loops over the levels recurse on the number of levels still to go. -/

def newArray (info : GlobalInfo) : WeightedEdgeArray W :=
  { WeightedEdgeArray.new 8 with
    timestamp := if info.isMixedWorkloads then some (List.replicate 8 none) else none }

/-- `cnt.fetch_add(1)`, `vertex_table.grow_by(1)` and the stores to the new record. -/
def newVertex (info : GlobalInfo) (t : SORT W) (id : NodeID) : SORT W :=
  { t with
    vertexTable := t.vertexTable ++ [{ node := id, idx := t.cnt, next := [newArray info] }]
    cnt := t.cnt + 1 }

def insertVertex (info : GlobalInfo) (id : NodeID) :
    (levels : Nat) → SORT W → (current : Ptr) → Result (Ptr × Ptr × SORT W)
  | 0, t, current => .ok (.empty, current, t)
  | below + 1, t, current => do
      let i := t.depth - (below + 1)
      let idx := t.digit id i
      let child ← current.child (t.numBits.getD i 0) idx
      if below ≠ 0 then do
        let child := if child.isNull then Ptr.newNode else child
        let (v, child, t) ← insertVertex info id below t child
        .ok (v, current.setChild idx child, t)
      else if child.isNull then
        let v := Ptr.vertex t.vertexTable.length
        .ok (v, current.setChild idx v, newVertex info t id)
      else .ok (child, current, t)

/-- The loop of `RetrieveVertex`. -/
def retrieveFrom (info : GlobalInfo) (id : NodeID) (insertMode : Bool) :
    (levels : Nat) → SORT W → (current : Ptr) → Result (Ptr × Ptr × SORT W)
  | 0, t, current => .ok (.empty, current, t)
  | below + 1, t, current => do
      let i := t.depth - (below + 1)
      let idx := t.digit id i
      let child ← current.child (t.numBits.getD i 0) idx
      if child.isNull then
        if insertMode then insertVertex info id (below + 1) t current else .ok (.empty, current, t)
      else if below = 0 then .ok (child, current, t)
      else do
        let (v, child, t) ← retrieveFrom info id insertMode below t child
        .ok (v, current.setChild idx child, t)

/-- The root is made by the first retrieval; its slots are `1 << num_bits[0]`. -/
def ensureRoot (t : SORT W) : Result (SORT W) :=
  if t.root.isNull then
    if t.numBits = [] then .error .outOfBounds else .ok { t with root := Ptr.newNode }
  else .ok t

def retrieveVertex (info : GlobalInfo) (t : SORT W) (id : NodeID) (insertMode : Bool) :
    Result (Ptr × SORT W) := do
  let t ← t.ensureRoot
  let (v, root, t) ← retrieveFrom info id insertMode t.depth t t.root
  .ok (v, { t with root := root })

def existsFrom (t : SORT W) (id : NodeID) : (levels : Nat) → (current : Ptr) → Result Bool
  | 0, _ => .ok false
  | below + 1, current => do
      let i := t.depth - (below + 1)
      let child ← current.child (t.numBits.getD i 0) (t.digit id i)
      if child.isNull then .ok false
      else if below = 0 then .ok true
      else existsFrom t id below child

def checkExistence (t : SORT W) (id : NodeID) : Result Bool :=
  if t.root.isNull then .ok false else existsFrom t id t.depth t.root

def vertexAt (t : SORT W) (k : Nat) : Result (Vertex W) :=
  match t.vertexTable[k]? with
  | none => .error .outOfBounds
  | some v => .ok v

def setVertex (t : SORT W) (k : Nat) (v : Vertex W) : SORT W :=
  { t with vertexTable := t.vertexTable.set k v }

def deleteVertex (info : GlobalInfo) (t : SORT W) (id : NodeID) : Result (Bool × SORT W) := do
  let (tmp, t) ← t.retrieveVertex info id false
  match tmp with
  | .empty => .ok (false, t)
  | .leaf k => do
      let v ← t.vertexAt k
      .ok (true, t.setVertex k { v with delTime := info.globalTimestamp })
  | .node _ => .error .badPointer

/-! ## Transform and Size -/

abbrev Frontier := List (Ptr × Nat)

/-- `num_bits[i] = _num_bits[i]; sum_bits[i] = (i > 0 ? sum_bits[i - 1] : 0) + num_bits[i];` -/
def adopt (newBits : List Nat) (t : SORT W) (i : Nat) : Result (SORT W) :=
  match newBits[i]? with
  | none => .error .outOfBounds
  | some bits => .ok { t with
      numBits := t.numBits.set i bits
      sumBits := t.sumBits.set i (sumBefore t.sumBits i + bits) }

def successors (bits : Nat) (u : Ptr × Nat) : Result Frontier :=
  (List.range (2 ^ bits)).foldlM (fun next j => do
    let child ← u.1.child bits j
    .ok (if child.isNull then next else next ++ [(child, u.2 * 2 ^ bits + j)])) []

def searchLevel (newBits : List Nat) (state : SORT W × Frontier) (i : Nat) :
    Result (SORT W × Frontier) := do
  let (t, frontiers) := state
  let next ← frontiers.foldlM (fun next u => do
    let found ← successors (t.numBits.getD i 0) u
    .ok (next ++ found)) []
  let t ← adopt newBits t i
  .ok (t, next)

/-- The walk to the slot of one known vertex; as `d = depth`, its id is shifted by 0 before. -/
def locate (t : SORT W) (u : Nat) : (levels : Nat) → (now : Ptr) → Result Ptr
  | 0, now => .ok now
  | below + 1, now => do
      let i := t.depth - (below + 1)
      let child ← now.child (t.numBits.getD i 0) (t.digit u i)
      locate t u below child

def place (t : SORT W) (u : Ptr × Nat) : (levels : Nat) → (now : Ptr) → Result Ptr
  | 0, now => .ok now
  | below + 1, now => do
      let i := t.depth - (below + 1)
      let idx := t.digit u.2 i
      let child ← now.child (t.numBits.getD i 0) idx
      if below ≠ 0 then do
        let child := if child.isNull then Ptr.newNode else child
        let child ← place t u below child
        .ok (now.setChild idx child)
      else .ok (if child.isNull then now.setChild idx u.1 else now)

/-- The frontier of `Transform`, and the tree with the new digit widths. In the branch with a vertex
set the list still begins with the root. -/
def frontier (t : SORT W) (newBits : List Nat) (vertexSet : List Nat) :
    Result (SORT W × Frontier) :=
  if vertexSet = [] then (List.range t.depth).foldlM (searchLevel newBits) (t, [(t.root, 0)])
  else do
    let frontiers ← vertexSet.foldlM (fun frontiers u => do
      let slot ← t.locate u t.depth t.root
      .ok (frontiers ++ [(slot, u)])) [(t.root, 0)]
    let t ← (List.range t.depth).foldlM (adopt newBits) t
    .ok (t, frontiers)

def transform (t : SORT W) (d : Nat) (newBits : List Nat) (vertexSet : List Nat) :
    Result (SORT W) :=
  if d ≠ t.depth then .ok t
  else do
    let (t, frontiers) ← t.frontier newBits vertexSet
    let root ← frontiers.foldlM (fun now u => t.place u t.depth now) Ptr.newNode
    .ok { t with root := root }

/-- The nonempty slots of a node on level `d`, queued with their level; leaves are not queued. -/
def queued (t : SORT W) (u : Ptr) (d : Nat) : Result (List (Ptr × Nat)) :=
  if d < t.depth - 1 then
    let bits := t.numBits.getD d 0
    (List.range (2 ^ bits)).foldlM (fun queue i => do
      let child ← u.child bits i
      .ok (if child.isNull then queue else queue ++ [(child, d + 1)])) []
  else .ok []

def sizeLoop (t : SORT W) : (rounds : Nat) → List (Ptr × Nat) → (sz : Nat) → Result Nat
  | _, [], sz => .ok sz
  | 0, _ :: _, _ => .error .hang
  | rounds + 1, (u, d) :: queue, sz =>
      if d < t.depth then do
        let more ← t.queued u d
        sizeLoop t rounds (queue ++ more) (sz + 2 ^ t.numBits.getD d 0)
      else sizeLoop t rounds queue sz

def size (t : SORT W) (rounds : Nat) : Result Nat := t.sizeLoop rounds [(t.root, 0)] 0

end SORT

end Radix
