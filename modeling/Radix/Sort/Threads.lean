import Radix.Lib.Interleaving
import Radix.Sort.Calls

/-!
# Retrieval by many threads

`RetrieveVertex` and `InsertVertex` as sequences of atomic steps on one tree. Nodes and records are
named by their addresses. What a thread does to memory that no other can see yet goes with the step
that publishes it. A digit never exceeds the slots of its node (`child_digit`), so a node is a
function of its slots.
-/

namespace Radix

open Lib

namespace Concurrent

structure SORTNode where
  children : Nat → Option Nat := fun _ => none
  mtx : Nat → Bool := fun _ => false

/-- What the threads share; the fanout is that of the tree the run starts with. -/
structure Tree (W : Type) [Zero W] where
  nodes : List SORTNode := []
  root : Option Nat := none
  mtx : Bool := false
  vertexTable : List (Vertex W) := []
  cnt : Nat := 0

namespace Tree

variable {W : Type} [Zero W]

def child (s : Tree W) (current idx : Nat) : Option Nat :=
  s.nodes[current]?.bind fun node => node.children idx

def setChild (s : Tree W) (current idx ptr : Nat) : Tree W :=
  { s with nodes := s.nodes.modify current fun node =>
      { node with children := Function.update node.children idx (some ptr) } }

def locked (s : Tree W) (current idx : Nat) : Bool :=
  (s.nodes[current]?.map fun node => node.mtx idx).getD false

def setLock (s : Tree W) (current idx : Nat) (bit : Bool) : Tree W :=
  { s with nodes := s.nodes.modify current fun node =>
      { node with mtx := Function.update node.mtx idx bit } }

def newNode (s : Tree W) : Tree W := { s with nodes := s.nodes ++ [{}] }

def setVertex (s : Tree W) (v : Nat) (change : Vertex W → Vertex W) : Tree W :=
  { s with vertexTable := s.vertexTable.modify v change }

def getExternalID (s : Tree W) (offset : Int) : Option NodeID :=
  if (s.cnt : Int) ≤ offset then some NodeID.invalid
  else if offset < 0 then none
  else s.vertexTable[offset.toNat]?.map Vertex.node

def recordByOffset (s : Tree W) (offset timestamp : Int) : Option Nat :=
  if (s.cnt : Int) ≤ offset then none
  else if offset < 0 then none
  else s.vertexTable[offset.toNat]?.bind fun vertex =>
    if vertex.delTime ≠ -1 ∧ vertex.delTime ≤ timestamp then none else some offset.toNat

section Access

variable (s : Tree W) (current idx ptr : Nat)

@[simp] theorem newNode_nodes : s.newNode.nodes = s.nodes ++ [({} : SORTNode)] := rfl

@[simp] theorem newNode_vertexTable : s.newNode.vertexTable = s.vertexTable := rfl

@[simp] theorem setChild_vertexTable : (s.setChild current idx ptr).vertexTable = s.vertexTable := rfl

@[simp] theorem setChild_root : (s.setChild current idx ptr).root = s.root := rfl

@[simp] theorem setChild_length : (s.setChild current idx ptr).nodes.length = s.nodes.length :=
  List.length_modify ..

@[simp] theorem setLock_vertexTable (bit : Bool) :
    (s.setLock current idx bit).vertexTable = s.vertexTable := rfl

@[simp] theorem setLock_length (bit : Bool) :
    (s.setLock current idx bit).nodes.length = s.nodes.length := List.length_modify ..

@[simp] theorem setVertex_length (change : Vertex W → Vertex W) :
    (s.setVertex ptr change).vertexTable.length = s.vertexTable.length := List.length_modify ..

theorem child_allocated {a j b : Nat} (child : s.child a j = some b) : a < s.nodes.length := by
  obtain ⟨node, there, -⟩ := Option.bind_eq_some_iff.mp child
  exact (List.getElem?_eq_some_iff.mp there).1

@[simp] theorem newNode_child (a j : Nat) : s.newNode.child a j = s.child a j := by
  unfold child
  rw [newNode_nodes, List.getElem?_append]
  split
  · rfl
  · rename_i beyond
    rw [List.getElem?_eq_none (Nat.not_lt.mp beyond)]
    cases a - s.nodes.length <;> rfl

theorem setChild_child (a j : Nat) : (s.setChild current idx ptr).child a j =
    if a = current ∧ j = idx ∧ current < s.nodes.length then some ptr else s.child a j := by
  unfold child setChild
  rw [List.getElem?_modify]
  by_cases here : current = a
  · subst here
    by_cases allocated : current < s.nodes.length
    · by_cases slot : j = idx <;> simp [allocated, slot]
    · simp [allocated]
  · simp [here, Ne.symm here]

@[simp] theorem setLock_child (bit : Bool) (a j : Nat) :
    (s.setLock current idx bit).child a j = s.child a j := by
  unfold child setLock
  rw [List.getElem?_modify]
  by_cases here : current = a
  · subst here
    cases s.nodes[current]? <;> simp
  · simp [here]

end Access

end Tree

inductive Pc where
  | checkRoot | lockRoot | recheckRoot | storeRoot | unlockRoot | loadRoot
  /-- The loop of `RetrieveVertex`. -/
  | readChild (current i : Nat)
  | descend (current i : Nat)
  /-- The loop of `InsertVertex`. -/
  | readSlot (current i : Nat)
  | lockSlot (current i : Nat)
  | recheckSlot (current i : Nat)
  | storeNode (current i : Nat)
  | unlockSlot (current i : Nat)
  | insertDescend (current i : Nat)
  | lockLeaf (current i : Nat)
  | recheckLeaf (current i : Nat)
  | drawIdx (current i : Nat)
  | growTable (current i idx : Nat)
  | storeIdx (current i idx v : Nat)
  | storeNext (current i v : Nat)
  | publish (current i v : Nat)
  /-- `tmp->node = id`, by the call that made the record or by one that found it. -/
  | storeId (current i v : Nat) (made : Bool)
  | unlockLeaf (current i v : Nat)
  | returned (v : Option Nat)
  deriving DecidableEq, Repr

variable {W : Type} [Zero W]

def next (fanout : SORT W) (info : GlobalInfo) (id : NodeID) (insertMode : Bool) (s : Tree W) :
    Pc → Option (Tree W × Pc)
  | .checkRoot => some (s, if s.root.isNone then .lockRoot else .loadRoot)
  | .lockRoot => if s.mtx then none else some ({ s with mtx := true }, .recheckRoot)
  | .recheckRoot => some (s, if s.root.isNone then .storeRoot else .unlockRoot)
  | .storeRoot => some ({ s.newNode with root := some s.nodes.length }, .unlockRoot)
  | .unlockRoot => some ({ s with mtx := false }, .loadRoot)
  | .loadRoot =>
      if fanout.depth = 0 then some (s, .returned none)
      else s.root.map fun current => (s, .readChild current 0)
  | .readChild current i =>
      match s.child current (fanout.digit id i) with
      | none => some (s, if insertMode then .readSlot current i else .returned none)
      | some ptr => some (s, if i < fanout.depth - 1 then .descend current i else .returned (some ptr))
  | .descend current i =>
      (s.child current (fanout.digit id i)).map fun ptr => (s, .readChild ptr (i + 1))
  | .readSlot current i =>
      match s.child current (fanout.digit id i) with
      | none => some (s, if i < fanout.depth - 1 then .lockSlot current i else .lockLeaf current i)
      | some ptr => some (s, if i < fanout.depth - 1 then .insertDescend current i else .returned (some ptr))
  | .lockSlot current i =>
      if s.locked current (fanout.digit id i) then none
      else some (s.setLock current (fanout.digit id i) true, .recheckSlot current i)
  | .recheckSlot current i =>
      some (s, if (s.child current (fanout.digit id i)).isNone then .storeNode current i
        else .unlockSlot current i)
  | .storeNode current i =>
      some (s.newNode.setChild current (fanout.digit id i) s.nodes.length, .unlockSlot current i)
  | .unlockSlot current i =>
      some (s.setLock current (fanout.digit id i) false, .insertDescend current i)
  | .insertDescend current i =>
      (s.child current (fanout.digit id i)).map fun ptr => (s, .readSlot ptr (i + 1))
  | .lockLeaf current i =>
      if s.locked current (fanout.digit id i) then none
      else some (s.setLock current (fanout.digit id i) true, .recheckLeaf current i)
  | .recheckLeaf current i =>
      match s.child current (fanout.digit id i) with
      | none => some (s, .drawIdx current i)
      | some v => some (s, .storeId current i v false)
  | .drawIdx current i => some ({ s with cnt := s.cnt + 1 }, .growTable current i s.cnt)
  | .growTable current i idx =>
      some ({ s with vertexTable := s.vertexTable ++ [{}] }, .storeIdx current i idx s.vertexTable.length)
  | .storeIdx current i idx v =>
      some (s.setVertex v fun vertex => { vertex with idx := idx }, .storeNext current i v)
  | .storeNext current i v =>
      some (s.setVertex v fun vertex => { vertex with next := [SORT.newArray info] }, .publish current i v)
  | .publish current i v =>
      some (s.setChild current (fanout.digit id i) v, .storeId current i v true)
  | .storeId current i v _ =>
      some (s.setVertex v fun vertex => { vertex with node := id }, .unlockLeaf current i v)
  | .unlockLeaf current i v =>
      some (s.setLock current (fanout.digit id i) false, .returned (some v))
  | .returned _ => none

structure Requests where
  id : Nat → NodeID
  insertMode : Nat → Bool

abbrev State (W : Type) [Zero W] := Threads (Tree W) Pc Nat

def nextOf (fanout : SORT W) (info : GlobalInfo) (calls : Requests) (t : Nat) (s : Tree W) (pc : Pc) :
    Option (Tree W × Pc) := next fanout info (calls.id t) (calls.insertMode t) s pc

def initial : State W := ⟨{}, fun _ => .checkRoot⟩

end Concurrent

end Radix
