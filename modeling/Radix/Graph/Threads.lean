import Radix.Lib.Interleaving
import Radix.Graph.Insert

/-!
# One vertex used by many threads

`RadixGraph::Insert` and, in mixed mode, `RadixGraph::GetNeighbours` on one `Vertex*` as sequences
of atomic steps. Arrays are numbered in the order of their allocation. As in the sequential model a
list stands for the links of the versions: publication and the destructor keep `prev_arr` and
`next_arr` in step under the vertex lock. What a call does under that lock to memory that others
only read is one step. The memory of a deleted array goes back to the allocator: a later array may
stand at its address, and whoever still uses it meets whatever it holds by then.
-/

namespace Radix

open Lib

variable {W : Type} [Zero W]

namespace OneVertex

structure Source (W : Type) [Zero W] where
  memory : List (WeightedEdgeArray W)
  /-- The versions from `src->next` along `prev_arr`. -/
  chain : List Nat
  mtx : Bool := false
  info : GlobalInfo

/-- What a run is given: the thread's scratch bitmap for each call, where the allocator puts each
array, and what stands in memory that has been deleted or not been written yet. -/
structure Setting (W : Type) [Zero W] where
  platform : Platform W
  expandRate : ℚ
  bitmap : Nat → SegmentedBitmap
  address : Nat → Nat
  reused : Nat → WeightedEdgeArray W
  unwritten : Nat → Nat → Int

inductive Request (W : Type) where
  | insert (des : Int) (weight : W) (deltaDeg : Int)
  | getNeighbours (timestamp : Int)

namespace Request

def entry : Request W → WeightedEdge W
  | .insert des weight _ => { weight := weight, idx := des }
  | .getNeighbours _ => {}

def deltaDeg : Request W → Int
  | .insert _ _ deltaDeg => deltaDeg
  | .getNeighbours _ => 0

def timestamp : Request W → Int
  | .insert _ _ _ => 0
  | .getNeighbours timestamp => timestamp

end Request

namespace Source

variable (s : Source W)

def modify (p : Nat) (change : WeightedEdgeArray W → WeightedEdgeArray W) : Source W :=
  { s with memory := s.memory.modify p change }

def prevArr (p : Nat) : Option Nat := (s.chain.dropWhile (· ≠ p)).tail.head?

def unread (p : Nat) : Bool := s.memory[p]?.any fun arr => arr.threadsRead = 0

/-- `delete p`, whose destructor links its neighbours with each other. -/
def delete (setting : Setting W) (p : Nat) : Source W :=
  { s with memory := s.memory.set p (setting.reused p), chain := s.chain.erase p }

/-- The version that `Insert` deletes when it has replaced `next`. -/
def doomed (next : Nat) : Option Nat :=
  if s.unread next then (s.prevArr next).filter fun tmp => s.unread tmp else none

/-- `delete [] next->edge` and `delete [] next->timestamp`, and `delete tmp`. -/
def retire (setting : Setting W) (next : Nat) : Source W :=
  if s.unread next then
    let s' := s.modify next fun arr => { arr with edge := none, timestamp := none }
    match s.doomed next with
    | none => s'
    | some tmp => s'.delete setting tmp
  else s

/-- Whether the last reader of `next` deletes it. -/
def abandoned (next : Nat) : Bool :=
  (s.memory[next]?.any fun arr => arr.threadsRead - 1 = 0) && s.chain.head? ≠ some next

def leave (setting : Setting W) (next : Nat) : Source W :=
  let s' := s.modify next .release
  if s.abandoned next then s'.delete setting next else s'

def vertex : Vertex W := { next := s.chain.filterMap fun p => s.memory[p]? }

end Source

inductive Pc (W : Type) [Zero W] where
  /-- `auto next = src->next.load()` and the first `i = next->size.fetch_add(1)`. -/
  | loadNext
  | claim (next : Nat)
  /-- `while (i >= next->cap)`, down to `src->mtx.clear()`. -/
  | checkCap (next i : Nat)
  | lock (next : Nat)
  | compareNext (next : Nat)
  | waitFull (next : Nat)
  | allocate (next : Nat)
  | compact (next : Nat) (newArray : WeightedEdgeArray W)
  | publish (next : Nat) (newArray : WeightedEdgeArray W)
  | retire (next : Nat)
  | reload
  | reclaim (next : Nat)
  | unlock (next i : Nat)
  /-- The stores to the slot. -/
  | drawStamp (next i : Nat)
  | storeStamp (next i : Nat) (stamp : Int)
  | bumpDeg (next i : Nat)
  | writeSlot (next i : Nat)
  | bumpPhysical (next i : Nat)
  | inserted (next i : Nat)
  /-- `GetNeighbours` up to `threads_read++`. -/
  | enter
  | select
  | unlockRead (next : Nat)
  | unlockNone
  /-- Its loops. -/
  | loadCount (next : Nat)
  | copySnapshot (next cnt : Nat)
  | cut (next i : Nat)
  | scan (next cnt i retryCount : Nat) (neighbours : List (WeightedEdge W)) (marks : SegmentedBitmap)
  | clear (next cnt : Nat) (neighbours : List (WeightedEdge W)) (marks : SegmentedBitmap)
  /-- From `threads_read--` on. -/
  | lockLeave (next : Nat) (neighbours : List (WeightedEdge W))
  | leave (next : Nat) (neighbours : List (WeightedEdge W))
  | unlockLeave (neighbours : List (WeightedEdge W))
  | returned (found : Bool) (neighbours : List (WeightedEdge W))

def Request.start : Request W → Pc W
  | .insert _ _ _ => .loadNext
  | .getNeighbours _ => .enter

variable [DecidableEq W]

/-- One test of a slot in the backward loop of `GetNeighbours`; with `idx` still unset it waits a
number of rounds and then passes the slot over. -/
def scanSlot (arr : WeightedEdgeArray W) (next cnt i retryCount : Nat)
    (neighbours : List (WeightedEdge W)) (marks : SegmentedBitmap) : Result (Pc W) := do
  let e ← arr.read i
  if e.idx = -1 then
    if retryCount < 10000 then .ok (.scan next cnt (i + 1) (retryCount + 1) neighbours marks)
    else .ok (.scan next cnt i 0 neighbours marks)
  else do
    let bit ← e.bit
    if marks.getBit bit then .ok (.scan next cnt i 0 neighbours marks)
    else .ok (.scan next cnt i 0 (if e.live then neighbours ++ [e] else neighbours)
      (if arr.snapshotDeg ≤ i then marks.setBit bit else marks))

/-- The next atomic step of the call `t` for `request`. Whoever waits has none. -/
def next (setting : Setting W) (t : Nat) (request : Request W) (s : Source W) :
    Pc W → Option (Source W × Pc W)
  | .loadNext => s.chain.head?.map fun next => (s, .claim next)
  | .claim next => s.memory[next]?.map fun arr => (s.modify next .claim, .checkCap next arr.size)
  | .checkCap next i => s.memory[next]?.map fun arr =>
      (s, if arr.cap ≤ i then .lock next else .drawStamp next i)
  | .lock next => if s.mtx then none else some ({ s with mtx := true }, .compareNext next)
  | .compareNext next => s.chain.head?.map fun current =>
      (s, if setting.address next = setting.address current then .waitFull current else .reload)
  | .waitFull next => s.memory[next]?.bind fun arr =>
      if arr.physicalSize = arr.cap then some (s, .allocate next) else none
  | .allocate next => s.memory[next]?.map fun arr =>
      (s, .compact next (.new (setting.platform.capacity (max arr.deg 0).toNat setting.expandRate
        (arr.size - arr.cap + 1))))
  | .compact next newArray => s.memory[next]?.bind fun arr =>
      (logCompaction s.info (setting.bitmap t) arr newArray).toOption.map fun compacted =>
        ({ s with info := compacted.2.2 }, .publish next compacted.1)
  | .publish next newArray =>
      some ({ s with memory := s.memory ++ [newArray], chain := s.memory.length :: s.chain },
        .retire next)
  | .retire next => some (s.retire setting next, .reload)
  | .reload => s.chain.head?.map fun next => (s, .reclaim next)
  | .reclaim next => s.memory[next]?.map fun arr => (s.modify next .claim, .unlock next arr.size)
  | .unlock next i => some ({ s with mtx := false }, .checkCap next i)
  | .drawStamp next i => s.memory[next]?.map fun arr =>
      if arr.timestamp.isNone then (s, .bumpDeg next i)
      else ({ s with info := s.info.tick }, .storeStamp next i s.info.globalTimestamp)
  | .storeStamp next i stamp => s.memory[next]?.bind fun arr =>
      if i < arr.snapshotDeg then none
      else (arr.storeStamp (i - arr.snapshotDeg) stamp).toOption.map fun stamped =>
        (s.modify next fun _ => stamped, .bumpDeg next i)
  | .bumpDeg next i =>
      some (s.modify next fun arr => { arr with deg := arr.deg + request.deltaDeg }, .writeSlot next i)
  | .writeSlot next i => s.memory[next]?.bind fun arr =>
      (arr.store i request.entry).toOption.map fun written =>
        (s.modify next fun _ => written, .bumpPhysical next i)
  | .bumpPhysical next i =>
      some (s.modify next fun arr => { arr with physicalSize := arr.physicalSize + 1 },
        .inserted next i)
  | .inserted _ _ => none
  | .enter =>
      if s.info.isMixedWorkloads ∧ s.mtx = false then some ({ s with mtx := true }, .select) else none
  | .select =>
      match s.chain.find? fun p => s.memory[p]?.any (·.readableAt request.timestamp) with
      | none => some (s, .unlockNone)
      | some next => some (s.modify next .acquire, .unlockRead next)
  | .unlockRead next => some ({ s with mtx := false }, .loadCount next)
  | .unlockNone => some ({ s with mtx := false }, .returned false [])
  | .loadCount next => s.memory[next]?.map fun arr =>
      (s, if arr.snapshotDeg < arr.physicalSize then
          if arr.timestamp.isNone then
            .scan next arr.physicalSize arr.physicalSize 0 [] (setting.bitmap t)
          else .cut next (arr.physicalSize - 1)
        else .copySnapshot next arr.physicalSize)
  | .copySnapshot next cnt => s.memory[next]?.bind fun arr =>
      (Radix.copySnapshot arr cnt []).toOption.map fun neighbours => (s, .lockLeave next neighbours)
  | .cut next i => s.memory[next]?.bind fun arr =>
      let stamp := match arr.stamp (i - arr.snapshotDeg) with
        | .error .uninitialized => some (setting.unwritten next i)
        | .error _ => none
        | .ok stamp => some stamp
      stamp.bind fun stamp =>
        if stamp ≤ request.timestamp then
          some (s, .scan next (i + 1) (i + 1) 0 [] (setting.bitmap t))
        else if i = arr.snapshotDeg then
          (Radix.copySnapshot arr arr.snapshotDeg []).toOption.map fun neighbours =>
            (s, .scan next 0 0 0 neighbours (setting.bitmap t))
        else some (s, .cut next (i - 1))
  | .scan next cnt 0 _ neighbours marks => some (s, .clear next cnt neighbours marks)
  | .scan next cnt (i + 1) retryCount neighbours marks => s.memory[next]?.bind fun arr =>
      (scanSlot arr next cnt i retryCount neighbours marks).toOption.map fun pc => (s, pc)
  | .clear next cnt neighbours marks => s.memory[next]?.bind fun arr =>
      (clearMarks true arr arr.snapshotDeg (cnt - arr.snapshotDeg) marks).toOption.map fun _ =>
        (s, .lockLeave next neighbours)
  | .lockLeave next neighbours =>
      if s.mtx then none else some ({ s with mtx := true }, .leave next neighbours)
  | .leave next neighbours => some (s.leave setting next, .unlockLeave neighbours)
  | .unlockLeave neighbours => some ({ s with mtx := false }, .returned true neighbours)
  | .returned _ _ => none

abbrev State (W : Type) [Zero W] := Threads (Source W) (Pc W) Nat

def nextOf (setting : Setting W) (calls : Nat → Request W) (t : Nat) (s : Source W) (pc : Pc W) :
    Option (Source W × Pc W) := next setting t (calls t) s pc

def initial (calls : Nat → Request W) (v : Vertex W) (info : GlobalInfo) : State W where
  shared :=
    { memory := v.next.reverse, chain := (List.range v.next.length).reverse, info := info }
  local' t := (calls t).start

end OneVertex

end Radix
