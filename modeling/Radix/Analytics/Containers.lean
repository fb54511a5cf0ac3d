import Mathlib.Data.List.Range
import Mathlib.Logic.Function.Basic
import Radix.Utils.EdgeArray
import Radix.Lib.Fallible

/-!
# The containers of GAPBS

`pvector`, `Bitmap`, `SlidingQueue` and `QueueBuffer`, with cells that `new` leaves uninitialised, and the
parallel loops, whose iterations run one after the other in any order.
-/

namespace Radix.Analytics

open Lib

/-- The order in which the `t`-th parallel loop takes up its iterations. -/
structure Loops where
  order : Nat → List Nat → List Nat
  order_perm : ∀ t xs, (order t xs).Perm xs

def Loops.forward : Loops := ⟨fun _ xs => xs, fun _ _ => .refl _⟩

/-! ## `pvector` -/

structure PVector (α : Type) where
  cells : List (Option α)
  deriving DecidableEq

namespace PVector

variable {α : Type}

def new (n : Nat) : PVector α := ⟨List.replicate n none⟩

def filled (n : Nat) (a : α) : PVector α := ⟨List.replicate n (some a)⟩

def get (v : PVector α) (i : Nat) : Result α :=
  match v.cells[i]? with
  | none => .error .outOfBounds
  | some none => .error .uninitialized
  | some (some a) => .ok a

def set (v : PVector α) (i : Nat) (a : α) : Result (PVector α) :=
  if i < v.cells.length then .ok ⟨v.cells.set i (some a)⟩ else .error .outOfBounds

structure Cells (v : PVector α) (n : Nat) (f : Nat → Option α) : Prop where
  length : v.cells.length = n
  cell : ∀ i < n, v.cells[i]? = some (f i)

def Stores (v : PVector α) (n : Nat) (f : Nat → α) : Prop := v.Cells n fun i => some (f i)

variable {v : PVector α} {n : Nat} {f : Nat → Option α}

theorem new_cells (n : Nat) : (new n : PVector α).Cells n fun _ => none :=
  ⟨by simp [new], fun i inside => by simp [new, inside]⟩

theorem filled_stores (n : Nat) (a : α) : (filled n a).Stores n fun _ => a :=
  ⟨by simp [filled], fun i inside => by simp [filled, inside]⟩

theorem Cells.congr {f' : Nat → Option α} (cells : v.Cells n f) (same : ∀ i < n, f i = f' i) : v.Cells n f' :=
  ⟨cells.length, fun i inside => by rw [cells.cell i inside, same i inside]⟩

theorem Cells.get (cells : v.Cells n f) {i : Nat} (inside : i < n) {a : α} (here : f i = some a) :
    v.get i = .ok a := by
  rw [PVector.get, cells.cell i inside, here]

theorem Cells.set (cells : v.Cells n f) {i : Nat} (inside : i < n) (a : α) :
    ∃ v', v.set i a = .ok v' ∧ v'.Cells n (Function.update f i (some a)) := by
  have bound : i < v.cells.length := cells.length.symm ▸ inside
  refine ⟨⟨v.cells.set i (some a)⟩, if_pos bound, by simp [cells.length], fun j below => ?_⟩
  rw [List.getElem?_set]
  by_cases same : i = j
  · subst same
    simp [bound]
  · rw [if_neg same, cells.cell j below, Function.update_of_ne (Ne.symm same)]

variable {h : Nat → α}

theorem Stores.congr {h' : Nat → α} (stores : v.Stores n h) (same : ∀ i < n, h i = h' i) : v.Stores n h' :=
  Cells.congr stores fun i inside => by rw [same i inside]

theorem Stores.get (stores : v.Stores n h) {i : Nat} (inside : i < n) : v.get i = .ok (h i) :=
  Cells.get stores inside rfl

theorem Stores.set (stores : v.Stores n h) {i : Nat} (inside : i < n) (a : α) :
    ∃ v', v.set i a = .ok v' ∧ v'.Stores n (Function.update h i a) := by
  obtain ⟨v', stored, cells⟩ := Cells.set stores inside a
  refine ⟨v', stored, cells.congr fun j _ => ?_⟩
  by_cases same : j = i
  · subst same
    simp
  · simp [same]

theorem init_loop (h : Nat → α) {order : List Nat} (perm : order.Perm (List.range n)) :
    ∃ v', order.foldlM (fun v i => v.set i (h i)) (new n : PVector α) = .ok v' ∧ v'.Stores n h := by
  have step (done : List Nat) (i : Nat) (v : PVector α) (earlier : done ++ [i] <+: order)
      (cells : v.Cells n fun j => if j ∈ done then some (h j) else none) :
      ∃ v', v.set i (h i) = .ok v' ∧ v'.Cells n fun j => if j ∈ done ++ [i] then some (h j) else none := by
    have inside : i < n := List.mem_range.mp (perm.subset (earlier.subset (by simp)))
    obtain ⟨v', stored, cells'⟩ := cells.set inside (h i)
    refine ⟨v', stored, cells'.congr fun j _ => ?_⟩
    by_cases same : j = i
    · subst same
      simp
    · simp [same]
  obtain ⟨v', looped, cells⟩ := foldlM_invariant order
    (fun done (v : PVector α) => v.Cells n fun j => if j ∈ done then some (h j) else none) step
    (by simpa using new_cells n)
  refine ⟨v', looped, cells.congr fun j below => ?_⟩
  rw [if_pos (perm.symm.subset (List.mem_range.mpr below))]

end PVector

/-! ## `Bitmap` -/

abbrev Bitmap := PVector (BitVec 64)

namespace Bitmap

def new (size : Nat) : Bitmap := PVector.new ((size + 63) / 64)

def reset (b : Bitmap) : Bitmap := PVector.filled b.cells.length 0#64

/-- `set_bit`, and `set_bit_atomic` where no other thread writes the word. -/
def setBit (b : Bitmap) (pos : Nat) : Result Bitmap := do
  let word ← b.get (pos / 64)
  b.set (pos / 64) (word ||| 1#64 <<< (pos % 64))

def getBit (b : Bitmap) (pos : Nat) : Result Bool := do
  let word ← b.get (pos / 64)
  .ok ((word >>> (pos % 64)).getLsbD 0)

def Marks (b : Bitmap) (size : Nat) (marked : Nat → Bool) : Prop :=
  ∃ words : Nat → BitVec 64, b.Stores ((size + 63) / 64) words ∧
    ∀ pos < size, (words (pos / 64)).getLsbD (pos % 64) = marked pos

variable {b : Bitmap} {size : Nat} {marked : Nat → Bool}

theorem new_length (size : Nat) : (new size).cells.length = (size + 63) / 64 := by simp [new, PVector.new]

theorem reset_marks (length : b.cells.length = (size + 63) / 64) : b.reset.Marks size fun _ => false :=
  ⟨fun _ => 0#64, length ▸ PVector.filled_stores _ _, fun pos _ => by simp⟩

theorem Marks.length (marks : b.Marks size marked) : b.cells.length = (size + 63) / 64 := by
  obtain ⟨words, stores, -⟩ := marks
  exact stores.length

theorem Marks.congr {marked' : Nat → Bool} (marks : b.Marks size marked)
    (same : ∀ pos < size, marked pos = marked' pos) : b.Marks size marked' := by
  obtain ⟨words, stores, bits⟩ := marks
  exact ⟨words, stores, fun pos inside => by rw [bits pos inside, same pos inside]⟩

theorem Marks.get (marks : b.Marks size marked) {pos : Nat} (inside : pos < size) :
    b.getBit pos = .ok (marked pos) := by
  obtain ⟨words, stores, bits⟩ := marks
  rw [getBit, stores.get (by omega), ok_bind, ← bits pos inside]
  simp

theorem Marks.set (marks : b.Marks size marked) {pos : Nat} (inside : pos < size) :
    ∃ b', b.setBit pos = .ok b' ∧ b'.Marks size fun q => q = pos || marked q := by
  obtain ⟨words, stores, bits⟩ := marks
  have word : pos / 64 < (size + 63) / 64 := by omega
  have low : pos % 64 < 64 := Nat.mod_lt _ (by decide)
  obtain ⟨b', stored, stores'⟩ := stores.set word (words (pos / 64) ||| 1#64 <<< (pos % 64))
  refine ⟨b', by rw [setBit, stores.get word, ok_bind, stored], _, stores', fun q below => ?_⟩
  have low' : q % 64 < 64 := Nat.mod_lt _ (by decide)
  by_cases same : q / 64 = pos / 64
  · have position : q = pos ↔ pos % 64 = q % 64 := by omega
    rw [same, Function.update_self, BitVec.getLsbD_or, ← same, bits q below, Bool.or_comm]
    congr 1
    by_cases equal : pos % 64 = q % 64
    · simp [position.mpr equal, low]
    · have other : q ≠ pos := fun h => equal (position.mp h)
      simp [other, low']
      omega
  · have other : q ≠ pos := fun h => same (by rw [h])
    rw [Function.update_of_ne same, bits q below]
    simp [other]

end Bitmap

/-! ## `SlidingQueue` and `QueueBuffer` -/

structure SlidingQueue where
  shared : PVector Nat
  sharedIn : Nat := 0
  sharedOutStart : Nat := 0
  sharedOutEnd : Nat := 0
  deriving DecidableEq

namespace SlidingQueue

def new (sharedSize : Nat) : SlidingQueue where
  shared := .new sharedSize

def pushBack (q : SlidingQueue) (toAdd : Nat) : Result SlidingQueue := do
  let shared ← q.shared.set q.sharedIn toAdd
  .ok { q with shared, sharedIn := q.sharedIn + 1 }

def slideWindow (q : SlidingQueue) : SlidingQueue :=
  { q with sharedOutStart := q.sharedOutEnd, sharedOutEnd := q.sharedIn }

def empty (q : SlidingQueue) : Bool := q.sharedOutStart = q.sharedOutEnd

def size (q : SlidingQueue) : Nat := q.sharedOutEnd - q.sharedOutStart

def window (q : SlidingQueue) : List Nat := List.range' q.sharedOutStart q.size

end SlidingQueue

/-- The items of a `QueueBuffer` that are not flushed yet. -/
abbrev QueueBuffer := List Nat

namespace QueueBuffer

def localSize : Nat := 16384

/-- `std::copy` into the room that `fetch_and_add` reserved. -/
def flush (buffer : QueueBuffer) (q : SlidingQueue) : Result SlidingQueue := buffer.foldlM SlidingQueue.pushBack q

def pushBack (buffer : QueueBuffer) (q : SlidingQueue) (toAdd : Nat) : Result (QueueBuffer × SlidingQueue) :=
  if buffer.length = localSize then do
    let q ← buffer.flush q
    .ok ([toAdd], q)
  else .ok (buffer ++ [toAdd], q)

end QueueBuffer

structure SlidingQueue.Got (q : SlidingQueue) (n : Nat) (pushed : List Nat) (start stop : Nat) : Prop where
  cells : q.shared.Cells n fun i => pushed[i]?
  sharedIn : q.sharedIn = pushed.length
  outStart : q.sharedOutStart = start
  outEnd : q.sharedOutEnd = stop

namespace SlidingQueue.Got

variable {q : SlidingQueue} {n start stop : Nat} {pushed : List Nat}

theorem new (n : Nat) : (SlidingQueue.new n).Got n [] 0 0 := ⟨PVector.new_cells n, rfl, rfl, rfl⟩

theorem pushBack (got : q.Got n pushed start stop) (room : pushed.length < n) (a : Nat) :
    ∃ q', q.pushBack a = .ok q' ∧ q'.Got n (pushed ++ [a]) start stop := by
  obtain ⟨shared, stored, cells⟩ := got.cells.set (got.sharedIn ▸ room) a
  refine ⟨{ q with shared, sharedIn := q.sharedIn + 1 }, by rw [SlidingQueue.pushBack, stored, ok_bind],
    cells.congr fun i _ => ?_, ?_, got.outStart, got.outEnd⟩
  · rw [got.sharedIn]
    by_cases last : i = pushed.length
    · subst last
      simp
    · rw [Function.update_of_ne last]
      rcases Nat.lt_or_gt_of_ne last with before | beyond
      · rw [List.getElem?_append_left before]
      · rw [List.getElem?_eq_none (by omega), List.getElem?_eq_none (by simp; omega)]
  · simp [got.sharedIn]

theorem flush {buffer : QueueBuffer} (got : q.Got n pushed start stop) (room : pushed.length + buffer.length ≤ n) :
    ∃ q', buffer.flush q = .ok q' ∧ q'.Got n (pushed ++ buffer) start stop := by
  have step (done : List Nat) (a : Nat) (q : SlidingQueue) (earlier : done ++ [a] <+: buffer)
      (got : q.Got n (pushed ++ done) start stop) :
      ∃ q', q.pushBack a = .ok q' ∧ q'.Got n (pushed ++ (done ++ [a])) start stop := by
    have less := earlier.length_le
    rw [← List.append_assoc]
    refine got.pushBack ?_ a
    simp only [List.length_append, List.length_singleton] at less ⊢
    omega
  exact foldlM_invariant buffer (fun done (q : SlidingQueue) => q.Got n (pushed ++ done) start stop) step
    (by simpa using got)

theorem slideWindow (got : q.Got n pushed start stop) : q.slideWindow.Got n pushed stop pushed.length :=
  ⟨got.cells, got.sharedIn, got.outEnd, got.sharedIn⟩

theorem item (got : q.Got n pushed start stop) {i : Nat} (inside : i < pushed.length) (room : pushed.length ≤ n) :
    q.shared.get i = .ok (pushed.get ⟨i, inside⟩) :=
  got.cells.get (by omega) (by simp)

theorem size (got : q.Got n pushed start stop) : q.size = stop - start := by
  rw [SlidingQueue.size, got.outStart, got.outEnd]

theorem empty_iff (got : q.Got n pushed start stop) : q.empty ↔ start = stop := by
  simp [SlidingQueue.empty, got.outStart, got.outEnd]

end SlidingQueue.Got

structure Buffered (q : SlidingQueue) (buffer : QueueBuffer) (n : Nat) (all : List Nat) (start stop : Nat) : Prop where
  got : ∃ pushed, all = pushed ++ buffer ∧ q.Got n pushed start stop ∧ stop ≤ pushed.length
  room : all.length ≤ n

namespace Buffered

variable {q : SlidingQueue} {buffer : QueueBuffer} {n start stop : Nat} {all : List Nat}

theorem begin (got : q.Got n all start stop) (shown : stop ≤ all.length) (room : all.length ≤ n) :
    Buffered q [] n all start stop :=
  ⟨⟨all, by simp, got, shown⟩, room⟩

theorem pushBack (buffered : Buffered q buffer n all start stop) (room : all.length < n) (a : Nat) :
    ∃ buffer' q', buffer.pushBack q a = .ok (buffer', q') ∧ Buffered q' buffer' n (all ++ [a]) start stop := by
  obtain ⟨pushed, rfl, got, shown⟩ := buffered.got
  have room' : ((pushed ++ buffer) ++ [a]).length ≤ n := by
    rw [List.length_append, List.length_singleton]
    omega
  unfold QueueBuffer.pushBack
  split
  · obtain ⟨q', flushed, got'⟩ := got.flush (by simpa using buffered.room)
    exact ⟨[a], q', by rw [flushed, ok_bind], ⟨_, rfl, got', by rw [List.length_append]; omega⟩, room'⟩
  · exact ⟨buffer ++ [a], q, rfl, ⟨pushed, by simp, got, shown⟩, room'⟩

theorem flush (buffered : Buffered q buffer n all start stop) :
    ∃ q', buffer.flush q = .ok q' ∧ q'.Got n all start stop := by
  obtain ⟨pushed, rfl, got, -⟩ := buffered.got
  exact got.flush (by simpa using buffered.room)

theorem item (buffered : Buffered q buffer n all start stop) {i : Nat} (inside : i < stop) {a : Nat}
    (here : all[i]? = some a) : q.shared.get i = .ok a := by
  obtain ⟨pushed, rfl, got, shown⟩ := buffered.got
  have room := buffered.room
  rw [List.length_append] at room
  rw [List.getElem?_append_left (by omega)] at here
  exact got.cells.get (by omega) here

end Buffered

end Radix.Analytics
