import Radix.Graph.Threads
import Radix.Lib.Roster

/-!
# Who owns which slot

The calls that have drawn a slot of the current version, in the order of their slots, determine the
array up to its counters: behind the entries it started with stands for each of them its entry or a
blank, according to how far it has come. `physical_size` counts those that are done, so an array is
compacted when all are.
-/

namespace Radix

open Lib

variable {W : Type} [Zero W]

namespace OneVertex

namespace Pc

def place : Pc W → Option (Nat × Nat)
  | .checkCap p i | .unlock p i | .drawStamp p i | .storeStamp p i _ | .bumpDeg p i
  | .writeSlot p i | .bumpPhysical p i | .inserted p i => some (p, i)
  | _ => none

def stamped : Pc W → Bool
  | .bumpDeg _ _ | .writeSlot _ _ | .bumpPhysical _ _ | .inserted _ _ => true
  | _ => false

def counted : Pc W → Bool
  | .writeSlot _ _ | .bumpPhysical _ _ | .inserted _ _ => true
  | _ => false

def written : Pc W → Bool
  | .bumpPhysical _ _ | .inserted _ _ => true
  | _ => false

def finished : Pc W → Bool
  | .inserted _ _ => true
  | _ => false

/-- Between `src->mtx.test_and_set()` and `src->mtx.clear()`. -/
def locked : Pc W → Bool
  | .compareNext _ | .waitFull _ | .allocate _ | .compact _ _ | .publish _ _ | .retire _ | .reload
  | .reclaim _ | .unlock _ _ | .select | .unlockRead _ | .unlockNone | .leave _ _ | .unlockLeave _ => true
  | _ => false

/-- The version whose `size` or `cap` the call will use next without the lock. -/
def holds : Pc W → Option Nat
  | .claim p | .checkCap p _ => some p
  | _ => none

def inserting : Pc W → Bool
  | .enter | .select | .unlockRead _ | .unlockNone | .loadCount _ | .copySnapshot _ _ | .cut _ _
  | .scan _ _ _ _ _ _ | .clear _ _ _ _ | .lockLeave _ _ | .leave _ _ | .unlockLeave _
  | .returned _ _ => false
  | _ => true

end Pc

def Request.inserting : Request W → Bool
  | .insert _ _ _ => true
  | .getNeighbours _ => false

def deletes (s : Source W) : Pc W → Option Nat
  | .retire p => s.doomed p
  | .leave p _ => if s.abandoned p then some p else none
  | _ => none

/-- What the current version is made of: the entries it started with, their timestamps, its degree
then, and the calls that drew its other slots, with the timestamps they took. -/
structure Origin (W : Type) [Zero W] where
  head : Nat
  older : List Nat
  snap : List (WeightedEdge W)
  log : List (WeightedEdge W)
  stamps : Option (List Int)
  deg : Int
  claims : List Nat
  stamp : Nat → Int

namespace Origin

variable (o : Origin W)

def base : Nat := o.snap.length + o.log.length

def entries (calls : Nat → Request W) : List (WeightedEdge W) :=
  o.log ++ o.claims.map fun t => (calls t).entry

end Origin

def shownEntry (calls : Nat → Request W) (pc : Pc W) (t : Nat) : WeightedEdge W :=
  if pc.written then (calls t).entry else {}

def shownStamp (stamp : Nat → Int) (pc : Pc W) (t : Nat) : Option Int :=
  if pc.stamped then some (stamp t) else none

def shownDelta (calls : Nat → Request W) (pc : Pc W) (t : Nat) : Int :=
  if pc.counted then (calls t).deltaDeg else 0

structure Origin.Dated (o : Origin W) (snapshotTimestamp : Int) : Prop where
  snapshotTimestamp : snapshotTimestamp ≤ maxTimestamp
  stamps : ∀ ts, o.stamps = some ts → ∀ x ∈ ts, x ≤ maxTimestamp
  stamp : ∀ t, o.stamp t ≤ maxTimestamp

section

variable (calls : Nat → Request W) (pcs : Nat → Pc W) (o : Origin W) (s : Source W)
  (cur : WeightedEdgeArray W)

structure Layout : Prop where
  nodup : o.claims.Nodup
  placed : ∀ k t, o.claims[k]? = some t → (pcs t).place = some (o.head, o.base + k)
  size : o.base + o.claims.length = min cur.size cur.cap
  snapshotDeg : cur.snapshotDeg = o.snap.length
  physicalSize : cur.physicalSize = o.base + o.claims.countP fun t => (pcs t).finished
  deg : cur.deg = o.deg + (o.claims.map fun t => shownDelta calls (pcs t) t).sum
  edge : cur.edge = some (o.snap ++ o.log ++
    o.claims.map (fun t => shownEntry calls (pcs t) t) ++
    List.replicate (cur.cap - (o.base + o.claims.length)) ({} : WeightedEdge W))
  timestamp : cur.timestamp = o.stamps.map fun ts => ts.map some ++
    o.claims.map (fun t => shownStamp o.stamp (pcs t) t) ++
    List.replicate (cur.cap - (o.base + o.claims.length)) none
  aligned : ∀ ts, o.stamps = some ts → ts.length = o.log.length
  indexed : Indexed (o.snap ++ o.entries calls)
  dated : o.Dated cur.snapshotTimestamp

def InSlot (t p i : Nat) : Prop := p = o.head ∧ ∃ k, o.claims[k]? = some t ∧ i = o.base + k

def Beyond (p i : Nat) : Prop := ∃ arr, s.memory[p]? = some arr ∧ arr.cap ≤ i

def Full : Prop := cur.physicalSize = cur.cap

structure Compacted [DecidableEq W] (newArray : WeightedEdgeArray W) : Prop where
  laid : ∃ stamps, Laid newArray (compacted cur o.snap (o.entries calls)) [] stamps
  size : newArray.size = newArray.physicalSize
  deg : newArray.deg = newArray.physicalSize
  threadsRead : newArray.threadsRead = 0
  snapshotTimestamp : newArray.snapshotTimestamp ≤ maxTimestamp

/-- What the call `t` knows where it is; `first` is the version that the run started with. -/
def Knows [DecidableEq W] (first t : Nat) : Pc W → Prop
  | .claim p => first ≤ p ∧ p ∈ s.chain
  | .checkCap p i => p ∈ s.chain ∧ (InSlot o t p i ∨ Beyond s p i)
  | .waitFull p | .reclaim p => p = o.head
  | .allocate p => p = o.head ∧ Full cur
  | .compact p newArray => p = o.head ∧ Full cur ∧ ∃ m, newArray = .new m ∧
      ((cur.physicalSize : Int) = cur.deg → cur.physicalSize ≤ m)
  | .publish p newArray => p = o.head ∧ Full cur ∧ Compacted calls o cur newArray
  | .retire p => ∃ older, o.older = p :: older
  | .unlock p i => p = o.head ∧ (InSlot o t p i ∨ Beyond s p i)
  | .storeStamp p i stamp => InSlot o t p i ∧ stamp ≤ maxTimestamp
  | .drawStamp p i | .bumpDeg p i | .writeSlot p i | .bumpPhysical p i => InSlot o t p i
  | .inserted p i => p < o.head ∨ InSlot o t p i
  | _ => True

structure Sound [DecidableEq W] (first : Nat) : Prop where
  chain : s.chain = o.head :: o.older
  sorted : s.chain.Pairwise (· > ·)
  current : s.memory[o.head]? = some cur
  begun : first ≤ o.head
  closed : ∀ p ∈ o.older, first ≤ p → ∃ arr, s.memory[p]? = some arr ∧ arr.cap ≤ arr.size
  layout : Layout calls pcs o cur
  kinds : ∀ t, (pcs t).inserting = (calls t).inserting
  knows : ∀ t, Knows calls o s cur first t (pcs t)

structure Locks : Prop where
  one : ∀ t u, (pcs t).locked = true → (pcs u).locked = true → t = u
  mtx : ∀ t, (pcs t).locked = true → s.mtx = true

end

/-! ## The lock -/

variable [DecidableEq W] {setting : Setting W} {calls : Nat → Request W} {request : Request W}
  {pcs : Nat → Pc W} {s s' : Source W} {pc pc' : Pc W} {t : Nat}

omit [DecidableEq W] in
@[simp] theorem Source.retire_mtx (p : Nat) : (s.retire setting p).mtx = s.mtx := by
  unfold Source.retire
  split
  · cases s.doomed p <;> rfl
  · rfl

omit [DecidableEq W] in
@[simp] theorem Source.leave_mtx (p : Nat) : (s.leave setting p).mtx = s.mtx := by
  unfold Source.leave
  split <;> rfl

theorem scanSlot_scan {arr : WeightedEdgeArray W} {p cnt i retryCount : Nat}
    {neighbours : List (WeightedEdge W)} {marks : SegmentedBitmap}
    (scanned : scanSlot arr p cnt i retryCount neighbours marks = .ok pc') :
    ∃ j r n m, pc' = .scan p cnt j r n m := by
  simp only [scanSlot, bind_eq_ok] at scanned
  obtain ⟨e, -, scanned⟩ := scanned
  split at scanned
  · split at scanned
    all_goals
      cases scanned
      exact ⟨_, _, _, _, rfl⟩
  · obtain ⟨bit, -, scanned⟩ := bind_eq_ok.mp scanned
    split at scanned
    all_goals
      cases scanned
      exact ⟨_, _, _, _, rfl⟩

inductive Locking (s : Source W) (pc : Pc W) (s' : Source W) (pc' : Pc W) : Prop
  | acquired : pc.locked = false → pc'.locked = true → s.mtx = false → s'.mtx = true → Locking ..
  | kept : pc'.locked = pc.locked → s'.mtx = s.mtx → Locking ..
  | released : pc.locked = true → pc'.locked = false → s'.mtx = false → Locking ..

theorem next_locking (taken : next setting t request s pc = some (s', pc')) :
    Locking s pc s' pc' ∧ pc'.inserting = pc.inserting := by
  cases pc with
  | loadNext | claim | reload | reclaim | allocate =>
      obtain ⟨arr, -, ⟨⟩⟩ := Option.map_eq_some_iff.mp taken
      exact ⟨.kept rfl rfl, rfl⟩
  | checkCap p i | compareNext p =>
      obtain ⟨arr, -, ⟨⟩⟩ := Option.map_eq_some_iff.mp taken
      split <;> exact ⟨.kept rfl rfl, rfl⟩
  | lock p | lockLeave p n =>
      simp only [next] at taken
      split at taken
      · contradiction
      · rename_i free
        cases taken
        exact ⟨.acquired rfl rfl (by simpa using free) rfl, rfl⟩
  | waitFull p =>
      obtain ⟨arr, -, taken⟩ := Option.bind_eq_some_iff.mp taken
      split at taken
      · cases taken
        exact ⟨.kept rfl rfl, rfl⟩
      · contradiction
  | compact p newArray | writeSlot p i | copySnapshot p cnt | clear p cnt n m =>
      obtain ⟨arr, -, taken⟩ := Option.bind_eq_some_iff.mp taken
      obtain ⟨x, -, ⟨⟩⟩ := Option.map_eq_some_iff.mp taken
      exact ⟨.kept rfl rfl, rfl⟩
  | publish p newArray | bumpDeg p i | bumpPhysical p i =>
      cases taken
      exact ⟨.kept rfl rfl, rfl⟩
  | retire p =>
      cases taken
      exact ⟨.kept rfl (Source.retire_mtx p), rfl⟩
  | leave p n =>
      cases taken
      exact ⟨.kept rfl (Source.leave_mtx p), rfl⟩
  | unlock p i | unlockRead p | unlockNone | unlockLeave n =>
      cases taken
      exact ⟨.released rfl rfl rfl, rfl⟩
  | drawStamp p i =>
      obtain ⟨arr, -, taken⟩ := Option.map_eq_some_iff.mp taken
      split at taken
      all_goals
        cases taken
        exact ⟨.kept rfl rfl, rfl⟩
  | storeStamp p i stamp =>
      obtain ⟨arr, -, taken⟩ := Option.bind_eq_some_iff.mp taken
      split at taken
      · contradiction
      · obtain ⟨x, -, ⟨⟩⟩ := Option.map_eq_some_iff.mp taken
        exact ⟨.kept rfl rfl, rfl⟩
  | enter =>
      simp only [next] at taken
      split at taken
      · rename_i free
        cases taken
        exact ⟨.acquired rfl rfl free.2 rfl, rfl⟩
      · contradiction
  | select =>
      simp only [next] at taken
      split at taken
      all_goals
        cases taken
        exact ⟨.kept rfl rfl, rfl⟩
  | loadCount p =>
      obtain ⟨arr, -, ⟨⟩⟩ := Option.map_eq_some_iff.mp taken
      split
      · split <;> exact ⟨.kept rfl rfl, rfl⟩
      · exact ⟨.kept rfl rfl, rfl⟩
  | cut p i =>
      obtain ⟨arr, -, taken⟩ := Option.bind_eq_some_iff.mp taken
      obtain ⟨stamp, -, taken⟩ := Option.bind_eq_some_iff.mp taken
      split at taken
      · cases taken
        exact ⟨.kept rfl rfl, rfl⟩
      · split at taken
        · obtain ⟨x, -, ⟨⟩⟩ := Option.map_eq_some_iff.mp taken
          exact ⟨.kept rfl rfl, rfl⟩
        · cases taken
          exact ⟨.kept rfl rfl, rfl⟩
  | scan p cnt i r n m =>
      cases i with
      | zero =>
          cases taken
          exact ⟨.kept rfl rfl, rfl⟩
      | succ i =>
          obtain ⟨arr, -, taken⟩ := Option.bind_eq_some_iff.mp taken
          obtain ⟨pc, scanned, ⟨⟩⟩ := Option.map_eq_some_iff.mp taken
          obtain ⟨j, r', n', m', rfl⟩ := scanSlot_scan (toOption_eq_some.mp scanned)
          exact ⟨.kept rfl rfl, rfl⟩
  | inserted p i | returned found n => contradiction

omit [DecidableEq W] in
theorem Locks.step (locks : Locks pcs s) (locking : Locking s (pcs t) s' pc') :
    Locks (Function.update pcs t pc') s' := by
  have moved (u : Nat) (inside : (Function.update pcs t pc' u).locked = true) :
      (u = t ∧ pc'.locked = true) ∨ (u ≠ t ∧ (pcs u).locked = true) := by
    by_cases here : u = t
    · subst here
      rw [Function.update_self] at inside
      exact .inl ⟨rfl, inside⟩
    · rw [Function.update_of_ne here] at inside
      exact .inr ⟨here, inside⟩
  cases locking with
  | acquired outside _ free set =>
      have alone (u : Nat) : (pcs u).locked ≠ true := fun inside => by simp [locks.mtx u inside] at free
      constructor
      · intro u v first second
        obtain ⟨rfl, -⟩ | ⟨-, first⟩ := moved u first
        · obtain ⟨rfl, -⟩ | ⟨-, second⟩ := moved v second
          · rfl
          · exact absurd second (alone v)
        · exact absurd first (alone u)
      · exact fun _ _ => set
  | kept same mtx =>
      have before (u : Nat) (inside : (Function.update pcs t pc' u).locked = true) :
          (pcs u).locked = true := by
        obtain ⟨rfl, there⟩ | ⟨-, there⟩ := moved u inside
        · exact same ▸ there
        · exact there
      constructor
      · exact fun u v first second => locks.one u v (before u first) (before v second)
      · exact fun u inside => mtx.trans (locks.mtx u (before u inside))
  | released held free _ =>
      have nobody (u : Nat) : (Function.update pcs t pc' u).locked ≠ true := by
        intro inside
        obtain ⟨-, inside⟩ | ⟨other, inside⟩ := moved u inside
        · rw [free] at inside
          contradiction
        · exact other (locks.one u t inside held)
      exact ⟨fun u _ first => absurd first (nobody u), fun u first => absurd first (nobody u)⟩

end OneVertex

end Radix
