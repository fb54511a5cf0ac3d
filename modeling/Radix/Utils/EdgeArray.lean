import Mathlib.Algebra.Order.Floor.Ring
import Mathlib.Data.Rat.Floor
import Radix.Lib.Fallible
import Radix.Lib.LastWrite
import Radix.Utils.Bitmap

/-!
# The data types of `utils.h`

`int` counters of sizes and capacities are natural numbers: the arrays stay below `2 ^ 31` slots.
Only `deg` can be negative and is an integer. A weight is compared with 0 and copied, nothing else,
so any type with a decidable zero stands for `float`.
-/

namespace Radix

inductive Fault where
  | nullPointer
  | badPointer
  | outOfBounds
  | uninitialized
  | hang
  deriving DecidableEq, Repr

abbrev Result := Except Fault

/-- `uint32_t`; none of the code below computes with it beyond masking and shifting. -/
abbrev NodeID := Nat

def NodeID.invalid : NodeID := 4294967295

structure GlobalInfo where
  /-- How often `global_timestamp` has been incremented. -/
  ticks : Nat
  isMixedWorkloads : Bool
  deriving DecidableEq, Repr

namespace GlobalInfo

/-- The counter is a 32-bit `int` and wraps. -/
def timestampAt (ticks : Nat) : Int := (BitVec.ofNat 32 ticks).toInt

def globalTimestamp (info : GlobalInfo) : Int := timestampAt info.ticks

def tick (info : GlobalInfo) : GlobalInfo := { info with ticks := info.ticks + 1 }

@[simp] theorem tick_ticks (info : GlobalInfo) : info.tick.ticks = info.ticks + 1 := rfl

@[simp] theorem tick_isMixedWorkloads (info : GlobalInfo) :
    info.tick.isMixedWorkloads = info.isMixedWorkloads := rfl

theorem timestampAt_eq {ticks : Nat} (few : ticks < 2 ^ 31) : timestampAt ticks = ticks := by
  rw [timestampAt, BitVec.toInt_eq_toNat_of_lt] <;> simp <;> omega

end GlobalInfo

structure WeightedEdge (W : Type) [Zero W] where
  weight : W := 0
  idx : Int := -1
  deriving DecidableEq, Repr

namespace WeightedEdge

variable {W : Type} [Zero W] [DecidableEq W]

def live (e : WeightedEdge W) : Bool := e.weight ≠ 0

omit [DecidableEq W] in
def bit (e : WeightedEdge W) : Result Nat :=
  if 0 ≤ e.idx then .ok e.idx.toNat else .error .outOfBounds

omit [DecidableEq W] in
theorem bit_of_nonneg {e : WeightedEdge W} (nonneg : 0 ≤ e.idx) : e.bit = .ok e.idx.toNat := if_pos nonneg

end WeightedEdge

/-- A multi-versioned edge array; `none` stands for a null `edge` or `timestamp`, and inside
`timestamp` for an element that `new int[n]` leaves uninitialised. The links to the previous and
the next version are the order of the list `Vertex.next`. -/
structure WeightedEdgeArray (W : Type) [Zero W] where
  size : Nat := 0
  cap : Nat
  physicalSize : Nat := 0
  edge : Option (List (WeightedEdge W))
  timestamp : Option (List (Option Int)) := none
  snapshotTimestamp : Int := 0
  snapshotDeg : Nat := 0
  deg : Int := 0
  threadsRead : Nat := 0
  deriving DecidableEq, Repr

namespace WeightedEdgeArray

variable {W : Type} [Zero W]

def new (m : Nat) : WeightedEdgeArray W where
  cap := m
  edge := some (List.replicate m {})

def read (arr : WeightedEdgeArray W) (i : Nat) : Result (WeightedEdge W) :=
  match arr.edge with
  | none => .error .nullPointer
  | some edges => match edges[i]? with
    | none => .error .outOfBounds
    | some e => .ok e

def store (arr : WeightedEdgeArray W) (i : Nat) (e : WeightedEdge W) : Result (WeightedEdgeArray W) :=
  match arr.edge with
  | none => .error .nullPointer
  | some edges =>
      if i < edges.length then .ok { arr with edge := some (edges.set i e) } else .error .outOfBounds

def stamp (arr : WeightedEdgeArray W) (i : Nat) : Result Int :=
  match arr.timestamp with
  | none => .error .nullPointer
  | some stamps => match stamps[i]? with
    | none => .error .outOfBounds
    | some none => .error .uninitialized
    | some (some t) => .ok t

def storeStamp (arr : WeightedEdgeArray W) (i : Nat) (t : Int) : Result (WeightedEdgeArray W) :=
  match arr.timestamp with
  | none => .error .nullPointer
  | some stamps =>
      if i < stamps.length then .ok { arr with timestamp := some (stamps.set i (some t)) }
      else .error .outOfBounds

end WeightedEdgeArray

/-- A vertex record; `next` heads the chain of its edge arrays, newest first, and is empty where
the pointer is null. -/
structure Vertex (W : Type) [Zero W] where
  node : NodeID := NodeID.invalid
  idx : Int := -1
  delTime : Int := -1
  next : List (WeightedEdgeArray W) := []
  deriving DecidableEq, Repr

/-- What the machine and the standard library supply: the rounding of `double` arithmetic, which
is monotone and exact on the integers in question, `std::sort` by `idx`, which leaves the order of
equal indices open, and the order in which a parallel loop takes up its `n` iterations. -/
structure Platform (W : Type) [Zero W] where
  round : ℚ → ℚ
  round_mono : Monotone round
  round_int : ∀ z : ℤ, round z = z
  sort : List (WeightedEdge W) → List (WeightedEdge W)
  sort_perm : ∀ edges, (sort edges).Perm edges
  sort_sorted : ∀ edges, (sort edges).Pairwise fun a b => a.idx ≤ b.idx
  order : GlobalInfo → Nat → List Nat
  order_perm : ∀ info n, (order info n).Perm (List.range n)

namespace Platform

variable {W : Type} [Zero W]

/-- `(int) (deg * expand_rate + 8)`, rounded after every operation. -/
def snapshotCapacity (P : Platform W) (deg : Nat) (expandRate : ℚ) : Nat :=
  ⌊P.round (P.round (deg * expandRate) + 8)⌋.toNat

/-- `(int) (deg * expand_rate + overflow + 8)`, rounded after every operation. -/
def capacity (P : Platform W) (deg : Nat) (expandRate : ℚ) (overflow : Nat) : Nat :=
  ⌊P.round (P.round (P.round (deg * expandRate) + overflow) + 8)⌋.toNat

theorem le_round (P : Platform W) {n : Nat} {x : ℚ} (below : (n : ℚ) ≤ x) : (n : ℚ) ≤ P.round x := by
  have := P.round_mono (show ((n : ℤ) : ℚ) ≤ x by rwa [Int.cast_natCast])
  rwa [P.round_int, Int.cast_natCast] at this

theorem le_toNat_floor {n : Nat} {x : ℚ} (below : (n : ℚ) ≤ x) : n ≤ ⌊x⌋.toNat := by
  have : (n : ℤ) ≤ ⌊x⌋ := Int.le_floor.mpr (by exact_mod_cast below)
  omega

theorem le_round_add (P : Platform W) {n k : Nat} {x : ℚ} (below : (n : ℚ) ≤ x) :
    ((n + k : ℕ) : ℚ) ≤ P.round (x + k) := P.le_round (by push_cast; linarith)

theorem le_round_mul (P : Platform W) (deg : Nat) {expandRate : ℚ} (rate : 1 < expandRate) :
    (deg : ℚ) ≤ P.round (deg * expandRate) :=
  P.le_round (le_mul_of_one_le_right (Nat.cast_nonneg deg) rate.le)

theorem snapshotCapacity_ge (P : Platform W) (deg : Nat) {expandRate : ℚ} (rate : 1 < expandRate) :
    deg + 8 ≤ P.snapshotCapacity deg expandRate :=
  le_toNat_floor (P.le_round_add (k := 8) (P.le_round_mul deg rate))

theorem capacity_ge (P : Platform W) (deg overflow : Nat) {expandRate : ℚ} (rate : 1 < expandRate) :
    deg + overflow + 8 ≤ P.capacity deg expandRate overflow :=
  le_toNat_floor (P.le_round_add (k := 8) (P.le_round_add (P.le_round_mul deg rate)))

def exact : Platform W where
  round := id
  round_mono := monotone_id
  round_int _ := rfl
  sort edges := edges.mergeSort fun a b => a.idx ≤ b.idx
  sort_perm edges := List.mergeSort_perm edges _
  sort_sorted edges := by
    have trans (a b c : WeightedEdge W) : decide (a.idx ≤ b.idx) → decide (b.idx ≤ c.idx) →
        decide (a.idx ≤ c.idx) := by simpa using le_trans
    have total (a b : WeightedEdge W) : decide (a.idx ≤ b.idx) || decide (b.idx ≤ a.idx) := by
      simpa using le_total a.idx b.idx
    simpa using List.pairwise_mergeSort trans total edges
  order _ n := List.range n
  order_perm _ _ := .refl _

end Platform

end Radix
