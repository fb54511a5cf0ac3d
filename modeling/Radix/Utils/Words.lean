import Mathlib.Data.Finset.Basic
import Mathlib.Tactic.IntervalCases
import Radix.Utils.EdgeArray

/-!
# The scratch bitmaps in memory

The bitmaps of `utils.h` once more, now as the code stores them: pointers to arrays of 8-bit words, sizes
and positions in `int`, masks that go through `int` and back. An access outside an array, through a null
pointer, or an `int` result that does not fit is a fault. `SegmentedBitmap` is what this code computes.
-/

namespace Radix

open Lib

/-- The value of an `int` expression that is not negative. -/
def int32 (n : Nat) : Result Nat := if n < 2 ^ 31 then .ok n else .error .outOfBounds

theorem int32_ok {n : Nat} (fits : n < 2 ^ 31) : int32 n = .ok n := if_pos fits

def readAt {α : Type} (xs : List α) (i : Nat) : Result α :=
  match xs[i]? with
  | some x => .ok x
  | none => .error .outOfBounds

def writeAt {α : Type} (xs : List α) (i : Nat) (x : α) : Result (List α) :=
  if i < xs.length then .ok (xs.set i x) else .error .outOfBounds

theorem readAt_ok {α : Type} {xs : List α} {i : Nat} (inside : i < xs.length) :
    readAt xs i = .ok (xs.get ⟨i, inside⟩) := by
  simp [readAt, List.getElem?_eq_getElem inside]

theorem writeAt_ok {α : Type} {xs : List α} {i : Nat} (inside : i < xs.length) (x : α) :
    writeAt xs i x = .ok (xs.set i x) := if_pos inside

theorem modify_eq {α : Type} {xs : List α} {i : Nat} (inside : i < xs.length) (f : α → α) :
    xs.modify i f = xs.set i (f (xs.get ⟨i, inside⟩)) := by
  rw [List.modify_eq_take_cons_drop inside, List.set_eq_take_append_cons_drop, if_pos inside]
  rfl

def wordsNew (size : Nat) : List (BitVec 8) := List.replicate ((size + 7) / 8) 0#8

namespace Words

def bitOffset (n : Nat) : Nat := (BitVec.ofNat 64 n &&& (8#64 - 1#64)).toNat

def mask (pos : Nat) : BitVec 32 := (1#8).zeroExtend 32 <<< bitOffset pos

def reset (words : List (BitVec 8)) : List (BitVec 8) := words.map fun _ => 0#8

def setBit (words : List (BitVec 8)) (pos : Nat) : Result (List (BitVec 8)) := do
  let word ← readAt words (wordOffset pos)
  writeAt words (wordOffset pos) (word ||| (mask pos).setWidth 8)

def clearBit (words : List (BitVec 8)) (pos : Nat) : Result (List (BitVec 8)) := do
  let word ← readAt words (wordOffset pos)
  writeAt words (wordOffset pos) (word &&& (~~~mask pos).setWidth 8)

/-- The word is promoted to `int`, and `1l` makes the conjunction a `long`. -/
def getBit (words : List (BitVec 8)) (pos : Nat) : Result Bool := do
  let word ← readAt words (wordOffset pos)
  .ok (((word.zeroExtend 32).sshiftRight (bitOffset pos)).signExtend 64 &&& 1#64 != 0#64)

theorem bitOffset_eq {n : Nat} (fits : n < 2 ^ 64) : bitOffset n = Radix.bitOffset n := by
  rw [bitOffset, Radix.bitOffset, BitVec.toNat_and, BitVec.toNat_ofNat, Nat.mod_eq_of_lt fits]
  exact Nat.and_two_pow_sub_one_eq_mod n 3

theorem mask_or {pos : Nat} (fits : pos < 2 ^ 64) : (mask pos).setWidth 8 = 1#8 <<< Radix.bitOffset pos := by
  have low : Radix.bitOffset pos < 8 := Nat.mod_lt _ (by decide)
  rw [mask, bitOffset_eq fits]
  generalize Radix.bitOffset pos = off at low
  interval_cases off <;> rfl

theorem mask_and {pos : Nat} (fits : pos < 2 ^ 64) :
    (~~~mask pos).setWidth 8 = ~~~(1#8 <<< Radix.bitOffset pos) := by
  have low : Radix.bitOffset pos < 8 := Nat.mod_lt _ (by decide)
  rw [mask, bitOffset_eq fits]
  generalize Radix.bitOffset pos = off at low
  interval_cases off <;> rfl

theorem lowest_bit (word : BitVec 8) (off : Nat) :
    (((word.zeroExtend 32).sshiftRight off).signExtend 64 &&& 1#64 != 0#64) = (word >>> off).getLsbD 0 := by
  have top : (word.zeroExtend 32).msb = false := by simp [BitVec.msb_setWidth]
  have lowest : (((word.zeroExtend 32).sshiftRight off).signExtend 64).getLsbD 0 = (word >>> off).getLsbD 0 := by
    have narrow : word.getLsbD off = true → off < 32 := fun stored => by
      have := BitVec.lt_of_getLsbD stored
      omega
    rw [BitVec.getLsbD_signExtend, BitVec.sshiftRight_eq_of_msb_false top]
    simpa using narrow
  rw [BitVec.and_one_eq_setWidth_ofBool_getLsbD, lowest]
  cases (word >>> off).getLsbD 0 <;> rfl

/-! ## The words are the words of an `AtomicBitmap` -/

variable {size : Nat} (b : AtomicBitmap size)

theorem reset_words : reset b.words = b.reset.words := by
  rw [reset, AtomicBitmap.reset, AtomicBitmap.new, List.map_const', b.length_words]

theorem setBit_words {pos : Nat} (inside : pos < size) (fits : pos < 2 ^ 64) :
    setBit b.words pos = .ok (b.setBit pos).words := by
  have word := b.wordOffset_lt inside
  rw [setBit, readAt_ok word, ok_bind, writeAt_ok word, mask_or fits]
  exact congrArg Except.ok (modify_eq word (· ||| 1#8 <<< Radix.bitOffset pos)).symm

theorem clearBit_words {pos : Nat} (inside : pos < size) (fits : pos < 2 ^ 64) :
    clearBit b.words pos = .ok (b.clearBit pos).words := by
  have word := b.wordOffset_lt inside
  rw [clearBit, readAt_ok word, ok_bind, writeAt_ok word, mask_and fits]
  exact congrArg Except.ok (modify_eq word (· &&& ~~~(1#8 <<< Radix.bitOffset pos))).symm

theorem getBit_words {pos : Nat} (inside : pos < size) (fits : pos < 2 ^ 64) :
    getBit b.words pos = .ok (b.getBit pos) := by
  have word := b.wordOffset_lt inside
  rw [getBit, readAt_ok word, ok_bind, lowest_bit, bitOffset_eq fits, AtomicBitmap.getBit]
  simp [List.getD_eq_getElem?_getD, List.getElem?_eq_getElem word]

end Words

structure Segments where
  segments : List (Option (List (BitVec 8)))
  segmentSize : Nat
  currentSize : Nat
  deriving DecidableEq

namespace Segments

def segment (b : Segments) (i : Nat) : Result (List (BitVec 8)) := do
  let pointer ← readAt b.segments i
  match pointer with
  | some words => .ok words
  | none => .error .nullPointer

def fill (segments : List (Option (List (BitVec 8)))) (segmentSize k numSegments : Nat) :
    Result (List (Option (List (BitVec 8)))) :=
  (List.range' k (numSegments - k)).foldlM
    (fun segments i => writeAt segments i (some (wordsNew segmentSize))) segments

def construct (segSize n : Nat) : Result Segments := do
  let total ← int32 (n + segSize)
  let numSegments := (total - 1) / segSize
  let currentSize ← int32 (numSegments * segSize)
  let segments ← fill (List.replicate numSegments none) segSize 0 numSegments
  .ok { segments, segmentSize := segSize, currentSize }

def reset (b : Segments) : Result Segments := do
  let segments ← b.segments.mapM fun
    | some words => .ok (some (Words.reset words))
    | none => .error .nullPointer
  .ok { b with segments }

def grow (b : Segments) (pos : Nat) : Result Segments :=
  if b.currentSize ≤ pos then do
    let reach ← int32 (pos + b.segmentSize)
    let numSegments := reach / b.segmentSize
    let k := b.segments.length
    let pushed := b.segments ++ List.replicate (numSegments - k) none
    let segments ← fill pushed b.segmentSize k numSegments
    let currentSize ← int32 (numSegments * b.segmentSize)
    .ok { b with segments, currentSize }
  else .ok b

def setBit (b : Segments) (pos : Nat) : Result Segments := do
  let b ← b.grow pos
  let words ← b.segment (pos / b.segmentSize)
  let words ← Words.setBit words (pos % b.segmentSize)
  .ok { b with segments := b.segments.set (pos / b.segmentSize) (some words) }

def clearBit (b : Segments) (pos : Nat) : Result Segments :=
  if b.currentSize ≤ pos then .ok b
  else do
    let words ← b.segment (pos / b.segmentSize)
    let words ← Words.clearBit words (pos % b.segmentSize)
    .ok { b with segments := b.segments.set (pos / b.segmentSize) (some words) }

def getBit (b : Segments) (pos : Nat) : Result Bool :=
  if b.currentSize ≤ pos then .ok false
  else do
    let words ← b.segment (pos / b.segmentSize)
    Words.getBit words (pos % b.segmentSize)

/-! ## What the code computes -/

def stored (b : SegmentedBitmap) : Segments where
  segments := b.segments.map fun segment => some segment.words
  segmentSize := b.segmentSize
  currentSize := b.currentSize

theorem fill_ok (segments : List (Option (List (BitVec 8)))) (segmentSize more : Nat) :
    fill (segments ++ List.replicate more none) segmentSize segments.length (segments.length + more) =
      .ok (segments ++ List.replicate more (some (wordsNew segmentSize))) := by
  rw [fill, Nat.add_sub_cancel_left]
  induction more generalizing segments with
  | zero => simp [pure, Except.pure]
  | succ more ih =>
      have inside : segments.length < (segments ++ List.replicate (more + 1) none).length := by simp
      have next : (segments ++ List.replicate (more + 1) none).set segments.length (some (wordsNew segmentSize)) =
          (segments ++ [some (wordsNew segmentSize)]) ++ List.replicate more none := by
        simp [List.set_append_right, List.replicate_succ]
      have rest := ih (segments ++ [some (wordsNew segmentSize)])
      rw [List.length_append, List.length_singleton] at rest
      rw [List.range'_succ, List.foldlM_cons, writeAt_ok inside, ok_bind, next, rest]
      simp [List.replicate_succ]

theorem new_words (size : Nat) : (AtomicBitmap.new size).words = wordsNew size := rfl

theorem construct_ok {L n : Nat} (positive : 0 < L) (fits : n + L < 2 ^ 31) :
    construct L n = .ok (stored (.new L n positive)) := by
  have covered : (n + L - 1) / L * L < 2 ^ 31 := by
    have := Nat.div_mul_le_self (n + L - 1) L
    omega
  have filled := fill_ok [] L ((n + L - 1) / L)
  rw [List.nil_append, List.nil_append, List.length_nil, Nat.zero_add] at filled
  simp only [construct, int32_ok fits, ok_bind, int32_ok covered, filled, stored, SegmentedBitmap.new,
    List.map_replicate, new_words]

variable (b : SegmentedBitmap)

theorem segment_stored {i : Nat} (inside : i < b.segments.length) :
    (stored b).segment i = .ok (b.segments.get ⟨i, inside⟩).words := by
  have bound : i < (stored b).segments.length := by simpa [stored] using inside
  rw [segment, readAt_ok bound, ok_bind]
  simp [stored]

theorem reset_stored : (stored b).reset = .ok (stored b.reset) := by
  have all (segments : List (AtomicBitmap b.segmentSize)) :
      (segments.map fun segment => some segment.words).mapM (fun
        | some words => .ok (some (Words.reset words))
        | none => .error .nullPointer) =
        (Except.ok ((segments.map AtomicBitmap.reset).map fun segment => some segment.words) : Result _) := by
    induction segments with
    | nil => rfl
    | cons segment segments ih =>
        rw [List.map_cons, List.mapM_cons, ih]
        simp [Words.reset_words, pure, Except.pure]
  simp only [reset, stored, all, ok_bind]
  rfl

theorem grow_stored {pos : Nat} (fits : pos + b.segmentSize < 2 ^ 31) :
    (stored b).grow pos = .ok (stored (b.grow pos)) := by
  unfold grow SegmentedBitmap.grow
  by_cases beyond : b.currentSize ≤ pos
  · have covered : (pos + b.segmentSize) / b.segmentSize * b.segmentSize < 2 ^ 31 := by
      have := Nat.div_mul_le_self (pos + b.segmentSize) b.segmentSize
      omega
    have more : b.segments.length ≤ (pos + b.segmentSize) / b.segmentSize := by
      rw [Nat.le_div_iff_mul_le b.segmentSize_pos, ← b.currentSize_eq]
      omega
    have filled := fill_ok (stored b).segments b.segmentSize
      ((pos + b.segmentSize) / b.segmentSize - (stored b).segments.length)
    have length : (stored b).segments.length = b.segments.length := by simp [stored]
    rw [length, Nat.add_sub_cancel' more] at filled
    rw [dif_pos beyond, if_pos (show (stored b).currentSize ≤ pos from beyond)]
    simp only [show (stored b).segmentSize = b.segmentSize from rfl, int32_ok fits, ok_bind, length, filled,
      int32_ok covered]
    simp [stored, new_words]
  · rw [dif_neg beyond, if_neg (show ¬ (stored b).currentSize ≤ pos from beyond)]

theorem set_stored {i : Nat} (inside : i < b.segments.length)
    (f : AtomicBitmap b.segmentSize → AtomicBitmap b.segmentSize) :
    (stored b).segments.set i (some (f (b.segments.get ⟨i, inside⟩)).words) =
      (b.segments.modify i f).map fun segment => some segment.words := by
  rw [modify_eq inside, List.map_set]
  rfl

theorem segmentSize_grow (pos : Nat) : (b.grow pos).segmentSize = b.segmentSize := by
  unfold SegmentedBitmap.grow
  split <;> rfl

theorem setBit_stored {pos : Nat} (fits : pos + b.segmentSize < 2 ^ 31) :
    (stored b).setBit pos = .ok (stored (b.setBit pos)) := by
  have inside := (b.grow pos).segment_lt (b.grow_covers pos)
  have offset : pos % (b.grow pos).segmentSize < (b.grow pos).segmentSize :=
    Nat.mod_lt _ (b.grow pos).segmentSize_pos
  have small : pos % (b.grow pos).segmentSize < 2 ^ 64 := by
    have := Nat.mod_le pos (b.grow pos).segmentSize
    omega
  have changed := set_stored (b.grow pos) inside (·.setBit (pos % (b.grow pos).segmentSize))
  rw [setBit, grow_stored b fits, ok_bind]
  simp only [show (stored (b.grow pos)).segmentSize = (b.grow pos).segmentSize from rfl,
    segment_stored _ inside, ok_bind, Words.setBit_words _ offset small]
  exact congrArg (fun segments => Except.ok ({ stored (b.grow pos) with segments } : Segments)) changed

theorem clearBit_stored {pos : Nat} (fits : pos < 2 ^ 31) :
    (stored b).clearBit pos = .ok (stored (b.clearBit pos)) := by
  unfold clearBit SegmentedBitmap.clearBit
  by_cases beyond : b.currentSize ≤ pos
  · rw [if_pos beyond, if_pos (show (stored b).currentSize ≤ pos from beyond)]
  · have inside := b.segment_lt (Nat.not_le.mp beyond)
    have offset : pos % b.segmentSize < b.segmentSize := Nat.mod_lt _ b.segmentSize_pos
    have small : pos % b.segmentSize < 2 ^ 64 := by
      have := Nat.mod_le pos b.segmentSize
      omega
    have changed := set_stored b inside (·.clearBit (pos % b.segmentSize))
    rw [if_neg beyond, if_neg (show ¬ (stored b).currentSize ≤ pos from beyond)]
    simp only [show (stored b).segmentSize = b.segmentSize from rfl, segment_stored _ inside, ok_bind,
      Words.clearBit_words _ offset small]
    exact congrArg (fun segments => Except.ok ({ stored b with segments } : Segments)) changed

theorem getBit_stored {pos : Nat} (fits : pos < 2 ^ 31) : (stored b).getBit pos = .ok (b.getBit pos) := by
  by_cases within : pos < b.currentSize
  · have inside := b.segment_lt within
    have offset : pos % b.segmentSize < b.segmentSize := Nat.mod_lt _ b.segmentSize_pos
    have small : pos % b.segmentSize < 2 ^ 64 := by
      have := Nat.mod_le pos b.segmentSize
      omega
    rw [getBit, if_neg (show ¬ (stored b).currentSize ≤ pos from Nat.not_le.mpr within), b.getBit_within within]
    simp only [show (stored b).segmentSize = b.segmentSize from rfl, segment_stored _ inside, ok_bind,
      Words.getBit_words _ offset small]
  · have beyond := Nat.not_lt.mp within
    rw [getBit, if_pos (show (stored b).currentSize ≤ pos from beyond), b.getBit_beyond beyond]

/-! ## Every sequence of operations -/

inductive Call where
  | set (pos : Nat)
  | clear (pos : Nat)
  | get (pos : Nat)
  | reset
  deriving DecidableEq

/-- What `int` arithmetic on the position needs. -/
def Call.Fits (L : Nat) : Call → Prop
  | set pos | clear pos | get pos => pos + L < 2 ^ 31
  | reset => True

instance (L : Nat) : DecidablePred (Call.Fits L)
  | .set pos | .clear pos | .get pos => inferInstanceAs (Decidable (pos + L < 2 ^ 31))
  | .reset => inferInstanceAs (Decidable True)

def Call.affects (p : Nat) : Call → Bool
  | set pos | clear pos => pos = p
  | get _ => false
  | reset => true

def perform (b : Segments) : Call → Result (Segments × Option Bool)
  | .set pos => do
      let b ← b.setBit pos
      .ok (b, none)
  | .clear pos => do
      let b ← b.clearBit pos
      .ok (b, none)
  | .get pos => do
      let bit ← b.getBit pos
      .ok (b, some bit)
  | .reset => do
      let b ← b.reset
      .ok (b, none)

def performs (b : Segments) (calls : List Call) : Result (Segments × List (Option Bool)) :=
  calls.foldlM (fun (b, answers) call => do
    let (b, answer) ← b.perform call
    .ok (b, answers ++ [answer])) (b, [])

def mark (marks : Finset Nat) : Call → Finset Nat
  | .set pos => {pos} ∪ marks
  | .clear pos => marks.erase pos
  | .get _ => marks
  | .reset => ∅

def marked (calls : List Call) : Finset Nat := calls.foldl mark ∅

def answer (before : List Call) : Call → Option Bool
  | .get pos => some (decide (pos ∈ marked before))
  | _ => none

theorem marked_snoc (calls : List Call) (call : Call) : marked (calls ++ [call]) = mark (marked calls) call := by
  simp [marked]

theorem mem_marked (calls : List Call) (p : Nat) :
    p ∈ marked calls ↔ (calls.filter (Call.affects p)).getLast? = some (.set p) := by
  induction calls using List.reverseRecOn with
  | nil => simp [marked]
  | append_singleton calls call ih =>
      rw [marked_snoc, List.filter_append]
      cases call with
      | set pos =>
          by_cases same : pos = p
          · simp [mark, Call.affects, same]
          · have other : p ≠ pos := fun equal => same equal.symm
            simp [mark, Call.affects, same, other, ih]
      | clear pos =>
          by_cases same : pos = p
          · simp [mark, Call.affects, same]
          · have other : p ≠ pos := fun equal => same equal.symm
            simp [mark, Call.affects, same, other, ih]
      | get pos => simp [mark, Call.affects, ih]
      | reset => simp [mark, Call.affects]

def Stands (L : Nat) (marks : Finset Nat) (b : Segments) : Prop :=
  ∃ whole : SegmentedBitmap, b = stored whole ∧ whole.segmentSize = L ∧
    ∀ p, whole.getBit p = decide (p ∈ marks)

theorem stands_construct {L n : Nat} (positive : 0 < L) (fits : n + L < 2 ^ 31) :
    ∃ b, construct L n = .ok b ∧ Stands L ∅ b :=
  ⟨_, construct_ok positive fits, _, rfl, rfl, fun p => by simp [SegmentedBitmap.new_clean n positive p]⟩

variable {L : Nat} {marks : Finset Nat} {b : Segments}

theorem Stands.getBit (stands : Stands L marks b) {p : Nat} (fits : p < 2 ^ 31) :
    b.getBit p = .ok (decide (p ∈ marks)) := by
  obtain ⟨whole, rfl, -, bits⟩ := stands
  rw [getBit_stored whole fits, bits]

theorem Stands.grow (stands : Stands L marks b) {p : Nat} (fits : p + L < 2 ^ 31) :
    ∃ grown, b.grow p = .ok grown ∧ p < grown.currentSize ∧ Stands L marks grown := by
  obtain ⟨whole, rfl, rfl, bits⟩ := stands
  refine ⟨_, grow_stored whole fits, whole.grow_covers p, _, rfl, segmentSize_grow whole p, fun q => ?_⟩
  rw [SegmentedBitmap.getBit_grow, bits]

theorem Stands.perform (stands : Stands L marks b) {call : Call} (fits : call.Fits L) :
    ∃ b' answered, b.perform call = .ok (b', answered) ∧ Stands L (mark marks call) b' ∧
      ∀ pos, call = .get pos → answered = some (decide (pos ∈ marks)) := by
  obtain ⟨whole, rfl, rfl, bits⟩ := stands
  cases call with
  | set pos =>
      refine ⟨_, none, by rw [Segments.perform, setBit_stored whole fits, ok_bind], ⟨_, rfl, ?_, fun p => ?_⟩, by simp⟩
      · exact segmentSize_grow whole pos
      · rw [SegmentedBitmap.getBit_setBit, bits]
        simp [mark]
  | clear pos =>
      have small : pos < 2 ^ 31 := Nat.lt_of_le_of_lt (Nat.le_add_right _ _) fits
      refine ⟨_, none, by rw [Segments.perform, clearBit_stored whole small, ok_bind], ⟨_, rfl, ?_, fun p => ?_⟩, by simp⟩
      · unfold SegmentedBitmap.clearBit
        split <;> rfl
      · rw [SegmentedBitmap.getBit_clearBit, bits]
        simp [mark]
  | get pos =>
      have small : pos < 2 ^ 31 := Nat.lt_of_le_of_lt (Nat.le_add_right _ _) fits
      refine ⟨_, some (decide (pos ∈ marks)), ?_, ⟨whole, rfl, rfl, bits⟩, fun q same => ?_⟩
      · rw [Segments.perform, getBit_stored whole small, ok_bind, bits]
      · cases same
        rfl
  | reset =>
      refine ⟨stored whole.reset, none, by rw [Segments.perform, reset_stored, ok_bind],
        ⟨_, rfl, rfl, fun p => ?_⟩, by simp⟩
      rw [SegmentedBitmap.reset_clean whole p]
      simp [mark]

theorem performs_stands (stands : Stands L ∅ b) {calls : List Call} (fits : ∀ call ∈ calls, call.Fits L) :
    ∃ b', b.performs calls = .ok (b', calls.zipIdx.map fun (call, i) => answer (calls.take i) call) ∧
      Stands L (marked calls) b' := by
  induction calls using List.reverseRecOn with
  | nil => exact ⟨b, rfl, stands⟩
  | append_singleton calls call ih =>
      obtain ⟨b₁, ran, between⟩ := ih fun call member => fits call (by simp [member])
      obtain ⟨b₂, answered, step, after, right⟩ := between.perform (fits call (by simp))
      have answers : answered = answer calls call := by
        cases call with
        | get pos => exact right pos rfl
        | set pos | clear pos | reset =>
            simp only [Segments.perform, bind_eq_ok, Except.ok.injEq, Prod.mk.injEq] at step
            obtain ⟨-, -, -, rfl⟩ := step
            rfl
      refine ⟨b₂, ?_, by rwa [marked_snoc]⟩
      have earlier : (calls.zipIdx.map fun (call', i) => answer ((calls ++ [call]).take i) call') =
          calls.zipIdx.map fun (call', i) => answer (calls.take i) call' := by
        apply List.map_congr_left
        rintro ⟨call', i⟩ member
        have : i < calls.length := by simpa using List.snd_lt_of_mem_zipIdx member
        simp only [List.take_append_of_le_length this.le]
      rw [performs] at ran ⊢
      rw [List.foldlM_append, ran, ok_bind, List.zipIdx_append, List.map_append, earlier]
      simp only [List.foldlM_cons, step, ok_bind]
      simp [answers, pure, Except.pure]

/-- `SegmentedBitmap` is a finite set of positions: from a new bitmap, every sequence of calls runs without
an access out of bounds and without an `int` overflow, and every `get_bit` answers whether the last call
before it that affects its position was `set_bit`. Growing changes no bit, and `set_bit` no other bit. -/
theorem segmented_refines {L n : Nat} (positive : 0 < L) (initial : n + L < 2 ^ 31) {calls : List Call}
    (fits : ∀ call ∈ calls, call.Fits L) :
    ∃ fresh b, construct L n = .ok fresh ∧
      fresh.performs calls = .ok (b, calls.zipIdx.map fun (call, i) => answer (calls.take i) call) ∧
      (∀ p, p + L < 2 ^ 31 → b.getBit p = .ok (decide (p ∈ marked calls)) ∧
        (p ∈ marked calls ↔ (calls.filter (Call.affects p)).getLast? = some (.set p))) ∧
      ∀ p, p + L < 2 ^ 31 → ∃ grown changed, b.grow p = .ok grown ∧ p < grown.currentSize ∧
        b.setBit p = .ok changed ∧
        ∀ q, q + L < 2 ^ 31 → grown.getBit q = b.getBit q ∧ (q ≠ p → changed.getBit q = b.getBit q) := by
  obtain ⟨fresh, built, empty⟩ := stands_construct positive initial
  obtain ⟨b, ran, stands⟩ := performs_stands empty fits
  refine ⟨fresh, b, built, ran, fun p small => ?_, fun p small => ?_⟩
  · exact ⟨stands.getBit (by omega), mem_marked calls p⟩
  · obtain ⟨grown, grew, covers, same⟩ := stands.grow small
    obtain ⟨changed, answered, step, after, -⟩ := stands.perform (show (Call.set p).Fits L from small)
    simp only [Segments.perform, bind_eq_ok, Except.ok.injEq, Prod.mk.injEq] at step
    obtain ⟨_, set, rfl, -⟩ := step
    refine ⟨grown, _, grew, covers, set, fun q fit => ⟨?_, fun other => ?_⟩⟩
    · rw [same.getBit (by omega), stands.getBit (by omega)]
    · rw [after.getBit (by omega), stands.getBit (by omega)]
      simp [mark, other]

/-- Segments of 3 bits: a word and a segment are cut in the middle of a byte. -/
theorem segmented_refines_narrow : ∃ fresh b, construct 3 0 = .ok fresh ∧
    fresh.performs [.set 7, .set 2, .clear 7] =
      .ok (b, [Call.set 7, .set 2, .clear 7].zipIdx.map
        fun (call, i) => answer ([Call.set 7, .set 2, .clear 7].take i) call) ∧
    (∀ p, p + 3 < 2 ^ 31 → b.getBit p = .ok (decide (p ∈ marked [.set 7, .set 2, .clear 7])) ∧
      (p ∈ marked [.set 7, .set 2, .clear 7] ↔
        ([Call.set 7, .set 2, .clear 7].filter (Call.affects p)).getLast? = some (.set p))) ∧
    ∀ p, p + 3 < 2 ^ 31 → ∃ grown changed, b.grow p = .ok grown ∧ p < grown.currentSize ∧
      b.setBit p = .ok changed ∧
      ∀ q, q + 3 < 2 ^ 31 → grown.getBit q = b.getBit q ∧ (q ≠ p → changed.getBit q = b.getBit q) :=
  segmented_refines (by decide) (by decide) (by decide)

end Segments

end Radix
