import Mathlib.Data.List.Basic

/-!
# The scratch bitmaps of `utils.h`

An `AtomicBitmap` packs its bits into bytes; a `SegmentedBitmap` is a list of `AtomicBitmap`s of
one size that grows when a bit beyond its end is set. Fresh words are zero, as C++20
value-initialises `new std::atomic<uint8_t>[n]`.
-/

namespace Radix

def wordOffset (n : Nat) : Nat := n / 8

def bitOffset (n : Nat) : Nat := n % 8

structure AtomicBitmap (size : Nat) where
  words : List (BitVec 8)
  length_words : words.length = (size + 7) / 8

namespace AtomicBitmap

variable {size : Nat}

def new (size : Nat) : AtomicBitmap size where
  words := List.replicate ((size + 7) / 8) 0#8
  length_words := by simp

def reset (_ : AtomicBitmap size) : AtomicBitmap size := new size

def setBit (b : AtomicBitmap size) (pos : Nat) : AtomicBitmap size where
  words := b.words.modify (wordOffset pos) (· ||| 1#8 <<< bitOffset pos)
  length_words := by simp [b.length_words]

def clearBit (b : AtomicBitmap size) (pos : Nat) : AtomicBitmap size where
  words := b.words.modify (wordOffset pos) (· &&& ~~~(1#8 <<< bitOffset pos))
  length_words := by simp [b.length_words]

def getBit (b : AtomicBitmap size) (pos : Nat) : Bool :=
  (b.words.getD (wordOffset pos) 0#8 >>> bitOffset pos).getLsbD 0

theorem wordOffset_lt (b : AtomicBitmap size) {pos : Nat} (bound : pos < size) :
    wordOffset pos < b.words.length := by
  rw [b.length_words, wordOffset]
  omega

theorem offset_ext {p q : Nat} : p = q ↔ wordOffset p = wordOffset q ∧ bitOffset p = bitOffset q := by
  unfold wordOffset bitOffset
  omega

theorem mask_getLsbD (p q : Nat) :
    (1#8 <<< bitOffset p).getLsbD (bitOffset q) = decide (bitOffset p = bitOffset q) := by
  have : bitOffset p < 8 := Nat.mod_lt _ (by decide)
  have : bitOffset q < 8 := Nat.mod_lt _ (by decide)
  simp only [BitVec.getLsbD_shiftLeft, BitVec.getLsbD_one]
  by_cases same : bitOffset p = bitOffset q
  · simp [same]; omega
  · simp [same]; omega

@[simp] theorem getBit_new (pos : Nat) : (new size).getBit pos = false := by
  simp [getBit, new, List.getD_eq_getElem?_getD, List.getElem?_replicate]
  split <;> simp

theorem getBit_eq (b : AtomicBitmap size) (pos : Nat) :
    b.getBit pos = (b.words.getD (wordOffset pos) 0#8).getLsbD (bitOffset pos) := by
  simp [getBit]

theorem getBit_setBit (b : AtomicBitmap size) {p : Nat} (bound : p < size) (q : Nat) :
    (b.setBit p).getBit q = (decide (q = p) || b.getBit q) := by
  have inside := b.wordOffset_lt bound
  rw [getBit_eq, getBit_eq]
  simp only [setBit, List.getD_eq_getElem?_getD, List.getElem?_modify]
  by_cases word : wordOffset p = wordOffset q
  · rw [word] at inside
    rw [List.getElem?_eq_getElem inside]
    simp only [word, if_true]
    change (_ ||| _ : BitVec 8).getLsbD _ = (_ || BitVec.getLsbD _ _)
    rw [BitVec.getLsbD_or, mask_getLsbD, Bool.or_comm]
    simp [offset_ext (p := q), word, eq_comm]
  · have : q ≠ p := fun equal => word (by rw [equal])
    simp [word, this]

theorem getBit_clearBit (b : AtomicBitmap size) {p : Nat} (bound : p < size) (q : Nat) :
    (b.clearBit p).getBit q = (!decide (q = p) && b.getBit q) := by
  have inside := b.wordOffset_lt bound
  have low : bitOffset q < 8 := Nat.mod_lt _ (by decide)
  rw [getBit_eq, getBit_eq]
  simp only [clearBit, List.getD_eq_getElem?_getD, List.getElem?_modify]
  by_cases word : wordOffset p = wordOffset q
  · rw [word] at inside
    rw [List.getElem?_eq_getElem inside]
    simp only [word, if_true]
    change (_ &&& _ : BitVec 8).getLsbD _ = (_ && BitVec.getLsbD _ _)
    rw [BitVec.getLsbD_and, BitVec.getLsbD_not, mask_getLsbD, Bool.and_comm]
    simp [offset_ext (p := q), word, low, eq_comm]
  · have : q ≠ p := fun equal => word (by rw [equal])
    simp [word, this]

end AtomicBitmap

structure SegmentedBitmap where
  segmentSize : Nat
  segments : List (AtomicBitmap segmentSize)
  currentSize : Nat
  segmentSize_pos : 0 < segmentSize
  currentSize_eq : currentSize = segments.length * segmentSize

namespace SegmentedBitmap

def new (segSize n : Nat) (pos : 0 < segSize) : SegmentedBitmap where
  segmentSize := segSize
  segments := List.replicate ((n + segSize - 1) / segSize) (.new segSize)
  currentSize := (n + segSize - 1) / segSize * segSize
  segmentSize_pos := pos
  currentSize_eq := by simp

def reset (b : SegmentedBitmap) : SegmentedBitmap :=
  { b with segments := b.segments.map .reset, currentSize_eq := by simp [b.currentSize_eq] }

/-- The growing part of `set_bit`. -/
def grow (b : SegmentedBitmap) (pos : Nat) : SegmentedBitmap :=
  if beyond : b.currentSize ≤ pos then
    let numSegments := (pos + b.segmentSize) / b.segmentSize
    { b with
      segments := b.segments ++
        List.replicate (numSegments - b.segments.length) (.new b.segmentSize)
      currentSize := numSegments * b.segmentSize
      currentSize_eq := by
        have more : b.segments.length ≤ numSegments := by
          rw [Nat.le_div_iff_mul_le b.segmentSize_pos, ← b.currentSize_eq]
          omega
        rw [List.length_append, List.length_replicate, Nat.add_sub_cancel' more] }
  else b

/-- The storing part of `set_bit`. -/
def mark (b : SegmentedBitmap) (pos : Nat) : SegmentedBitmap :=
  { b with
    segments := b.segments.modify (pos / b.segmentSize) (·.setBit (pos % b.segmentSize))
    currentSize_eq := by simp [b.currentSize_eq] }

def setBit (b : SegmentedBitmap) (pos : Nat) : SegmentedBitmap := (b.grow pos).mark pos

def clearBit (b : SegmentedBitmap) (pos : Nat) : SegmentedBitmap :=
  if b.currentSize ≤ pos then b
  else { b with
    segments := b.segments.modify (pos / b.segmentSize) (·.clearBit (pos % b.segmentSize))
    currentSize_eq := by simp [b.currentSize_eq] }

def getBit (b : SegmentedBitmap) (pos : Nat) : Bool :=
  if b.currentSize ≤ pos then false
  else b.segments[pos / b.segmentSize]?.any (·.getBit (pos % b.segmentSize))

def Clean (b : SegmentedBitmap) : Prop := ∀ pos, b.getBit pos = false

theorem segment_lt (b : SegmentedBitmap) {pos : Nat} (within : pos < b.currentSize) :
    pos / b.segmentSize < b.segments.length := by
  rw [Nat.div_lt_iff_lt_mul b.segmentSize_pos, ← b.currentSize_eq]
  exact within

theorem getBit_within (b : SegmentedBitmap) {pos : Nat} (within : pos < b.currentSize) :
    b.getBit pos =
      (b.segments.get ⟨pos / b.segmentSize, b.segment_lt within⟩).getBit (pos % b.segmentSize) := by
  have inside := b.segment_lt within
  simp [getBit, Nat.not_le.mpr within, List.getElem?_eq_getElem inside]

theorem getBit_beyond (b : SegmentedBitmap) {pos : Nat} (beyond : b.currentSize ≤ pos) :
    b.getBit pos = false := by simp [getBit, beyond]

theorem new_clean {segSize : Nat} (n : Nat) (pos : 0 < segSize) : (new segSize n pos).Clean := by
  intro q
  by_cases within : q < (new segSize n pos).currentSize
  · rw [getBit_within _ within]
    simp [new]
  · exact getBit_beyond _ (Nat.not_lt.mp within)

theorem reset_clean (b : SegmentedBitmap) : b.reset.Clean := by
  intro q
  by_cases within : q < b.reset.currentSize
  · rw [getBit_within _ within]
    simp [reset, AtomicBitmap.reset]
  · exact getBit_beyond _ (Nat.not_lt.mp within)

theorem grow_covers (b : SegmentedBitmap) (pos : Nat) : pos < (b.grow pos).currentSize := by
  unfold grow
  split
  · have := Nat.lt_div_mul_add (a := pos + b.segmentSize) b.segmentSize_pos
    simp only
    omega
  · omega

theorem getBit_grow (b : SegmentedBitmap) (pos q : Nat) : (b.grow pos).getBit q = b.getBit q := by
  unfold grow
  split
  next beyond =>
    by_cases within : q < b.currentSize
    · have inside := b.segment_lt within
      rw [getBit_within b within]
      have more : ¬ (pos + b.segmentSize) / b.segmentSize * b.segmentSize ≤ q := by
        have := Nat.lt_div_mul_add (a := pos + b.segmentSize) b.segmentSize_pos
        omega
      simp [getBit, more, List.getElem?_append_left inside, List.getElem?_eq_getElem inside]
    · rw [getBit_beyond b (Nat.not_lt.mp within)]
      have outside : b.segments.length ≤ q / b.segmentSize := by
        rw [Nat.le_div_iff_mul_le b.segmentSize_pos, ← b.currentSize_eq]
        omega
      simp only [getBit, List.getElem?_append_right outside, List.getElem?_replicate]
      split
      · rfl
      · split <;> simp
  next => rfl

theorem position_ext {L : Nat} {p q : Nat} : p = q ↔ p / L = q / L ∧ p % L = q % L :=
  ⟨fun equal => by simp [equal], fun ⟨quotient, rest⟩ => by
    rw [← Nat.div_add_mod p L, ← Nat.div_add_mod q L, quotient, rest]⟩

theorem any_modify {L : Nat} {segments : List (AtomicBitmap L)} {q : Nat}
    (inside : q / L < segments.length) (i : Nat) (f : AtomicBitmap L → AtomicBitmap L) :
    (segments.modify i f)[q / L]?.any (·.getBit (q % L)) =
      (if i = q / L then f (segments.get ⟨q / L, inside⟩) else segments.get ⟨q / L, inside⟩).getBit
        (q % L) := by
  rw [List.getElem?_modify, List.getElem?_eq_getElem inside]
  rfl

theorem getBit_mark (b : SegmentedBitmap) {p : Nat} (covered : p < b.currentSize) (q : Nat) :
    (b.mark p).getBit q = (decide (q = p) || b.getBit q) := by
  by_cases within : q < b.currentSize
  · have inside := b.segment_lt within
    have offset : p % b.segmentSize < b.segmentSize := Nat.mod_lt _ b.segmentSize_pos
    have stored : (b.mark p).getBit q =
        (b.segments.modify (p / b.segmentSize) (·.setBit (p % b.segmentSize)))[q / b.segmentSize]?.any
          (·.getBit (q % b.segmentSize)) := if_neg (Nat.not_le.mpr within)
    rw [getBit_within b within, stored, any_modify inside]
    by_cases segment : p / b.segmentSize = q / b.segmentSize
    · simp [segment, AtomicBitmap.getBit_setBit _ offset, position_ext (L := b.segmentSize) (p := q)]
    · have : q ≠ p := fun equal => segment (by rw [equal])
      simp [segment, this]
  · have beyond := Nat.not_lt.mp within
    have : q ≠ p := by omega
    rw [getBit_beyond b beyond]
    simp [mark, getBit, beyond, this]

@[simp] theorem getBit_setBit (b : SegmentedBitmap) (p q : Nat) :
    (b.setBit p).getBit q = (decide (q = p) || b.getBit q) := by
  rw [setBit, getBit_mark _ (b.grow_covers p), getBit_grow]

@[simp] theorem getBit_clearBit (b : SegmentedBitmap) (p q : Nat) :
    (b.clearBit p).getBit q = (!decide (q = p) && b.getBit q) := by
  unfold clearBit
  split
  next beyond =>
    by_cases equal : q = p
    · subst equal
      simp [getBit_beyond b beyond]
    · simp [equal]
  next =>
    by_cases within : q < b.currentSize
    · have inside := b.segment_lt within
      have offset : p % b.segmentSize < b.segmentSize := Nat.mod_lt _ b.segmentSize_pos
      have stored : getBit { b with
          segments := b.segments.modify (p / b.segmentSize) (·.clearBit (p % b.segmentSize))
          currentSize_eq := by simp [b.currentSize_eq] } q =
          (b.segments.modify (p / b.segmentSize) (·.clearBit (p % b.segmentSize)))[q / b.segmentSize]?.any
            (·.getBit (q % b.segmentSize)) := if_neg (Nat.not_le.mpr within)
      rw [getBit_within b within, stored, any_modify inside]
      by_cases segment : p / b.segmentSize = q / b.segmentSize
      · simp [segment, AtomicBitmap.getBit_clearBit _ offset,
          position_ext (L := b.segmentSize) (p := q)]
      · have : q ≠ p := fun equal => segment (by rw [equal])
        simp [segment, this]
    · have beyond := Nat.not_lt.mp within
      rw [getBit_beyond b beyond]
      simp [getBit, beyond]

end SegmentedBitmap

end Radix
