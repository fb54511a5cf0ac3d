import Radix.Sort.Progress
import Radix.Utils.Words

/-!
# The locks of the slots in memory

The lock of a slot is one bit of a byte that it shares with other slots. `set_bit_atomic` is a `fetch_or` that is
repeated while the bit was set before; `clear_bit` is a `fetch_and`.
-/

namespace Radix

open Lib

namespace Words

def fetchSet (words : List (BitVec 8)) (pos : Nat) : Result (Bool × List (BitVec 8)) := do
  let word ← readAt words (wordOffset pos)
  let words ← writeAt words (wordOffset pos) (word ||| (mask pos).setWidth 8)
  .ok (word.zeroExtend 32 &&& mask pos != 0, words)

theorem fetchSet_words {size : Nat} (b : AtomicBitmap size) {pos : Nat} (inside : pos < size) (fits : pos < 2 ^ 64) :
    fetchSet b.words pos = .ok (b.getBit pos, (b.setBit pos).words) := by
  have word := b.wordOffset_lt inside
  have low : Radix.bitOffset pos < 8 := Nat.mod_lt _ (by decide)
  have power : mask pos = BitVec.twoPow 32 (Radix.bitOffset pos) := by
    rw [mask, bitOffset_eq fits, BitVec.twoPow_eq]
    rfl
  have tested (w : BitVec 8) : (w.zeroExtend 32 &&& mask pos != 0) = w.getLsbD (Radix.bitOffset pos) := by
    rw [power, BitVec.and_twoPow]
    have wide : Radix.bitOffset pos < 32 := by omega
    have nonzero : BitVec.twoPow 32 (Radix.bitOffset pos) ≠ 0 := by
      intro zero
      have := congrArg (fun x => x.getLsbD (Radix.bitOffset pos)) zero
      simp [wide] at this
    cases stored : w.getLsbD (Radix.bitOffset pos) with
    | true => simpa [stored, wide] using nonzero
    | false => simp [stored]
  have stored := setBit_words b inside fits
  rw [setBit, readAt_ok word, ok_bind] at stored
  rw [fetchSet, readAt_ok word, ok_bind, stored, ok_bind, tested, AtomicBitmap.getBit_eq]
  simp [List.getD_eq_getElem?_getD, List.getElem?_eq_getElem word]

end Words

namespace Concurrent

/-- A tree whose locks are bits of `words`, one list for each node, and not those of its nodes. -/
structure Packed (W : Type) [Zero W] where
  tree : Tree W := {}
  words : List (List (BitVec 8)) := []

namespace Packed

variable {W : Type} [Zero W]

def fetchSet (s : Packed W) (current idx : Nat) : Option (Bool × Packed W) :=
  s.words[current]?.bind fun words => (Words.fetchSet words idx).toOption.map fun r =>
    (r.1, { s with words := s.words.set current r.2 })

def clearBit (s : Packed W) (current idx : Nat) : Option (Packed W) :=
  s.words[current]?.bind fun words => (Words.clearBit words idx).toOption.map fun words' =>
    { s with words := s.words.set current words' }

def newWords (fanout : SORT W) (s : Packed W) (level : Nat) : List (List (BitVec 8)) :=
  s.words ++ [Words.reset (wordsNew (2 ^ fanout.numBits.getD level 0))]

end Packed

variable {W : Type} [Zero W]

/-- The next atomic step of `RetrieveVertex(id, insertMode)`; a call that finds a lock taken tries again. -/
def nextPacked (fanout : SORT W) (info : GlobalInfo) (id : NodeID) (insertMode : Bool) (s : Packed W) :
    Pc → Option (Packed W × Pc)
  | .lockRoot =>
      some ({ s with tree := { s.tree with mtx := true } }, if s.tree.mtx then .lockRoot else .recheckRoot)
  | .storeRoot => (next fanout info id insertMode s.tree .storeRoot).map fun r => (⟨r.1, s.newWords fanout 0⟩, r.2)
  | .storeNode current i => (next fanout info id insertMode s.tree (.storeNode current i)).map fun r =>
      (⟨r.1, s.newWords fanout (i + 1)⟩, r.2)
  | .lockSlot current i => (s.fetchSet current (fanout.digit id i)).map fun r =>
      (r.2, if r.1 then .lockSlot current i else .recheckSlot current i)
  | .lockLeaf current i => (s.fetchSet current (fanout.digit id i)).map fun r =>
      (r.2, if r.1 then .lockLeaf current i else .recheckLeaf current i)
  | .unlockSlot current i => (s.clearBit current (fanout.digit id i)).map fun s => (s, .insertDescend current i)
  | .unlockLeaf current i v => (s.clearBit current (fanout.digit id i)).map fun s => (s, .returned (some v))
  | pc => (next fanout info id insertMode s.tree pc).map fun r => ({ s with tree := r.1 }, r.2)

def nextPackedOf (fanout : SORT W) (info : GlobalInfo) (calls : Requests) (t : Nat) (s : Packed W) (pc : Pc) :
    Option (Packed W × Pc) := nextPacked fanout info (calls.id t) (calls.insertMode t) s pc

def initialPacked : Threads (Packed W) Pc Nat := ⟨{}, fun _ => .checkRoot⟩

/-! ## Trees that differ in the locks of their slots only -/

structure Alike (s t : Tree W) : Prop where
  root : s.root = t.root
  mtx : s.mtx = t.mtx
  vertexTable : s.vertexTable = t.vertexTable
  cnt : s.cnt = t.cnt
  children : s.nodes.map SORTNode.children = t.nodes.map SORTNode.children

namespace Alike

variable {s t : Tree W}

theorem length (alike : Alike s t) : s.nodes.length = t.nodes.length := by
  rw [← List.length_map SORTNode.children, alike.children, List.length_map]

theorem child (alike : Alike s t) (a j : Nat) : s.child a j = t.child a j := by
  have bound (u : Tree W) : u.child a j = (u.nodes.map SORTNode.children)[a]?.bind fun children => children j := by
    rw [Tree.child, List.getElem?_map, Option.bind_map]
    rfl
  rw [bound, bound, alike.children]

theorem content (alike : Alike s t) (k : Place) : s.content k = t.content k := by
  cases k with
  | root => exact alike.root
  | slot a j => exact alike.child a j

theorem setLock (alike : Alike s t) (a j : Nat) (bit : Bool) : Alike s (t.setLock a j bit) where
  root := alike.root
  mtx := alike.mtx
  vertexTable := alike.vertexTable
  cnt := alike.cnt
  children := by
    rw [alike.children, Tree.setLock]
    apply List.ext_getElem?
    intro b
    rw [List.getElem?_map, List.getElem?_map, List.getElem?_modify]
    cases t.nodes[b]? with
    | none => rfl
    | some node =>
        by_cases here : a = b
        · simp [here]
        · simp [here]

theorem newNode (alike : Alike s t) : Alike s.newNode t.newNode where
  root := alike.root
  mtx := alike.mtx
  vertexTable := alike.vertexTable
  cnt := alike.cnt
  children := by rw [Tree.newNode_nodes, Tree.newNode_nodes, List.map_append, List.map_append, alike.children]

theorem setChild (alike : Alike s t) (a j p : Nat) : Alike (s.setChild a j p) (t.setChild a j p) where
  root := alike.root
  mtx := alike.mtx
  vertexTable := alike.vertexTable
  cnt := alike.cnt
  children := by
    have changed (u : Tree W) : (u.setChild a j p).nodes.map SORTNode.children =
        (u.nodes.map SORTNode.children).modify a fun children => Function.update children j (some p) := by
      apply List.ext_getElem?
      intro b
      simp only [Tree.setChild, List.getElem?_map, List.getElem?_modify]
      cases u.nodes[b]? with
      | none => rfl
      | some node =>
          by_cases here : a = b
          · simp [here]
          · simp [here]
    rw [changed, changed, alike.children]

end Alike

def Pc.Plain : Pc → Prop
  | .lockRoot | .storeRoot | .storeNode _ _ | .lockSlot _ _ | .lockLeaf _ _ | .unlockSlot _ _ | .unlockLeaf _ _ _ => False
  | _ => True

variable {fanout : SORT W} {info : GlobalInfo} {insertMode : Bool} {ws : List Nat} {o o' : Origins}
  {s s' t : Tree W} {id : NodeID} {pc pc' : Pc} {calls : Requests}

theorem next_alike (alike : Alike s t) (plain : pc.Plain) (taken : next fanout info id insertMode s pc = some (s', pc')) :
    ∃ t', next fanout info id insertMode t pc = some (t', pc') ∧ Alike s' t' ∧ (∀ a j, t'.locked a j = t.locked a j) ∧
      t'.nodes.length = t.nodes.length := by
  cases pc with
  | checkRoot | recheckRoot =>
      obtain ⟨rfl, rfl⟩ := Prod.mk.inj (Option.some.inj taken)
      exact ⟨t, by rw [next, alike.root], alike, fun _ _ => rfl, rfl⟩
  | unlockRoot =>
      obtain ⟨rfl, rfl⟩ := Prod.mk.inj (Option.some.inj taken)
      exact ⟨_, rfl, { alike with mtx := rfl }, fun _ _ => rfl, rfl⟩
  | loadRoot =>
      simp only [next] at taken ⊢
      rw [← alike.root]
      split at taken
      · rename_i flat
        cases taken
        exact ⟨t, if_pos flat, alike, fun _ _ => rfl, rfl⟩
      · rename_i deep
        obtain ⟨r, there, ⟨⟩⟩ := Option.map_eq_some_iff.mp taken
        exact ⟨t, by rw [if_neg deep, there, Option.map_some], alike, fun _ _ => rfl, rfl⟩
  | readChild a i | readSlot a i | recheckLeaf a i =>
      simp only [next] at taken ⊢
      rw [← alike.child]
      split at taken
      all_goals
        cases taken
        exact ⟨t, rfl, alike, fun _ _ => rfl, rfl⟩
  | descend a i | insertDescend a i =>
      simp only [next] at taken ⊢
      rw [← alike.child]
      obtain ⟨ptr, there, ⟨⟩⟩ := Option.map_eq_some_iff.mp taken
      exact ⟨t, by rw [there, Option.map_some], alike, fun _ _ => rfl, rfl⟩
  | recheckSlot a i =>
      obtain ⟨rfl, rfl⟩ := Prod.mk.inj (Option.some.inj taken)
      exact ⟨t, by rw [next, alike.child], alike, fun _ _ => rfl, rfl⟩
  | drawIdx a i =>
      obtain ⟨rfl, rfl⟩ := Prod.mk.inj (Option.some.inj taken)
      refine ⟨{ t with cnt := t.cnt + 1 }, by rw [next, alike.cnt], ?_, fun _ _ => rfl, rfl⟩
      exact { alike with cnt := congrArg (· + 1) alike.cnt }
  | growTable a i idx =>
      obtain ⟨rfl, rfl⟩ := Prod.mk.inj (Option.some.inj taken)
      refine ⟨{ t with vertexTable := t.vertexTable ++ [{}] }, by rw [next, alike.vertexTable], ?_, fun _ _ => rfl, rfl⟩
      exact { alike with vertexTable := congrArg (· ++ [{}]) alike.vertexTable }
  | storeIdx a i idx v | storeNext a i v | storeId a i v made =>
      obtain ⟨rfl, rfl⟩ := Prod.mk.inj (Option.some.inj taken)
      refine ⟨_, rfl, ?_, fun _ _ => rfl, rfl⟩
      exact { alike with vertexTable := congrArg (List.modify · v _) alike.vertexTable }
  | publish a i v =>
      obtain ⟨rfl, rfl⟩ := Prod.mk.inj (Option.some.inj taken)
      exact ⟨_, rfl, alike.setChild .., fun b j => Tree.setChild_locked .., Tree.setChild_length ..⟩
  | returned v => contradiction
  | _ => exact plain.elim

/-! ## The words hold the locks -/

structure Packs (ws : List Nat) (o : Origins) (s : Packed W) (t : Tree W) : Prop where
  alike : Alike s.tree t
  length : s.words.length = t.nodes.length
  stored : ∀ a words, s.words[a]? = some words → ∃ b : AtomicBitmap (2 ^ ws.getD (o.path a).length 0),
    words = b.words ∧ ∀ j < 2 ^ ws.getD (o.path a).length 0, b.getBit j = t.locked a j

theorem digit_lt (shaped : fanout.Shaped ws) (id : NodeID) {i : Nat} (inside : i < ws.length) :
    fanout.digit id i < 2 ^ ws.getD i 0 := by
  rw [digit_eq shaped id inside, cut_getD]
  exact Nat.mod_lt _ (Nat.two_pow_pos _)

theorem digit_le (shaped : fanout.Shaped ws) (id : NodeID) {i : Nat} (inside : i < ws.length) : fanout.digit id i ≤ id := by
  rw [digit_eq shaped id inside, cut_getD]
  exact (Nat.mod_le _ _).trans (Nat.div_le_self _ _)

namespace Packs

variable {p : Packed W}

theorem grow (packs : Packs ws o p t) {s t' : Tree W} (alike : Alike s t') (grown : Grows o t o' t')
    (locked : ∀ a j, t'.locked a j = t.locked a j) (length : t'.nodes.length = t.nodes.length) :
    Packs ws o' { p with tree := s } t' := by
  refine ⟨alike, packs.length.trans length.symm, fun a words here => ?_⟩
  have allocated : a < t.nodes.length := packs.length ▸ (List.getElem?_eq_some_iff.mp here).1
  rw [grown.path a allocated]
  simp only [locked]
  exact packs.stored a words here

theorem paths (packs : Packs ws o p t) {before : Tree W} (length : t.nodes.length ≤ before.nodes.length)
    (grown : Grows o before o' t) : Packs ws o' p t := by
  refine ⟨packs.alike, packs.length, fun a words here => ?_⟩
  have allocated : a < t.nodes.length := packs.length ▸ (List.getElem?_eq_some_iff.mp here).1
  rw [grown.path a (allocated.trans_le length)]
  exact packs.stored a words here

theorem newNode (packs : Packs ws o p t) {s t' : Tree W} (shaped : fanout.Shaped ws) (alike : Alike s t')
    (grown : Grows o t o' t') (locked : ∀ a j, t'.locked a j = t.locked a j)
    (length : t'.nodes.length = t.nodes.length + 1) {level : Nat} (new : (o'.path t.nodes.length).length = level) :
    Packs ws o' ⟨s, p.newWords fanout level⟩ t' := by
  have count : (p.newWords fanout level).length = p.words.length + 1 := List.length_append
  refine ⟨alike, by rw [count, packs.length, length], fun a words here => ?_⟩
  simp only [locked]
  rw [Packed.newWords, List.getElem?_append] at here
  split at here
  · rename_i old
    rw [grown.path a (packs.length ▸ old)]
    exact packs.stored a words here
  · rename_i beyond
    have last : a = t.nodes.length := by
      have := (List.getElem?_eq_some_iff.mp here).1
      rw [List.length_singleton] at this
      have := packs.length
      omega
    subst last
    rw [packs.length, Nat.sub_self, List.getElem?_cons_zero] at here
    cases here
    rw [new, shaped.numBits]
    refine ⟨.new _, ?_, fun j _ => ?_⟩
    · rw [Words.reset, List.map_const', wordsNew, List.length_replicate, AtomicBitmap.new]
    · rw [AtomicBitmap.getBit_new, Tree.locked, List.getElem?_eq_none le_rfl]
      rfl

theorem words (packs : Packs ws o p t) {a : Nat} (allocated : a < t.nodes.length) :
    ∃ b : AtomicBitmap (2 ^ ws.getD (o.path a).length 0), p.words[a]? = some b.words ∧
      ∀ j < 2 ^ ws.getD (o.path a).length 0, b.getBit j = t.locked a j := by
  have here := List.getElem?_eq_getElem (packs.length.symm ▸ allocated : a < p.words.length)
  obtain ⟨b, same, bits⟩ := packs.stored a _ here
  exact ⟨b, here.trans (congrArg some same), bits⟩

theorem store (packs : Packs ws o p t) {t' : Tree W} (alike : Alike p.tree t')
    (length : t'.nodes.length = t.nodes.length) {a : Nat} {b : AtomicBitmap (2 ^ ws.getD (o.path a).length 0)}
    (own : ∀ j < 2 ^ ws.getD (o.path a).length 0, b.getBit j = t'.locked a j)
    (others : ∀ c, c ≠ a → ∀ j, t'.locked c j = t.locked c j) :
    Packs ws o { p with words := p.words.set a b.words } t' := by
  refine ⟨alike, by rw [List.length_set, packs.length, length], fun c words here => ?_⟩
  rw [List.getElem?_set] at here
  split at here
  · rename_i same
    subst same
    split at here
    · cases here
      exact ⟨b, rfl, own⟩
    · cases here
  · rename_i other
    simp only [others c (Ne.symm other)]
    exact packs.stored c words here

variable {a i : Nat}

theorem fetchSet (packs : Packs ws o p t) (shaped : fanout.Shaped ws) (narrow : id < 2 ^ 32) (walks : Walks ws o t id a i) :
    ∃ p', p.fetchSet a (fanout.digit id i) = some (t.locked a (fanout.digit id i), p') ∧
      Packs ws o p' (t.setLock a (fanout.digit id i) true) ∧
      (t.locked a (fanout.digit id i) = true → Packs ws o p' t) := by
  have inside : fanout.digit id i < 2 ^ ws.getD (o.path a).length 0 := by
    rw [walks.level]
    exact digit_lt shaped id walks.1
  have fits : fanout.digit id i < 2 ^ 64 := ((digit_le shaped id walks.1).trans_lt narrow).trans (by decide)
  obtain ⟨b, here, bits⟩ := packs.words walks.2.1
  have fetched := Words.fetchSet_words b inside fits
  refine ⟨{ p with words := p.words.set a (b.setBit (fanout.digit id i)).words }, ?_, ?_, fun taken => ?_⟩
  · rw [Packed.fetchSet, here, Option.bind_some, fetched, bits _ inside]
    rfl
  · apply packs.store (packs.alike.setLock a _ true) (Tree.setLock_length ..)
    · intro j below
      rw [b.getBit_setBit inside, bits j below, Tree.setLock_locked]
      by_cases same : j = fanout.digit id i <;> simp [same, walks.2.1]
    · intro c other j
      rw [Tree.setLock_locked, if_neg fun here => other here.1]
  · apply packs.store packs.alike rfl
    · intro j below
      rw [b.getBit_setBit inside, bits j below]
      by_cases same : j = fanout.digit id i
      · simp [same, taken]
      · simp [same]
    · exact fun _ _ _ => rfl

theorem clearBit (packs : Packs ws o p t) (shaped : fanout.Shaped ws) (narrow : id < 2 ^ 32) (walks : Walks ws o t id a i) :
    ∃ p', p.clearBit a (fanout.digit id i) = some p' ∧ Packs ws o p' (t.setLock a (fanout.digit id i) false) := by
  have inside : fanout.digit id i < 2 ^ ws.getD (o.path a).length 0 := by
    rw [walks.level]
    exact digit_lt shaped id walks.1
  have fits : fanout.digit id i < 2 ^ 64 := ((digit_le shaped id walks.1).trans_lt narrow).trans (by decide)
  obtain ⟨b, here, bits⟩ := packs.words walks.2.1
  refine ⟨{ p with words := p.words.set a (b.clearBit (fanout.digit id i)).words }, ?_, ?_⟩
  · rw [Packed.clearBit, here, Option.bind_some, Words.clearBit_words b inside fits]
    rfl
  · apply packs.store (packs.alike.setLock a _ false) (Tree.setLock_length ..)
    · intro j below
      rw [b.getBit_clearBit inside, bits j below, Tree.setLock_locked]
      by_cases same : j = fanout.digit id i <;> simp [same, walks.2.1]
    · intro c other j
      rw [Tree.setLock_locked, if_neg fun here => other here.1]

end Packs

/-! ## Every step of the words is one of the tree or none -/

theorem nextPacked_plain {p : Packed W} (plain : pc.Plain) : nextPacked fanout info id insertMode p pc =
    (next fanout info id insertMode p.tree pc).map fun r => ({ p with tree := r.1 }, r.2) := by
  cases pc with
  | lockRoot | storeRoot | storeNode | lockSlot | lockLeaf | unlockSlot | unlockLeaf => exact plain.elim
  | _ => rfl

def Related (fanout : SORT W) (ws : List Nat) (calls : Requests) (c : Threads (Packed W) Pc Nat) (d : State W) : Prop :=
  c.local' = d.local' ∧
    ∃ o, Mixed fanout ws calls o d ∧ Unblocked fanout calls d ∧ Packs ws o c.shared d.shared

section

variable {p p' : Packed W} {t' : Tree W}

variable (fanout info id insertMode p' pc' t pc ws o) in
def Follows : Prop := ∃ t', next fanout info id insertMode t pc = some (t', pc') ∧
  ∀ o', Grows o t o' t' → Placed ws o' t' → Packs ws o' p' t'

theorem Packs.locks (packs : Packs ws o p t) (shaped : fanout.Shaped ws) (narrow : id < 2 ^ 32) {a i : Nat}
    (walks : Walks ws o t id a i) {there back : Pc}
    (locks : next fanout info id insertMode t pc = if t.locked a (fanout.digit id i) then none
      else some (t.setLock a (fanout.digit id i) true, there))
    (taken : (p.fetchSet a (fanout.digit id i)).map (fun r => (r.2, if r.1 then back else there)) = some (p', pc')) :
    pc' = back ∧ Packs ws o p' t ∨ Follows fanout info insertMode ws o t id pc pc' p' := by
  obtain ⟨q, fetched, stored, spun⟩ := packs.fetchSet shaped narrow walks
  rw [fetched, Option.map_some] at taken
  cases set : t.locked a (fanout.digit id i) with
  | true =>
      rw [set] at taken
      cases taken
      exact .inl ⟨rfl, spun set⟩
  | false =>
      rw [set] at taken locks
      cases taken
      exact .inr ⟨_, locks, fun o' grown _ => stored.paths (Tree.setLock_length ..).le grown⟩

theorem Packs.unlocks (packs : Packs ws o p t) (shaped : fanout.Shaped ws) (narrow : id < 2 ^ 32) {a i : Nat}
    (walks : Walks ws o t id a i) {there : Pc}
    (unlocks : next fanout info id insertMode t pc = some (t.setLock a (fanout.digit id i) false, there))
    (taken : (p.clearBit a (fanout.digit id i)).map (fun r => (r, there)) = some (p', pc')) :
    Follows fanout info insertMode ws o t id pc pc' p' := by
  obtain ⟨q, cleared, stored⟩ := packs.clearBit shaped narrow walks
  rw [cleared] at taken
  cases taken
  exact ⟨_, unlocks, fun o' grown _ => stored.paths (Tree.setLock_length ..).le grown⟩

theorem Packs.plain (packs : Packs ws o p t) (plain : pc.Plain)
    (taken : nextPacked fanout info id insertMode p pc = some (p', pc')) :
    Follows fanout info insertMode ws o t id pc pc' p' := by
  rw [nextPacked_plain plain] at taken
  obtain ⟨⟨s', pc''⟩, moved, ⟨⟩⟩ := Option.map_eq_some_iff.mp taken
  obtain ⟨t', moved', alike, locked, length⟩ := next_alike packs.alike plain moved
  exact ⟨t', moved', fun o' grown _ => packs.grow alike grown locked length⟩

theorem Packs.step (packs : Packs ws o p t) (shaped : fanout.Shaped ws) (narrow : id < 2 ^ 32)
    (stands : Stands fanout ws o t id pc) (taken : nextPacked fanout info id insertMode p pc = some (p', pc')) :
    pc' = pc ∧ Packs ws o p' t ∨ Follows fanout info insertMode ws o t id pc pc' p' := by
  cases pc with
  | lockRoot =>
      cases set : p.tree.mtx with
      | true =>
          left
          rw [nextPacked, set, if_pos rfl] at taken
          cases taken
          refine ⟨rfl, { packs with alike := { packs.alike with mtx := ?_ } }⟩
          exact set.symm.trans packs.alike.mtx
      | false =>
          right
          rw [nextPacked, set, if_neg Bool.false_ne_true] at taken
          cases taken
          refine ⟨{ t with mtx := true }, ?_, fun o' grown _ => ?_⟩
          · rw [next, ← packs.alike.mtx, set, if_neg Bool.false_ne_true]
          · exact packs.grow { packs.alike with mtx := rfl } grown (fun _ _ => rfl) rfl
  | storeRoot =>
      right
      cases taken
      refine ⟨_, rfl, fun o' grown placed => ?_⟩
      apply packs.newNode shaped _ grown
      · exact fun a j => t.newNode_locked a j
      · exact List.length_append
      · rw [(placed.root _ rfl).2, List.length_nil]
      · exact { packs.alike.newNode with root := congrArg some packs.alike.length }
  | storeNode a i =>
      right
      cases taken
      obtain ⟨walks, inner⟩ := stands
      refine ⟨_, rfl, fun o' grown placed => ?_⟩
      apply packs.newNode shaped _ grown
      · intro b j
        rw [Tree.setChild_locked, t.newNode_locked]
      · rw [Tree.setChild_length, Tree.newNode_nodes, List.length_append, List.length_singleton]
      · have level : (o'.path a).length = i := by rw [grown.path a walks.2.1, walks.level]
        have child : (t.newNode.setChild a (fanout.digit id i) t.nodes.length).child a (fanout.digit id i) =
            some t.nodes.length := by
          rw [Tree.setChild_child, if_pos]
          refine ⟨rfl, rfl, ?_⟩
          rw [Tree.newNode_nodes, List.length_append]
          exact Nat.lt_add_right _ walks.2.1
        rw [(placed.inner a _ _ child (by rwa [level])).2, List.length_append, level, List.length_singleton]
      · rw [packs.alike.length]
        exact packs.alike.newNode.setChild ..
  | lockSlot a i => exact packs.locks shaped narrow stands.1 rfl taken
  | lockLeaf a i => exact packs.locks shaped narrow stands.1 rfl taken
  | unlockSlot a i => exact .inr (packs.unlocks shaped narrow stands.1 rfl taken)
  | unlockLeaf a i v => exact .inr (packs.unlocks shaped narrow stands.1.1 rfl taken)
  | _ => exact .inr (packs.plain trivial taken)

theorem Packs.stuck (packs : Packs ws o p t) (shaped : fanout.Shaped ws) (narrow : id < 2 ^ 32)
    (stands : Stands fanout ws o t id pc ∨ insertMode = false ∧ pc = .returned none)
    (seen : ∀ k, pc.sees fanout id = some k → t.content k ≠ none) :
    nextPacked fanout info id insertMode p pc = none ↔ ∃ v, pc = .returned v := by
  constructor
  · intro stuck
    by_contra unfinished
    have here : Stands fanout ws o t id pc := stands.resolve_right fun ended => unfinished ⟨none, ended.2⟩
    have plainly (plain : pc.Plain) (waits : pc.awaits fanout id = none) : False := by
      rw [nextPacked_plain plain] at stuck
      have seen' (k : Place) (sees : pc.sees fanout id = some k) : p.tree.content k ≠ none := by
        rw [packs.alike.content]
        exact seen k sees
      obtain ended | ⟨k, awaits, -⟩ := awaits_of_stuck seen' (Option.map_eq_none_iff.mp stuck)
      · exact unfinished ended
      · rw [waits] at awaits
        contradiction
    cases pc with
    | lockRoot | storeRoot | storeNode => contradiction
    | lockSlot a i | lockLeaf a i =>
        obtain ⟨q, fetched, -⟩ := packs.fetchSet shaped narrow here.1
        rw [nextPacked, fetched] at stuck
        contradiction
    | unlockSlot a i =>
        obtain ⟨q, cleared, -⟩ := packs.clearBit shaped narrow here.1
        rw [nextPacked, cleared] at stuck
        contradiction
    | unlockLeaf a i v =>
        obtain ⟨q, cleared, -⟩ := packs.clearBit shaped narrow here.1.1
        rw [nextPacked, cleared] at stuck
        contradiction
    | _ => exact plainly trivial rfl
  · rintro ⟨v, rfl⟩
    rfl

end

/-! ## Whole runs -/

theorem initialPacked_related : Related fanout ws calls (initialPacked : Threads (Packed W) Pc Nat) initial := by
  refine ⟨rfl, _, initial_mixed, initial_unblocked, ⟨⟨rfl, rfl, rfl, rfl, rfl⟩, rfl, fun a words here => ?_⟩⟩
  cases here

theorem Related.step (shaped : fanout.Shaped ws) (levels : ws ≠ []) (inRange : ∀ t, calls.id t < 2 ^ ws.sum)
    (narrow : ∀ t, calls.id t < 2 ^ 32) {c c' : Threads (Packed W) Pc Nat} {d : State W} {t : Nat}
    (related : Related fanout ws calls c d) (taken : Threads.step (nextPackedOf fanout info calls) c t = some c') :
    Related fanout ws calls c' d ∨
      ∃ d', Threads.step (nextOf fanout info calls) d t = some d' ∧ Related fanout ws calls c' d' := by
  obtain ⟨same, o, mixed, unblocked, packs⟩ := related
  obtain ⟨p', pc', moved, rfl⟩ := Threads.step_eq_some.mp taken
  rw [same] at moved
  have here : Stands fanout ws o d.shared (calls.id t) (d.local' t) := by
    apply (mixed.stands t).resolve_right
    rintro ⟨-, ended⟩
    rw [nextPackedOf, ended] at moved
    contradiction
  obtain ⟨rfl, packs'⟩ | ⟨s', moved', follows⟩ := packs.step shaped (narrow t) here moved
  · left
    refine ⟨?_, o, mixed, unblocked, packs'⟩
    rw [same, Function.update_eq_self]
  · right
    obtain ⟨o', grown, mixed', -⟩ := mixed.step shaped levels inRange moved'
    refine ⟨_, Threads.step_eq_some.mpr ⟨s', pc', moved', rfl⟩, ?_, o', mixed', ?_, follows o' grown mixed'.placed⟩
    · rw [same]
    · exact unblocked.step mixed grown moved'

/-- With the locks in shared bytes, every run is one of the locks apart, without the rounds that find a lock taken;
no two calls have a lock of one slot at a time, and no call reads or writes beyond the words. -/
theorem bit_locks_refine {fanout : SORT W} {ws : List Nat} (fresh : SORT.Constructed fanout ws)
    (info : GlobalInfo) (calls : Requests) (inRange : ∀ t, calls.id t < 2 ^ ws.sum) (narrow : ∀ t, calls.id t < 2 ^ 32)
    {schedule : List Nat} {c : Threads (Packed W) Pc Nat}
    (ran : Threads.run (nextPackedOf fanout info calls) initialPacked schedule = some c) :
    (∃ schedule' d, schedule'.Sublist schedule ∧ Threads.run (nextOf fanout info calls) initial schedule' = some d ∧
      c.local' = d.local' ∧ c.shared.tree.vertexTable = d.shared.vertexTable ∧ c.shared.tree.cnt = d.shared.cnt ∧
      ∀ k, c.shared.tree.content k = d.shared.content k) ∧
    (∀ t u k, (c.local' t).holds fanout (calls.id t) = some k → (c.local' u).holds fanout (calls.id u) = some k → t = u) ∧
    ∀ t, Threads.step (nextPackedOf fanout info calls) c t = none ↔ ∃ v, c.local' t = .returned v := by
  have levels : ws ≠ [] := fresh.fanout.2
  have shaped := fresh.dictionary.shaped
  have simulates (c : Threads (Packed W) Pc Nat) (d : State W) (t : Nat) (c' : Threads (Packed W) Pc Nat)
      (related : Related fanout ws calls c d) (taken : Threads.step (nextPackedOf fanout info calls) c t = some c') :=
    related.step shaped levels inRange narrow taken
  obtain ⟨schedule', d, fewer, ran', same, o, mixed, unblocked, packs⟩ :=
    Threads.run_refines simulates initialPacked_related ran
  refine ⟨⟨schedule', d, fewer, ran', same, ?_⟩, ?_, fun t => ?_⟩
  · exact ⟨packs.alike.vertexTable, packs.alike.cnt, packs.alike.content⟩
  · rw [same]
    exact mixed.guarded.once
  · rw [Threads.step, Option.map_eq_none_iff, same]
    exact packs.stuck shaped (narrow t) (mixed.stands t) (unblocked.seen t)

/-- Call 1 finds the bit of slot 1 set twice, and the tree takes the other 13 steps. -/
theorem bit_locks_refine_spinning : ∃ (c : Threads (Packed Nat) Pc Nat) (schedule' : List Nat) (d : State Nat),
    Threads.run (nextPackedOf (SORT.ofVector [1]) ⟨0, true⟩ (inserting fun _ => 1)) initialPacked
        (List.replicate 9 0 ++ List.replicate 6 1) = some c ∧
      c.shared.words = [[2]] ∧ c.local' 1 = .lockLeaf 0 0 ∧
      Threads.run (nextOf (SORT.ofVector [1]) ⟨0, true⟩ (inserting fun _ => 1)) initial schedule' = some d ∧
      c.local' = d.local' := by
  have fresh : SORT.Constructed (SORT.ofVector [1] : SORT Nat) [1] := .vector (by decide)
  have inRange (t : Nat) : (1 : NodeID) < 2 ^ [1].sum := by decide
  have narrow (t : Nat) : (1 : NodeID) < 2 ^ 32 := by decide
  have ends : (Threads.run (nextPackedOf (SORT.ofVector [1]) ⟨0, true⟩ (inserting fun _ => 1))
      (initialPacked : Threads (Packed Nat) Pc Nat) (List.replicate 9 0 ++ List.replicate 6 1)).map
      (fun c => (c.shared.words, c.local' 1)) = some ([[2]], .lockLeaf 0 0) := by decide
  obtain ⟨c, ran, found⟩ := Option.map_eq_some_iff.mp ends
  obtain ⟨words, spins⟩ := Prod.mk.inj found
  obtain ⟨⟨schedule', d, -, ran', same, -⟩, -⟩ := bit_locks_refine fresh ⟨0, true⟩ (inserting fun _ => 1) inRange narrow ran
  exact ⟨c, schedule', d, ran, words, spins, ran', same⟩

end Concurrent

end Radix
