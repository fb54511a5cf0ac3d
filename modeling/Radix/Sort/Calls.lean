import Mathlib.Data.List.Dedup
import Radix.Sort.Dictionary

/-!
# Sequences of calls on the tree
-/

namespace Radix

open Lib

variable {W : Type} [Zero W]

namespace SORT

inductive Call where
  | retrieveVertex (id : NodeID) (insertMode : Bool)
  | checkExistence (id : NodeID)
  | deleteVertex (id : NodeID)
  deriving DecidableEq, Repr

def Call.id : Call → NodeID
  | .retrieveVertex id _ | .checkExistence id | .deleteVertex id => id

inductive Answer where
  | vertex (ptr : Ptr)
  | flag (b : Bool)

def call (t : SORT W) (info : GlobalInfo) : Call → Result (Answer × SORT W)
  | .retrieveVertex id insertMode => do
      let (v, t) ← t.retrieveVertex info id insertMode
      .ok (.vertex v, t)
  | .checkExistence id => do
      let b ← t.checkExistence id
      .ok (.flag b, t)
  | .deleteVertex id => do
      let (b, t) ← t.deleteVertex info id
      .ok (.flag b, t)

def runCalls : SORT W → List (GlobalInfo × Call) → Result (List Answer × SORT W)
  | t, [] => .ok ([], t)
  | t, (info, c) :: calls => do
      let (answer, t) ← t.call info c
      let (answers, t) ← runCalls t calls
      .ok (answer :: answers, t)

theorem runCalls_append {t t' final : SORT W} {calls more : List (GlobalInfo × Call)} {answers later : List Answer}
    (ran : t.runCalls calls = .ok (answers, t')) (ranMore : t'.runCalls more = .ok (later, final)) :
    t.runCalls (calls ++ more) = .ok (answers ++ later, final) := by
  induction calls generalizing t answers with
  | nil =>
      obtain ⟨rfl, rfl⟩ := Prod.mk.inj (Except.ok.inj ran)
      exact ranMore
  | cons first calls ih =>
      simp only [runCalls, bind_eq_ok] at ran
      obtain ⟨⟨answer, s⟩, called, ⟨rest, between⟩, ran, same⟩ := ran
      obtain ⟨rfl, rfl⟩ := Prod.mk.inj (Except.ok.inj same)
      simp only [List.cons_append, runCalls, called, ok_bind, ih ran]

def fetch (t : SORT W) (info : GlobalInfo) (id : NodeID) : Result Ptr := do
  let (v, _) ← t.retrieveVertex info id false
  .ok v

inductive Constructed : SORT W → List Nat → Prop
  | vector {numBits : List Nat} : prune numBits ≠ [] →
      Constructed (ofVector numBits) (prune numBits)
  | array {d : Nat} {numBits : List Nat} : prune (numBits.take d) ≠ [] →
      Constructed (ofArray d numBits) (prune (numBits.take d))
  | optimal {optimalFanout : Nat → Nat → Nat → List Nat} {n bitLength l : Nat} :
      prune (optimalFanout n bitLength l) ≠ [] →
      Constructed (ofOptimal optimalFanout n bitLength l true) (prune (optimalFanout n bitLength l))
  | unpruned {optimalFanout : Nat → Nat → Nat → List Nat} {n bitLength l : Nat} :
      optimalFanout n bitLength l ≠ [] →
      Constructed (ofOptimal optimalFanout n bitLength l false) (optimalFanout n bitLength l)

theorem Constructed.fanout {t : SORT W} {ws : List Nat} (fresh : Constructed t ws) : t = ofFanout ws ∧ ws ≠ [] := by
  cases fresh with
  | vector levels => exact ⟨rfl, levels⟩
  | array levels => exact ⟨rfl, levels⟩
  | optimal levels => exact ⟨rfl, levels⟩
  | unpruned levels => exact ⟨rfl, levels⟩

theorem Constructed.dictionary {t : SORT W} {ws : List Nat} (fresh : Constructed t ws) :
    t.Dictionary ws [] := by
  obtain ⟨rfl, levels⟩ := fresh.fanout
  exact ofFanout_dictionary levels

/-! ## The abstract dictionary -/

def answer (B : Nat) (ids : List NodeID) : Call → Answer
  | .retrieveVertex id true => .vertex (record (position B (enter B ids id) id))
  | .retrieveVertex id false => .vertex (record (position B ids id))
  | .checkExistence id | .deleteVertex id => .flag (position B ids id).isSome

def entered (B : Nat) (ids : List NodeID) : Call → List NodeID
  | .retrieveVertex id true => enter B ids id
  | _ => ids

def enteredBy (B : Nat) (ids : List NodeID) (calls : List (GlobalInfo × Call)) : List NodeID :=
  calls.foldl (fun ids c => entered B ids c.2) ids

theorem enteredBy_append (B : Nat) (ids : List NodeID) (calls more : List (GlobalInfo × Call)) :
    enteredBy B ids (calls ++ more) = enteredBy B (enteredBy B ids calls) more :=
  List.foldl_append

namespace Dictionary

variable {t : SORT W} {ws : List Nat} {ids : List NodeID}

theorem call (dict : t.Dictionary ws ids) (info : GlobalInfo) (c : Call) :
    ∃ t', t.call info c = .ok (answer ws.sum ids c, t') ∧
      t'.Dictionary ws (entered ws.sum ids c) := by
  cases c with
  | retrieveVertex id insertMode =>
      cases insertMode with
      | false =>
          obtain ⟨root, retrieved, dict'⟩ := dict.query info id
          exact ⟨_, by rw [SORT.call, retrieved, ok_bind, answer], dict'⟩
      | true =>
          obtain ⟨t', retrieved, dict', -⟩ := dict.enter info id
          exact ⟨_, by rw [SORT.call, retrieved, ok_bind, answer], dict'⟩
  | checkExistence id =>
      exact ⟨t, by rw [SORT.call, dict.checkExistence id, ok_bind, answer], dict⟩
  | deleteVertex id =>
      obtain ⟨t', deleted, dict'⟩ := dict.deleteVertex info id
      exact ⟨t', by rw [SORT.call, deleted, ok_bind, answer], dict'⟩

theorem runCalls (dict : t.Dictionary ws ids) (calls : List (GlobalInfo × Call)) :
    ∃ answers t', t.runCalls calls = .ok (answers, t') ∧
      t'.Dictionary ws (enteredBy ws.sum ids calls) ∧
      ∀ p info c, calls[p]? = some (info, c) →
        answers[p]? = some (answer ws.sum (enteredBy ws.sum ids (calls.take p)) c) := by
  induction calls generalizing t ids with
  | nil => exact ⟨[], t, rfl, dict, by simp⟩
  | cons first calls ih =>
      obtain ⟨info, c⟩ := first
      obtain ⟨t', called, dict'⟩ := dict.call info c
      obtain ⟨answers, final, ran, dict'', each⟩ := ih dict'
      refine ⟨answer ws.sum ids c :: answers, final, ?_, dict'', fun p info' c' at_p => ?_⟩
      · simp only [SORT.runCalls, called, ok_bind, ran]
      · cases p with
        | zero =>
            obtain ⟨rfl, rfl⟩ : info = info' ∧ c = c' := by simpa using at_p
            rfl
        | succ p => simpa [enteredBy] using each p info' c' (by simpa using at_p)

theorem fetch (dict : t.Dictionary ws ids) (info : GlobalInfo) (id : NodeID) :
    t.fetch info id = .ok (record (position ws.sum ids id)) := by
  obtain ⟨root, retrieved, -⟩ := dict.query info id
  rw [SORT.fetch, retrieved, ok_bind]

end Dictionary

/-! ## Ids in range -/

def insertions (calls : List (GlobalInfo × Call)) : List NodeID :=
  calls.filterMap fun
    | (_, .retrieveVertex id true) => some id
    | _ => none

def firstInserted (calls : List (GlobalInfo × Call)) : List NodeID := (insertions calls).eraseDups

theorem insertions_append (calls more : List (GlobalInfo × Call)) :
    insertions (calls ++ more) = insertions calls ++ insertions more := List.filterMap_append

theorem mem_firstInserted {calls : List (GlobalInfo × Call)} {id : NodeID} :
    id ∈ firstInserted calls ↔ ∃ info, (info, .retrieveVertex id true) ∈ calls := by
  rw [firstInserted, List.mem_eraseDups, insertions, List.mem_filterMap]
  constructor
  · rintro ⟨⟨info, c⟩, member, inserted⟩
    match c, inserted with
    | .retrieveVertex _ true, rfl => exact ⟨info, member⟩
  · rintro ⟨info, member⟩
    exact ⟨_, member, rfl⟩

theorem position_none_inRange {B : Nat} {ids : List NodeID} (bounded : ∀ a ∈ ids, a < 2 ^ B)
    {id : NodeID} (inRange : id < 2 ^ B) : position B ids id = none ↔ id ∉ ids := by
  rw [position_eq_none]
  constructor
  · exact fun none member => none id member rfl
  · intro absent other member same
    exact absent (same.eq_of_lt_of_lt (bounded other member) inRange ▸ member)

theorem position_some_inRange {B : Nat} {ids : List NodeID} (bounded : ∀ a ∈ ids, a < 2 ^ B)
    {id : NodeID} (inRange : id < 2 ^ B) {k : Nat} (found : position B ids id = some k) :
    ids[k]? = some id := by
  obtain ⟨other, there, same⟩ := position_lt found
  rwa [← same.eq_of_lt_of_lt (bounded other (List.mem_of_getElem? there)) inRange]

theorem mem_enter {B : Nat} {ids : List NodeID} (bounded : ∀ a ∈ ids, a < 2 ^ B) {id : NodeID} (inRange : id < 2 ^ B)
    (a : NodeID) : a ∈ enter B ids id ↔ a = id ∨ a ∈ ids := by
  rw [enter]
  split
  · rw [List.mem_append, List.mem_singleton, or_comm]
  · rename_i present
    rw [position_none_inRange bounded inRange, not_not] at present
    constructor
    · exact .inr
    · rintro (rfl | there)
      · exact present
      · exact there

theorem firstInserted_inRange {B : Nat} {calls : List (GlobalInfo × Call)}
    (inRange : ∀ c ∈ calls, c.2.id < 2 ^ B) : ∀ a ∈ firstInserted calls, a < 2 ^ B := by
  intro a member
  obtain ⟨info, called⟩ := mem_firstInserted.mp member
  exact inRange _ called

theorem enteredBy_inRange {B : Nat} {calls : List (GlobalInfo × Call)}
    (inRange : ∀ c ∈ calls, c.2.id < 2 ^ B) : enteredBy B [] calls = firstInserted calls := by
  induction calls using List.reverseRecOn with
  | nil => rfl
  | append_singleton calls last ih =>
      have before := fun c member => inRange c (List.mem_append_left [last] member)
      have bounded := firstInserted_inRange before
      rw [enteredBy_append, ih before]
      obtain ⟨info, c⟩ := last
      have here : c.id < 2 ^ B := inRange (info, c) (by simp)
      simp only [enteredBy, List.foldl_cons, List.foldl_nil, firstInserted, insertions_append,
        List.eraseDups_append]
      match c with
      | .retrieveVertex id true =>
          have old : position B (insertions calls).eraseDups id = none ↔ id ∉ insertions calls := by
            have absent : position B (firstInserted calls) id = none ↔ id ∉ firstInserted calls :=
              position_none_inRange bounded here
            rwa [firstInserted, List.mem_eraseDups] at absent
          have new : insertions [(info, .retrieveVertex id true)] = [id] := rfl
          rw [new, entered, enter]
          by_cases member : id ∈ insertions calls
          · rw [if_neg (by simpa [old] using member)]
            simp [List.removeAll, member]
          · rw [if_pos (old.mpr member)]
            simp [List.removeAll, member, List.eraseDups_cons]
      | .retrieveVertex _ false | .checkExistence _ | .deleteVertex _ =>
          simp [entered, insertions]

theorem Dictionary.fetch_call {t t' : SORT W} {ws : List Nat} {ids : List NodeID}
    (dict : t.Dictionary ws ids) {info : GlobalInfo} {c : Call} {a : Answer}
    (reading : ∀ id, c ≠ .retrieveVertex id true) (called : t.call info c = .ok (a, t'))
    (later : GlobalInfo) (id : NodeID) : t'.fetch later id = t.fetch later id := by
  obtain ⟨final, called', dict'⟩ := dict.call info c
  obtain rfl : final = t' := (Prod.mk.inj (Except.ok.inj (called'.symm.trans called))).2
  have same : entered ws.sum ids c = ids := by
    match c with
    | .retrieveVertex _ true => exact absurd rfl (reading _)
    | .retrieveVertex _ false | .checkExistence _ | .deleteVertex _ => rfl
  rw [dict'.fetch, dict.fetch, same]

theorem firstInserted_prefix (calls : List (GlobalInfo × Call)) (p : Nat) :
    firstInserted (calls.take p) <+: firstInserted calls := by
  refine ⟨((insertions (calls.drop p)).removeAll (insertions (calls.take p))).eraseDups, ?_⟩
  rw [firstInserted, firstInserted, ← List.eraseDups_append, ← insertions_append,
    List.take_append_drop]

theorem returned_place {B : Nat} {calls : List (GlobalInfo × Call)}
    (inRange : ∀ c ∈ calls, c.2.id < 2 ^ B) {p : Nat} {info : GlobalInfo} {id : NodeID}
    {insertMode : Bool} (at_p : calls[p]? = some (info, .retrieveVertex id insertMode)) {k : Nat}
    (returned : answer B (enteredBy B [] (calls.take p)) (.retrieveVertex id insertMode) =
      .vertex (Ptr.vertex k)) : (firstInserted calls)[k]? = some id := by
  have here : id < 2 ^ B := inRange _ (List.mem_of_getElem? at_p)
  have reached (q : Nat) (found : position B (enteredBy B [] (calls.take q)) id = some k) :
      (firstInserted calls)[k]? = some id := by
    have taken : ∀ c ∈ calls.take q, c.2.id < 2 ^ B :=
      fun c member => inRange c (List.mem_of_mem_take member)
    rw [enteredBy_inRange taken] at found
    have there := position_some_inRange (firstInserted_inRange taken) here found
    obtain ⟨more, split⟩ := firstInserted_prefix calls q
    rw [← split, List.getElem?_append_left (List.getElem?_eq_some_iff.mp there).1, there]
  have place {r : Option Nat} (same : Answer.vertex (record r) = .vertex (Ptr.vertex k)) :
      r = some k := by
    cases r <;> simp_all [record]
  cases insertMode with
  | false => exact reached p (place returned)
  | true =>
      refine reached (p + 1) ?_
      have next : calls.take (p + 1) = calls.take p ++ [(info, .retrieveVertex id true)] := by
        rw [List.take_add_one, at_p]
        rfl
      rw [next, enteredBy_append]
      exact place returned

def Asked (calls : List (GlobalInfo × Call)) (p : Nat) (c : Call) : Prop :=
  ∃ info, calls[p]? = some (info, c)

def InsertedBefore (calls : List (GlobalInfo × Call)) (p : Nat) (id : NodeID) : Prop :=
  ∃ info, (info, .retrieveVertex id true) ∈ calls.take p

theorem insertedBefore_iff {B : Nat} {calls : List (GlobalInfo × Call)}
    (inRange : ∀ c ∈ calls, c.2.id < 2 ^ B) (p : Nat) {id : NodeID} (here : id < 2 ^ B) :
    InsertedBefore calls p id ↔ (position B (enteredBy B [] (calls.take p)) id).isSome := by
  have taken : ∀ c ∈ calls.take p, c.2.id < 2 ^ B :=
    fun c member => inRange c (List.mem_of_mem_take member)
  rw [InsertedBefore, ← mem_firstInserted, enteredBy_inRange taken, ← not_iff_not, Bool.not_eq_true,
    Option.isSome_eq_false_iff, Option.isNone_iff_eq_none,
    position_none_inRange (firstInserted_inRange taken) here]

/-- The tree of any accepted fanout is a dictionary from ids to records: over every sequence of
calls on ids in range, queries find exactly the ids inserted before, one id keeps one record, which
it shares with no other, and the records lie in `vertex_table` in the order of first insertion. -/
theorem calls_refine_dictionary {t₀ : SORT W} {ws : List Nat} (fresh : Constructed t₀ ws)
    (calls : List (GlobalInfo × Call)) (inRange : ∀ c ∈ calls, c.2.id < 2 ^ ws.sum) :
    ∃ (answers : List Answer) (t : SORT W), t₀.runCalls calls = .ok (answers, t) ∧
      (∀ p id, Asked calls p (.retrieveVertex id false) → ∃ ptr : Ptr,
        answers[p]? = some (.vertex ptr) ∧ (ptr ≠ .empty ↔ InsertedBefore calls p id)) ∧
      (∀ p id, Asked calls p (.checkExistence id) → ∃ b : Bool,
        answers[p]? = some (.flag b) ∧ (b = true ↔ InsertedBefore calls p id)) ∧
      (∀ p id, Asked calls p (.retrieveVertex id true) →
        ∃ k : Nat, answers[p]? = some (.vertex (Ptr.vertex k))) ∧
      (∀ (p q : Nat) (a b : NodeID) (insertMode insertMode' : Bool) (k l : Nat),
        Asked calls p (.retrieveVertex a insertMode) → Asked calls q (.retrieveVertex b insertMode') →
        answers[p]? = some (.vertex (Ptr.vertex k)) → answers[q]? = some (.vertex (Ptr.vertex l)) →
        (k = l ↔ a = b)) ∧
      t.cnt = (firstInserted calls).length ∧
      (∀ (k : Nat) (id : NodeID), (firstInserted calls)[k]? = some id →
        (∃ v, t.vertexTable[k]? = some v ∧ v.idx = (k : Int) ∧ v.node = id) ∧
        ∀ info, t.fetch info id = .ok (Ptr.vertex k)) ∧
      ∀ (info : GlobalInfo) (c : Call), c.id < 2 ^ ws.sum → (∀ id, c ≠ .retrieveVertex id true) →
        ∃ (a : Answer) (t' : SORT W), t.call info c = .ok (a, t') ∧
          ∀ (later : GlobalInfo) (id : NodeID), id < 2 ^ ws.sum →
            t'.fetch later id = t.fetch later id := by
  obtain ⟨answers, t, ran, dict, each⟩ := fresh.dictionary.runCalls calls
  rw [enteredBy_inRange inRange] at dict
  refine ⟨answers, t, ran, ?_, ?_, ?_, ?_, dict.cnt, fun k id here => ⟨?_, fun info => ?_⟩,
    fun info c _ reading => ?_⟩
  · rintro p id ⟨info, at_p⟩
    have here : id < 2 ^ ws.sum := inRange _ (List.mem_of_getElem? at_p)
    refine ⟨_, each p info _ at_p, ?_⟩
    rw [insertedBefore_iff inRange p here, ← Option.not_isNone, ← record_isNull, ne_eq,
      ← Ptr.isNull_iff]
    simp
  · rintro p id ⟨info, at_p⟩
    have here : id < 2 ^ ws.sum := inRange _ (List.mem_of_getElem? at_p)
    exact ⟨_, each p info _ at_p, (insertedBefore_iff inRange p here).symm⟩
  · rintro p id ⟨info, at_p⟩
    have answered := each p info _ at_p
    rw [answer, position_enter_self] at answered
    cases found : position ws.sum (enteredBy ws.sum [] (calls.take p)) id with
    | none => exact ⟨_, by simpa [found, record] using answered⟩
    | some k => exact ⟨k, by simpa [found, record] using answered⟩
  · rintro p q a b insertMode insertMode' k l ⟨info, at_p⟩ ⟨info', at_q⟩ at_k at_l
    rw [each p info _ at_p, Option.some.injEq] at at_k
    rw [each q info' _ at_q, Option.some.injEq] at at_l
    have first := returned_place inRange at_p at_k
    have second := returned_place inRange at_q at_l
    constructor
    · rintro rfl
      exact Option.some.inj (first.symm.trans second)
    · rintro rfl
      exact Option.some.inj ((dict.position_self first).symm.trans (dict.position_self second))
  · obtain ⟨v, at_k, node, idx⟩ := dict.vertexAt here
    exact ⟨v, at_k, idx, node⟩
  · rw [dict.fetch, dict.position_self here, record]
  · obtain ⟨t', called, -⟩ := dict.call info c
    exact ⟨_, t', called, fun later id _ => dict.fetch_call reading called later id⟩

theorem calls_refine_dictionary_two_ids : ∃ (answers : List Answer) (t : SORT Nat),
    (ofVector [2, 0, 3]).runCalls [(⟨0, true⟩, .retrieveVertex 9 true),
      (⟨0, true⟩, .retrieveVertex 1 true), (⟨0, true⟩, .deleteVertex 9)] = .ok (answers, t) ∧
    t.cnt = 2 := by
  obtain ⟨answers, t, ran, -, -, -, -, cnt, -⟩ := calls_refine_dictionary (W := Nat)
    (show Constructed (ofVector [2, 0, 3]) [2, 3] from .vector (by decide))
    [(⟨0, true⟩, .retrieveVertex 9 true), (⟨0, true⟩, .retrieveVertex 1 true),
      (⟨0, true⟩, .deleteVertex 9)] (by decide)
  exact ⟨answers, t, ran, cnt⟩

end SORT

end Radix
