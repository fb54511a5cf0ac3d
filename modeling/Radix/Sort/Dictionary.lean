import Radix.Sort.Model

/-!
# The tree as a dictionary

Retrieval and insertion walk the digits of the id. Ids count modulo `2 ^ B`, where `B` is the sum of
the fanout bits: higher bits are masked off at the root and leaves are not compared with the id.
-/

namespace Radix

open Lib

variable {W : Type} [Zero W]

namespace SORT

structure Shaped (t : SORT W) (ws : List Nat) : Prop where
  numBits : t.numBits = ws
  sumBits : t.sumBits = sums 0 ws
  depth : t.depth = ws.length

theorem ofFanout_shaped (ws : List Nat) : (ofFanout ws : SORT W).Shaped ws := ⟨rfl, rfl, rfl⟩

theorem sums_getD (before : Nat) (ws : List Nat) {i : Nat} (inside : i < ws.length) :
    (sums before ws).getD i 0 = before + (ws.take (i + 1)).sum := by
  induction ws generalizing before i with
  | nil => simp at inside
  | cons w ws ih => cases i with
    | zero => simp [sums]
    | succ i =>
        have := ih (before + w) (i := i) (by simpa using inside)
        simp only [sums, List.getD_cons_succ, List.take_succ_cons, List.sum_cons] at this ⊢
        omega

theorem sumBefore_eq (before after : List Nat) :
    sumBefore (sums 0 (before ++ after)) before.length = before.sum := by
  cases before.eq_nil_or_concat' with
  | inl none => simp [none, sumBefore]
  | inr some =>
      obtain ⟨before, w, rfl⟩ := some
      rw [sumBefore, if_pos (by simp), sums_getD _ _ (by simp)]
      simp

theorem digitOf_eq (before : List Nat) (w : Nat) (rest : List Nat) (id : Nat) :
    digitOf (sums 0 (before ++ w :: rest)) (before ++ w :: rest).length id before.length =
      id / 2 ^ rest.sum % 2 ^ w := by
  have all : (sums 0 (before ++ w :: rest)).getD ((before ++ w :: rest).length - 1) 0 =
      before.sum + (w + rest.sum) := by
    rw [sums_getD _ _ (by simp), Nat.sub_add_cancel (by simp; omega), List.take_length]
    simp
  have here : (sums 0 (before ++ w :: rest)).getD before.length 0 = before.sum + w := by
    rw [sums_getD _ _ (by simp)]
    simp [List.take_append, List.take_of_length_le]
  rw [digitOf, all, here, sumBefore_eq, Nat.and_two_pow_sub_one_eq_mod, Nat.shiftRight_eq_div_pow,
    show before.sum + (w + rest.sum) - before.sum = rest.sum + w by omega,
    show before.sum + (w + rest.sum) - (before.sum + w) = rest.sum by omega, Nat.pow_add,
    Nat.mod_mul_right_div_self]

theorem Shaped.level {t : SORT W} {before : List Nat} {w : Nat} {rest : List Nat}
    (shaped : t.Shaped (before ++ w :: rest)) (id : Nat) :
    t.depth - (rest.length + 1) = before.length ∧ t.numBits.getD before.length 0 = w ∧
      t.digit id before.length = id / 2 ^ rest.sum % 2 ^ w := by
  refine ⟨by simp [shaped.depth], by simp [shaped.numBits], ?_⟩
  rw [digit, shaped.sumBits, shaped.depth, digitOf_eq]

theorem child_digit (c : Nat → Ptr) (id w : Nat) (rest : List Nat) :
    Ptr.child (.node c) w (id / 2 ^ rest.sum % 2 ^ w) = .ok (c (id / 2 ^ rest.sum % 2 ^ w)) :=
  if_pos (Nat.mod_lt _ (Nat.two_pow_pos w))

theorem newVertex_shaped {t : SORT W} {ws : List Nat} (shaped : t.Shaped ws) (info : GlobalInfo)
    (id : NodeID) : (t.newVertex info id).Shaped ws := ⟨shaped.numBits, shaped.sumBits, shaped.depth⟩

/-! ## One call -/

theorem insertVertex_spec (info : GlobalInfo) (id : NodeID) {t : SORT W} {before : List Nat}
    {w : Nat} {rest : List Nat} (shaped : t.Shaped (before ++ w :: rest)) {c : Nat → Ptr}
    (missing : c (id / 2 ^ rest.sum % 2 ^ w) = .empty) :
    insertVertex info id (rest.length + 1) t (.node c) =
      .ok (Ptr.vertex t.vertexTable.length,
        Trie.put (Ptr.vertex t.vertexTable.length) (cut (w :: rest) id) (.node c),
        t.newVertex info id) := by
  induction rest generalizing before w c with
  | nil =>
      obtain ⟨level, bits, digit⟩ := shaped.level id
      rw [insertVertex, level, bits, digit, child_digit, ok_bind, missing]
      simp [Ptr.setChild]
  | cons w' rest ih =>
      obtain ⟨level, bits, digit⟩ := shaped.level id
      have deeper : t.Shaped ((before ++ [w]) ++ w' :: rest) := by simpa using shaped
      have below := ih deeper (c := fun _ => .empty) rfl
      rw [insertVertex, level, bits, digit, child_digit, ok_bind, missing]
      simp only [List.length_cons, ne_eq, Nat.add_eq_zero_iff, one_ne_zero, and_false,
        not_false_eq_true, if_true, Ptr.isNull_empty, Ptr.newNode, Trie.bare, below, ok_bind]
      rw [cut_cons w (w' :: rest), Trie.put_node, missing, cut_cons, Trie.put_empty]
      rfl

theorem retrieveFrom_spec (info : GlobalInfo) (id : NodeID) (insertMode : Bool) {t : SORT W}
    (before : List Nat) {w : Nat} {rest : List Nat} (shaped : t.Shaped (before ++ w :: rest))
    {c : Nat → Ptr} (fits : Trie.Fits (rest.length + 1) (.node c)) :
    retrieveFrom info id insertMode (rest.length + 1) t (.node c) =
      .ok (if insertMode ∧ Ptr.isNull (Trie.find (.node c) (cut (w :: rest) id)) then
          (Ptr.vertex t.vertexTable.length,
            Trie.put (Ptr.vertex t.vertexTable.length) (cut (w :: rest) id) (.node c),
            t.newVertex info id)
        else (Trie.find (.node c) (cut (w :: rest) id), .node c, t)) := by
  induction rest generalizing before w c with
  | nil =>
      obtain ⟨level, bits, digit⟩ := shaped.level id
      have inserted := insertVertex_spec info id shaped (c := c)
      rw [retrieveFrom, level, bits, digit, child_digit, ok_bind, cut_cons, cut_nil, Trie.find_node,
        Trie.find_nil]
      rw [cut_cons, cut_nil] at inserted
      generalize id / 2 ^ [].sum % 2 ^ w = d at inserted ⊢
      by_cases null : Ptr.isNull (c d)
      · rw [if_pos null, inserted (Ptr.isNull_iff.mp null)]
        cases insertMode <;> simp [Ptr.isNull_iff.mp null]
      · simp [null]
  | cons w' rest ih =>
      obtain ⟨level, bits, digit⟩ := shaped.level id
      have inserted := insertVertex_spec info id shaped (c := c)
      rw [retrieveFrom, level, bits, digit, child_digit, ok_bind, cut_cons w (w' :: rest),
        Trie.find_node]
      rw [cut_cons w (w' :: rest)] at inserted
      generalize id / 2 ^ (w' :: rest).sum % 2 ^ w = d at inserted ⊢
      rcases (fits d).cases_succ with none | ⟨c', node, below⟩
      · rw [none, Ptr.isNull_empty, if_pos rfl, Trie.find_empty, inserted none]
        cases insertMode <;> simp
      · have deeper : t.Shaped ((before ++ [w]) ++ w' :: rest) := by simpa using shaped
        have walked := ih _ deeper below
        rw [node, Ptr.isNull_node, if_neg (by simp), if_neg (by simp), List.length_cons, walked, ok_bind]
        by_cases absent : insertMode ∧ Ptr.isNull (Trie.find (.node c') (cut (w' :: rest) id))
        · simp only [if_pos absent, Ptr.setChild, Trie.put_node, node]
        · have unchanged : Function.update c d (.node c') = c := by
            rw [← node, Function.update_eq_self]
          simp only [if_neg absent, Ptr.setChild, unchanged]

theorem existsFrom_spec {t : SORT W} (before : List Nat) {w : Nat} {rest : List Nat}
    (shaped : t.Shaped (before ++ w :: rest)) {c : Nat → Ptr}
    (fits : Trie.Fits (rest.length + 1) (.node c)) (id : NodeID) :
    existsFrom t id (rest.length + 1) (.node c) =
      .ok (!Ptr.isNull (Trie.find (.node c) (cut (w :: rest) id))) := by
  induction rest generalizing before w c with
  | nil =>
      obtain ⟨level, bits, digit⟩ := shaped.level id
      rw [existsFrom, level, bits, digit, child_digit, ok_bind, cut_cons, cut_nil, Trie.find_node,
        Trie.find_nil]
      cases Ptr.isNull (c (id / 2 ^ [].sum % 2 ^ w)) <;> simp
  | cons w' rest ih =>
      obtain ⟨level, bits, digit⟩ := shaped.level id
      rw [existsFrom, level, bits, digit, child_digit, ok_bind, cut_cons w (w' :: rest),
        Trie.find_node]
      rcases (fits (id / 2 ^ (w' :: rest).sum % 2 ^ w)).cases_succ with none | ⟨c', node, below⟩
      · simp only [none, Ptr.isNull_empty, if_true, Trie.find_empty, Bool.not_true]
      · have deeper : t.Shaped ((before ++ [w]) ++ w' :: rest) := by simpa using shaped
        have walked := ih _ deeper below
        rw [node, Ptr.isNull_node, if_neg (by simp), if_neg (by simp), List.length_cons, walked]

/-! ## The dictionary -/

/-- The record of an id: the place of the first inserted id with the same low bits. -/
def position (B : Nat) (ids : List NodeID) (id : NodeID) : Option Nat :=
  ids.findIdx? fun other => other % 2 ^ B = id % 2 ^ B

/-- The inserted ids after one more insertion, in the order of their first insertion. -/
def enter (B : Nat) (ids : List NodeID) (id : NodeID) : List NodeID :=
  if position B ids id = none then ids ++ [id] else ids

def record : Option Nat → Ptr
  | none => .empty
  | some k => .vertex k

structure Dictionary (t : SORT W) (ws : List Nat) (ids : List NodeID) : Prop where
  shaped : t.Shaped ws
  levels : ws ≠ []
  root : t.root = .empty ∧ ids = [] ∨ t.root.Rooted ws
  found : ∀ id, t.root.find (cut ws id) = record (position ws.sum ids id)
  distinct : (ids.map (· % 2 ^ ws.sum)).Nodup
  cnt : t.cnt = ids.length
  table : t.vertexTable.map (fun v => (v.node, v.idx)) = ids.mapIdx fun k id => (id, (k : Int))

@[simp] theorem position_nil (B : Nat) (id : NodeID) : position B [] id = none := rfl

theorem position_eq_none {B : Nat} {ids : List NodeID} {id : NodeID} :
    position B ids id = none ↔ ∀ other ∈ ids, ¬ other ≡ id [MOD 2 ^ B] := by
  simp [position, Nat.ModEq]

theorem position_congr {B : Nat} {a b : NodeID} (same : a ≡ b [MOD 2 ^ B]) (ids : List NodeID) :
    position B ids a = position B ids b := by
  rw [position, position, show a % 2 ^ B = b % 2 ^ B from same]

theorem position_snoc (B : Nat) (ids : List NodeID) (new id : NodeID) :
    position B (ids ++ [new]) id = (position B ids id).or
      (if new ≡ id [MOD 2 ^ B] then some ids.length else none) := by
  rw [position, List.findIdx?_append, position]
  by_cases same : new % 2 ^ B = id % 2 ^ B <;> simp [Nat.ModEq, same, List.findIdx?_cons]

theorem position_lt {B : Nat} {ids : List NodeID} {id : NodeID} {k : Nat}
    (found : position B ids id = some k) : ∃ other, ids[k]? = some other ∧ other ≡ id [MOD 2 ^ B] := by
  obtain ⟨inside, same, -⟩ := List.findIdx?_eq_some_iff_getElem.mp found
  exact ⟨ids[k], List.getElem?_eq_getElem inside, by simpa [Nat.ModEq] using same⟩

theorem position_isLt {B : Nat} {ids : List NodeID} {id : NodeID} {k : Nat}
    (found : position B ids id = some k) : k < ids.length := by
  obtain ⟨other, here, -⟩ := position_lt found
  exact (List.getElem?_eq_some_iff.mp here).1

theorem position_enter (B : Nat) (ids : List NodeID) (new id : NodeID) :
    position B (enter B ids new) id = (position B ids id).or
      (if position B ids new = none ∧ new ≡ id [MOD 2 ^ B] then some ids.length else none) := by
  rw [enter]
  by_cases absent : position B ids new = none
  · rw [if_pos absent, position_snoc]
    simp [absent]
  · simp [absent]

theorem position_enter_self (B : Nat) (ids : List NodeID) (id : NodeID) :
    position B (enter B ids id) id =
      if position B ids id = none then some ids.length else position B ids id := by
  rw [position_enter]
  by_cases absent : position B ids id = none
  · simp [absent, Nat.ModEq]
  · simp [absent]

theorem enter_distinct {B : Nat} {ids : List NodeID} (distinct : (ids.map (· % 2 ^ B)).Nodup)
    (id : NodeID) : ((enter B ids id).map (· % 2 ^ B)).Nodup := by
  rw [enter]
  split
  · rename_i absent
    rw [List.map_append, List.nodup_append]
    refine ⟨distinct, by simp, ?_⟩
    simpa [Nat.ModEq] using position_eq_none.mp absent
  · exact distinct

theorem record_isNull (r : Option Nat) : Ptr.isNull (record r) = r.isNone := by cases r <;> rfl

theorem record_eq_empty {r : Option Nat} : record r = .empty ↔ r = none := by cases r <;> simp [record]

theorem ofFanout_dictionary {ws : List Nat} (levels : ws ≠ []) :
    (ofFanout ws : SORT W).Dictionary ws [] :=
  ⟨ofFanout_shaped ws, levels, .inl ⟨rfl, rfl⟩, fun id => by simp [ofFanout, record], by simp, rfl, rfl⟩

namespace Dictionary

variable {t : SORT W} {ws : List Nat} {ids : List NodeID}

theorem length (dict : t.Dictionary ws ids) : t.vertexTable.length = ids.length := by
  simpa using congrArg List.length dict.table

theorem vertexAt (dict : t.Dictionary ws ids) {k : Nat} {id : NodeID} (here : ids[k]? = some id) :
    ∃ v, t.vertexTable[k]? = some v ∧ v.node = id ∧ v.idx = k := by
  have entry := congrArg (·[k]?) dict.table
  simpa [here] using entry

theorem position_self (dict : t.Dictionary ws ids) {k : Nat} {id : NodeID} (here : ids[k]? = some id) :
    position ws.sum ids id = some k := by
  cases found : position ws.sum ids id with
  | none => exact absurd rfl (position_eq_none.mp found id (List.mem_of_getElem? here))
  | some j =>
      obtain ⟨other, there, same⟩ := position_lt found
      have inside := (List.getElem?_eq_some_iff.mp there).1
      refine congrArg some ((List.getElem?_inj (by simpa using inside) dict.distinct).mp ?_)
      simp only [List.getElem?_map, here, there, Option.map_some]
      exact congrArg some same

theorem ensureRoot (dict : t.Dictionary ws ids) :
    ∃ root, t.ensureRoot = .ok { t with root := root } ∧ root.Rooted ws ∧
      { t with root := root }.Dictionary ws ids := by
  rcases dict.root with ⟨null, rfl⟩ | rooted
  · obtain ⟨w, rest, rfl⟩ := List.exists_cons_of_ne_nil dict.levels
    have rooted : Ptr.newNode.Rooted (w :: rest) := Trie.bare_rooted w rest
    refine ⟨Ptr.newNode, ?_, rooted, ⟨dict.shaped.1, dict.shaped.2, dict.shaped.3⟩, dict.levels,
      .inr rooted, fun id => by simp [Trie.bare, record], dict.distinct, dict.cnt, dict.table⟩
    simp [SORT.ensureRoot, null, dict.shaped.numBits]
  · obtain ⟨w, rest, rfl⟩ := List.exists_cons_of_ne_nil dict.levels
    refine ⟨t.root, ?_, rooted, dict⟩
    obtain ⟨c, node, -⟩ := rooted
    rw [SORT.ensureRoot, node, Ptr.isNull_node, if_neg (by simp), ← node]

theorem query_rooted (dict : t.Dictionary ws ids) (info : GlobalInfo) (id : NodeID) :
    ∃ root, t.retrieveVertex info id false =
        .ok (record (position ws.sum ids id), { t with root := root }) ∧
      { t with root := root }.Dictionary ws ids ∧ root.Rooted ws := by
  obtain ⟨root, made, rooted, dict'⟩ := dict.ensureRoot
  obtain ⟨w, rest, rfl⟩ := List.exists_cons_of_ne_nil dict.levels
  obtain ⟨c, rfl⟩ := rooted.node
  have retrieved := retrieveFrom_spec info id false (t := { t with root := .node c }) [] dict'.shaped
    rooted.fits
  rw [show rest.length + 1 = t.depth from dict.shaped.depth.symm] at retrieved
  refine ⟨_, ?_, dict', rooted⟩
  rw [retrieveVertex, made, ok_bind, retrieved, ok_bind, if_neg (by simp)]
  exact congrArg (fun ptr => Except.ok (ptr, _)) (dict'.found id)

theorem query (dict : t.Dictionary ws ids) (info : GlobalInfo) (id : NodeID) :
    ∃ root, t.retrieveVertex info id false =
        .ok (record (position ws.sum ids id), { t with root := root }) ∧
      { t with root := root }.Dictionary ws ids := by
  obtain ⟨root, retrieved, dict', -⟩ := dict.query_rooted info id
  exact ⟨root, retrieved, dict'⟩

theorem enter (dict : t.Dictionary ws ids) (info : GlobalInfo) (id : NodeID) :
    ∃ t', t.retrieveVertex info id true =
        .ok (record (position ws.sum (enter ws.sum ids id) id), t') ∧
      t'.Dictionary ws (SORT.enter ws.sum ids id) ∧
      t'.vertexTable = if position ws.sum ids id = none then
        t.vertexTable ++ [{ node := id, idx := ids.length, next := [newArray info] }]
      else t.vertexTable := by
  obtain ⟨root, made, rooted, dict'⟩ := dict.ensureRoot
  obtain ⟨w, rest, rfl⟩ := List.exists_cons_of_ne_nil dict.levels
  obtain ⟨c, rfl⟩ := rooted.node
  have retrieved := retrieveFrom_spec info id true (t := { t with root := .node c }) [] dict'.shaped
    rooted.fits
  rw [show rest.length + 1 = t.depth from dict.shaped.depth.symm] at retrieved
  have found : Trie.find (.node c) (cut (w :: rest) id) = record (position (w :: rest).sum ids id) :=
    dict'.found id
  rw [retrieveVertex, made, ok_bind, retrieved, ok_bind, found, position_enter_self, record_isNull,
    SORT.enter]
  by_cases absent : position (w :: rest).sum ids id = none
  · simp only [absent, Option.isNone_none, and_self, if_true]
    refine ⟨_, congrArg (fun k => Except.ok (Ptr.vertex k, _)) dict.length, ?_, by simp [newVertex, dict.cnt]⟩
    have distinct := enter_distinct dict.distinct id
    rw [SORT.enter, if_pos absent] at distinct
    refine ⟨⟨dict.shaped.1, dict.shaped.2, dict.shaped.3⟩, dict.levels,
      .inr (Trie.put_rooted _ (cut_fit _ id) rooted), fun other => ?_, distinct, ?_, ?_⟩
    · rw [position_snoc]
      by_cases same : id ≡ other [MOD 2 ^ (w :: rest).sum]
      · rw [← (cut_eq_iff _ id other).mpr same, Trie.find_put_same, ← position_congr same ids, absent]
        rw [if_pos same, Option.none_or]
        exact congrArg Ptr.vertex dict.length
      · rw [Trie.find_put_other _ (by simp) (fun equal => same ((cut_eq_iff _ _ _).mp equal.symm))
          (by simpa using rooted.fits), dict'.found other]
        rw [if_neg same, Option.or_none]
    · simp [newVertex, dict.cnt]
    · simp [newVertex, dict.table, dict.cnt, List.mapIdx_append]
  · obtain ⟨k, there⟩ := Option.ne_none_iff_exists'.mp absent
    simp only [there, Option.isNone_some, Bool.false_eq_true, and_false, if_false, reduceCtorEq]
    exact ⟨_, rfl, dict', rfl⟩

theorem checkExistence (dict : t.Dictionary ws ids) (id : NodeID) :
    t.checkExistence id = .ok (position ws.sum ids id).isSome := by
  rcases dict.root with ⟨null, rfl⟩ | rooted
  · simp [SORT.checkExistence, null]
  · obtain ⟨w, rest, rfl⟩ := List.exists_cons_of_ne_nil dict.levels
    obtain ⟨c, node⟩ := rooted.node
    have walked := existsFrom_spec [] dict.shaped (c := c) (node ▸ rooted.fits) id
    rw [SORT.checkExistence, node, Ptr.isNull_node, if_neg (by simp), dict.shaped.depth,
      List.length_cons, walked, ← node, dict.found, record_isNull, Option.not_isNone]

theorem setVertex (dict : t.Dictionary ws ids) {k : Nat} {v v' : Vertex W}
    (here : t.vertexTable[k]? = some v) (node : v'.node = v.node) (idx : v'.idx = v.idx) :
    (t.setVertex k v').Dictionary ws ids := by
  refine ⟨⟨dict.shaped.1, dict.shaped.2, dict.shaped.3⟩, dict.levels, dict.root, dict.found,
    dict.distinct, dict.cnt, ?_⟩
  obtain ⟨inside, rfl⟩ := List.getElem?_eq_some_iff.mp here
  have inside' : k < (t.vertexTable.map fun v => (v.node, v.idx)).length := by simpa using inside
  have unchanged := List.set_getElem_self inside'
  rw [← dict.table, SORT.setVertex, List.map_set, node, idx]
  simpa using unchanged

theorem deleteVertex (dict : t.Dictionary ws ids) (info : GlobalInfo) (id : NodeID) :
    ∃ t', t.deleteVertex info id = .ok ((position ws.sum ids id).isSome, t') ∧
      t'.Dictionary ws ids := by
  obtain ⟨root, retrieved, dict'⟩ := dict.query info id
  rw [SORT.deleteVertex, retrieved, ok_bind]
  cases found : position ws.sum ids id with
  | none => exact ⟨_, rfl, dict'⟩
  | some k =>
      obtain ⟨other, here, -⟩ := position_lt found
      obtain ⟨v, at_k, -, -⟩ := dict'.vertexAt here
      let v' := { v with delTime := info.globalTimestamp }
      refine ⟨_, ?_, dict'.setVertex at_k (show v'.node = v.node from rfl) rfl⟩
      simp [record, SORT.vertexAt, at_k, v']

end Dictionary

end SORT

end Radix
