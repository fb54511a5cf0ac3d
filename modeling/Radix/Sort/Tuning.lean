import Radix.Lib.Agreement
import Radix.Sort.Transform

/-!
# Calls between transforms

`Transform` may be called again and again as the tree grows. A call with a vertex set spoils the slot of the id 0 for
good: the pointer to the old root is put there. The answers for all other ids stay those of a tree that is never
transformed.
-/

namespace Radix

open Lib

variable {W : Type} [Zero W]

namespace SORT

def Safe (spoiled : Bool) (B : Nat) (id : NodeID) : Prop := spoiled = true → ¬ id ≡ 0 [MOD 2 ^ B]

structure Keeps (t : SORT W) (ws : List Nat) (ids : List NodeID) (spoiled : Bool) : Prop where
  shaped : t.Shaped ws
  levels : ws ≠ []
  root : t.root = .empty ∧ ids = [] ∨ ∃ c, t.root = .node c
  fits : t.root.Fits ws.length
  found : ∀ id, Safe spoiled ws.sum id → t.root.find (cut ws id) = record (position ws.sum ids id)
  zero : spoiled = true → t.root.find (cut ws 0) ≠ .empty
  rooted : spoiled = false → t.root ≠ .empty → t.root.Rooted ws
  distinct : (ids.map (· % 2 ^ ws.sum)).Nodup
  cnt : t.cnt = ids.length
  table : t.vertexTable.map (fun v => (v.node, v.idx)) = ids.mapIdx fun k id => (id, (k : Int))

theorem Dictionary.keeps {t : SORT W} {ws : List Nat} {ids : List NodeID} (dict : t.Dictionary ws ids) :
    t.Keeps ws ids false where
  shaped := dict.shaped
  levels := dict.levels
  root := dict.root.imp_right fun rooted => rooted.isNode dict.levels
  fits := by
    obtain ⟨null, -⟩ | rooted := dict.root
    · rw [null]
      exact Trie.fits_empty _
    · exact rooted.fits
  found id _ := dict.found id
  zero impossible := by cases impossible
  rooted _ made := dict.root.resolve_left fun none => made none.1
  distinct := dict.distinct
  cnt := dict.cnt
  table := dict.table

theorem Keeps.dictionary {t : SORT W} {ws : List Nat} {ids : List NodeID} (keeps : t.Keeps ws ids false) :
    t.Dictionary ws ids where
  shaped := keeps.shaped
  levels := keeps.levels
  root := by
    apply keeps.root.imp_right
    rintro ⟨c, node⟩
    exact keeps.rooted rfl (node ▸ Trie.node_ne_empty c)
  found id := keeps.found id Bool.noConfusion
  distinct := keeps.distinct
  cnt := keeps.cnt
  table := keeps.table

namespace Keeps

variable {t : SORT W} {ws : List Nat} {ids : List NodeID} {spoiled : Bool}

theorem length (keeps : t.Keeps ws ids spoiled) : t.vertexTable.length = ids.length := by
  simpa using congrArg List.length keeps.table

theorem ensureRoot (keeps : t.Keeps ws ids spoiled) : ∃ c, t.ensureRoot = .ok { t with root := .node c } ∧
    { t with root := .node c }.Keeps ws ids spoiled := by
  obtain ⟨null, rfl⟩ | ⟨c, node⟩ := keeps.root
  · refine ⟨fun _ => .empty, ?_, ?_⟩
    · simp [SORT.ensureRoot, null, keeps.shaped.numBits, keeps.levels, Ptr.newNode, Trie.bare]
    · obtain ⟨w, rest, rfl⟩ := List.exists_cons_of_ne_nil keeps.levels
      refine ⟨⟨keeps.shaped.1, keeps.shaped.2, keeps.shaped.3⟩, keeps.levels, .inr ⟨_, rfl⟩, fun _ => ?_, fun id _ => ?_,
        fun taken => ?_, fun _ _ => Trie.bare_rooted w rest, keeps.distinct, keeps.cnt, keeps.table⟩
      · exact Trie.fits_empty _
      · rw [cut_cons, Trie.find_node, Trie.find_empty]
        rfl
      · have nothing := keeps.zero taken
        rw [null, Trie.find_empty] at nothing
        exact absurd rfl nothing
  · refine ⟨c, ?_, ?_⟩
    · rw [SORT.ensureRoot, node, Ptr.isNull_node, if_neg (by simp), ← node]
    · rw [← node]
      exact keeps

theorem query (keeps : t.Keeps ws ids spoiled) (info : GlobalInfo) {id : NodeID} (safe : Safe spoiled ws.sum id) :
    ∃ c, t.retrieveVertex info id false = .ok (record (position ws.sum ids id), { t with root := .node c }) ∧
      { t with root := .node c }.Keeps ws ids spoiled := by
  obtain ⟨c, made, keeps'⟩ := keeps.ensureRoot
  obtain ⟨w, rest, rfl⟩ := List.exists_cons_of_ne_nil keeps.levels
  have retrieved := retrieveFrom_spec info id false (t := { t with root := .node c }) [] keeps'.shaped keeps'.fits
  rw [show rest.length + 1 = t.depth from keeps.shaped.depth.symm] at retrieved
  refine ⟨c, ?_, keeps'⟩
  rw [retrieveVertex, made, ok_bind, retrieved, ok_bind, if_neg (by simp)]
  exact congrArg (fun ptr => Except.ok (ptr, _)) (keeps'.found id safe)

theorem enter (keeps : t.Keeps ws ids spoiled) (info : GlobalInfo) {id : NodeID} (safe : Safe spoiled ws.sum id) :
    ∃ t', t.retrieveVertex info id true = .ok (record (position ws.sum (enter ws.sum ids id) id), t') ∧
      t'.Keeps ws (SORT.enter ws.sum ids id) spoiled ∧ (∃ c, t'.root = .node c) ∧
      t'.vertexTable = if position ws.sum ids id = none then
        t.vertexTable ++ [{ node := id, idx := ids.length, next := [newArray info] }] else t.vertexTable := by
  obtain ⟨c, made, keeps'⟩ := keeps.ensureRoot
  obtain ⟨w, rest, rfl⟩ := List.exists_cons_of_ne_nil keeps.levels
  have retrieved := retrieveFrom_spec info id true (t := { t with root := .node c }) [] keeps'.shaped keeps'.fits
  rw [show rest.length + 1 = t.depth from keeps.shaped.depth.symm] at retrieved
  have found : Trie.find (.node c) (cut (w :: rest) id) = record (position (w :: rest).sum ids id) :=
    keeps'.found id safe
  rw [retrieveVertex, made, ok_bind, retrieved, ok_bind, found, position_enter_self, record_isNull, SORT.enter]
  by_cases absent : position (w :: rest).sum ids id = none
  · simp only [absent, Option.isNone_none, and_self, if_true]
    refine ⟨_, congrArg (fun k => Except.ok (Ptr.vertex k, _)) keeps.length, ?_, ⟨_, by rw [cut_cons, Trie.put_node]⟩,
      by simp [newVertex, keeps.cnt]⟩
    have distinct := enter_distinct keeps.distinct id
    rw [SORT.enter, if_pos absent] at distinct
    have other {es : List Nat} (different : es ≠ cut (w :: rest) id) (long : es.length = (w :: rest).length) :
        Trie.find (Trie.put (Ptr.vertex t.vertexTable.length) (cut (w :: rest) id) (.node c)) es =
          Trie.find (.node c) es :=
      Trie.find_put_other _ (by rw [long, cut_length]) different (by rw [cut_length]; exact keeps'.fits)
    refine ⟨⟨keeps.shaped.1, keeps.shaped.2, keeps.shaped.3⟩, keeps.levels, .inr ⟨_, by rw [cut_cons, Trie.put_node]⟩, ?_,
      fun a safe' => ?_, fun taken => ?_, fun clean _ => ?_, distinct, ?_, ?_⟩
    · have fits := Trie.put_fits (Ptr.vertex t.vertexTable.length) (cut (w :: rest) id) (t := .node c)
        (by rw [cut_length]; exact keeps'.fits)
      rwa [cut_length] at fits
    · rw [position_snoc]
      by_cases same : id ≡ a [MOD 2 ^ (w :: rest).sum]
      · rw [← (cut_eq_iff _ id a).mpr same, Trie.find_put_same, ← position_congr same ids, absent, if_pos same,
          Option.none_or]
        exact congrArg Ptr.vertex keeps.length
      · have apart : cut (w :: rest) a ≠ cut (w :: rest) id := fun equal => same ((cut_eq_iff _ _ _).mp equal.symm)
        rw [if_neg same, Option.or_none, ← keeps'.found a safe']
        exact other apart (cut_length _ a)
    · have apart : cut (w :: rest) 0 ≠ cut (w :: rest) id := fun equal => safe taken ((cut_eq_iff _ _ _).mp equal.symm)
      have stored := keeps'.zero taken
      rw [← other apart (cut_length _ 0)] at stored
      exact stored
    · exact Trie.put_rooted _ (cut_fit _ id) (keeps'.rooted clean (Trie.node_ne_empty c))
    · simp [newVertex, keeps.cnt]
    · simp [newVertex, keeps.table, keeps.cnt, List.mapIdx_append]
  · obtain ⟨k, there⟩ := Option.ne_none_iff_exists'.mp absent
    simp only [there, Option.isNone_some, Bool.false_eq_true, and_false, if_false, reduceCtorEq]
    exact ⟨_, rfl, keeps', ⟨c, rfl⟩, rfl⟩

theorem checkExistence (keeps : t.Keeps ws ids spoiled) {id : NodeID} (safe : Safe spoiled ws.sum id) :
    t.checkExistence id = .ok (position ws.sum ids id).isSome := by
  obtain ⟨null, rfl⟩ | ⟨c, node⟩ := keeps.root
  · rw [SORT.checkExistence, null]
    rfl
  · obtain ⟨w, rest, rfl⟩ := List.exists_cons_of_ne_nil keeps.levels
    have fits := keeps.fits
    rw [node] at fits
    have walked := existsFrom_spec [] keeps.shaped fits id
    rw [SORT.checkExistence, node, Ptr.isNull_node, if_neg (by simp), keeps.shaped.depth, List.length_cons, walked,
      ← node, keeps.found id safe, record_isNull, Option.not_isNone]

theorem setVertex (keeps : t.Keeps ws ids spoiled) {k : Nat} {v v' : Vertex W} (here : t.vertexTable[k]? = some v)
    (node : v'.node = v.node) (idx : v'.idx = v.idx) : (t.setVertex k v').Keeps ws ids spoiled := by
  refine ⟨⟨keeps.shaped.1, keeps.shaped.2, keeps.shaped.3⟩, keeps.levels, keeps.root, keeps.fits, keeps.found, keeps.zero,
    keeps.rooted, keeps.distinct, keeps.cnt, ?_⟩
  obtain ⟨inside, rfl⟩ := List.getElem?_eq_some_iff.mp here
  have inside' : k < (t.vertexTable.map fun v => (v.node, v.idx)).length := by rwa [List.length_map]
  have unchanged := List.set_getElem_self inside'
  rw [← keeps.table, SORT.setVertex, List.map_set, node, idx]
  simpa using unchanged

/-! ## Transform -/

theorem stored (keeps : t.Keeps ws ids spoiled) {id : NodeID} (known : position ws.sum ids id ≠ none) :
    t.root.find (cut ws id) ≠ .empty := by
  by_cases safe : Safe spoiled ws.sum id
  · rw [keeps.found id safe]
    exact fun none => known (record_eq_empty.mp none)
  · obtain ⟨taken, zero⟩ := Classical.not_imp.mp safe
    rw [(cut_eq_iff ws id 0).mpr (not_not.mp zero)]
    exact keeps.zero taken

theorem rebuild (keeps : t.Keeps ws ids spoiled) {newBits : List Nat} (length : newBits.length = ws.length)
    (sum : newBits.sum = ws.sum) {vertexSet : List Nat} {frontiers : Frontier}
    (collected : t.frontier newBits vertexSet = .ok (t.withWidths newBits, frontiers))
    (nonempty : ∀ u ∈ frontiers, u.1 ≠ .empty) {spoiled' : Bool}
    (entries : ∀ id, Safe spoiled' ws.sum id → firstEntry ws.sum frontiers id = record (position ws.sum ids id))
    (zero : spoiled' = true → firstEntry ws.sum frontiers 0 ≠ .empty)
    (leaves : spoiled' = false → ∀ u ∈ frontiers, ∃ k, u.1 = Ptr.vertex k) :
    ∃ t', t.transform t.depth newBits vertexSet = .ok t' ∧ t'.Keeps newBits ids spoiled' ∧ t'.root ≠ .empty ∧
      t'.vertexTable = t.vertexTable := by
  have shaped := withWidths_shaped keeps.shaped length
  have levels : newBits ≠ [] := List.ne_nil_of_length_pos (length ▸ List.length_pos_iff.mpr keeps.levels)
  obtain ⟨root', placed, ⟨c, node⟩, fits, found, rooted⟩ := rebuild_spec shaped levels frontiers nonempty
  rw [sum] at found
  refine ⟨{ t.withWidths newBits with root := root' }, ?_, ?_, node ▸ Trie.node_ne_empty c, rfl⟩
  · rw [transform, if_neg (by simp), collected, ok_bind]
    exact congrArg (· >>= _) placed
  · refine ⟨⟨rfl, rfl, shaped.depth⟩, levels, .inr ⟨c, node⟩, fits, fun id safe => ?_, fun taken => ?_, fun clean _ => ?_,
      by rw [sum]; exact keeps.distinct, keeps.cnt, keeps.table⟩
    · rw [sum] at safe ⊢
      rw [found, entries id safe]
    · rw [found]
      exact zero taken
    · exact rooted (leaves clean)

theorem transform_search (keeps : t.Keeps ws ids spoiled) (made : t.root ≠ .empty) {newBits : List Nat}
    (length : newBits.length = ws.length) (sum : newBits.sum = ws.sum) :
    ∃ t', t.transform t.depth newBits [] = .ok t' ∧ t'.Keeps newBits ids spoiled ∧ t'.root ≠ .empty ∧
      t'.vertexTable = t.vertexTable := by
  have node := keeps.root.resolve_left fun none => made none.1
  obtain ⟨frontiers, searched, reached⟩ := search_spec keeps.shaped length node keeps.fits
  apply keeps.rebuild length sum (by rw [frontier, if_pos rfl, searched])
  · exact fun u member => ((reached.mem_iff u).mp member).2.2
  · intro id safe
    rw [reached.firstEntry, keeps.found id safe]
  · intro taken
    rw [reached.firstEntry]
    exact keeps.zero taken
  · intro clean u member
    obtain ⟨-, here, stored⟩ := (reached.mem_iff u).mp member
    rw [keeps.found u.2 fun taken => absurd (clean.symm.trans taken) Bool.false_ne_true] at here
    cases known : position ws.sum ids u.2 with
    | none =>
        rw [known] at here
        exact absurd here.symm stored
    | some k =>
        rw [known] at here
        exact ⟨k, here.symm⟩

theorem firstEntry_congr {B : Nat} {a b : NodeID} (same : a ≡ b [MOD 2 ^ B]) (frontiers : Frontier) :
    firstEntry B frontiers a = firstEntry B frontiers b := by
  rw [firstEntry, firstEntry, show a % 2 ^ B = b % 2 ^ B from same]

theorem transform_vertexSet (keeps : t.Keeps ws ids spoiled) (bounded : ∀ a ∈ ids, a < 2 ^ ws.sum) {newBits : List Nat}
    (length : newBits.length = ws.length) (sum : newBits.sum = ws.sum) {vertexSet : List Nat} (nonempty : vertexSet ≠ [])
    (same : ∀ u, u ∈ vertexSet ↔ u ∈ ids) :
    ∃ t', t.transform t.depth newBits vertexSet = .ok t' ∧ t'.Keeps newBits ids true ∧ t'.root ≠ .empty ∧
      t'.vertexTable = t.vertexTable := by
  obtain ⟨a, member⟩ := List.exists_mem_of_ne_nil _ nonempty
  obtain ⟨c, node⟩ := keeps.root.resolve_left fun none => absurd ((same a).mp member) (none.2 ▸ List.not_mem_nil)
  have known {u : Nat} (inside : u ∈ vertexSet) : position ws.sum ids u ≠ none := by
    have here := (same u).mp inside
    rw [ne_eq, position_none_inRange bounded (bounded u here)]
    exact fun absent => absent here
  have each : ∀ u ∈ vertexSet, t.locate u t.depth t.root = .ok (t.root.find (cut ws u)) := by
    intro u inside
    have stored := keeps.stored (known inside)
    have fits := keeps.fits
    have depth := keeps.shaped.depth
    obtain ⟨w, rest, rfl⟩ := List.exists_cons_of_ne_nil keeps.levels
    rw [node] at fits stored ⊢
    rw [depth]
    exact locate_spec u [] keeps.shaped fits stored
  have located : vertexSet.foldlM (fun frontiers u => do
      let slot ← t.locate u t.depth t.root
      .ok (frontiers ++ [(slot, u)])) [(t.root, 0)] =
        (.ok ((t.root, 0) :: vertexSet.map fun u => (t.root.find (cut ws u), u)) : Result Frontier) := by
    have collected := foldlM_collect (fun _ => false) (fun slot u => (slot, u)) vertexSet each [(t.root, 0)]
    simpa using collected
  have collected : t.frontier newBits vertexSet =
      .ok (t.withWidths newBits, (t.root, 0) :: vertexSet.map fun u => (t.root.find (cut ws u), u)) := by
    rw [frontier, if_neg nonempty, located, ok_bind, adoptAll_spec keeps.shaped length, ok_bind]
  apply keeps.rebuild length sum collected
  · intro u inside
    rcases List.mem_cons.mp inside with rfl | inside
    · rw [node]
      exact Trie.node_ne_empty c
    · obtain ⟨v, member, rfl⟩ := List.mem_map.mp inside
      exact keeps.stored (known member)
  · intro id safe
    have low : id % 2 ^ ws.sum < 2 ^ ws.sum := Nat.mod_lt _ (Nat.two_pow_pos _)
    have other : ¬ 0 ≡ id [MOD 2 ^ ws.sum] := fun equal => safe rfl equal.symm
    rw [firstEntry_cons, if_neg other, firstEntry_congr (Nat.mod_modEq id _).symm,
      firstEntry_map (fun u => t.root.find (cut ws u)) (fun u inside => bounded u ((same u).mp inside)) low,
      ← position_congr (Nat.mod_modEq id _)]
    by_cases inside : id % 2 ^ ws.sum ∈ vertexSet
    · rw [if_pos inside]
      apply keeps.found
      exact fun _ zero => other ((Nat.mod_modEq id _).symm.trans zero).symm
    · rw [if_neg inside, (position_none_inRange bounded low).mpr fun here => inside ((same _).mpr here)]
      rfl
  · intro _
    rw [firstEntry_cons, if_pos (Nat.ModEq.refl 0), node]
    exact Trie.node_ne_empty c
  · exact Bool.noConfusion

end Keeps

/-! ## A tree beside one that is never transformed -/

structure Stage where
  /-- A call has made the root. -/
  made : Bool := false
  /-- A vertex set has been given. -/
  spoiled : Bool := false
  /-- The ids that were inserted. -/
  known : List NodeID := []

def Stage.retrieved (stage : Stage) (id : NodeID) (insertMode : Bool) : Stage :=
  { stage with made := true, known := if insertMode then id :: stage.known else stage.known }

def Stage.after (stage : Stage) : Call → Stage
  | .retrieveVertex id insertMode => stage.retrieved id insertMode
  | .deleteVertex id => stage.retrieved id false
  | .checkExistence _ => stage

def Stage.Transforms (depth B : Nat) (stage : Stage) (numBits vertexSet : List Nat) : Prop :=
  numBits.length = depth ∧ numBits.sum = B ∧
    if vertexSet = [] then stage.made = true else ∀ u, u ∈ vertexSet ↔ u ∈ stage.known

def Stage.transformed (stage : Stage) (vertexSet : List Nat) : Stage :=
  { stage with spoiled := stage.spoiled || !vertexSet.isEmpty }

structure Retuned (depth B : Nat) (stage : Stage) (t s : SORT W) (ws ws' : List Nat) (ids : List NodeID) : Prop where
  depth : ws.length = depth
  sum : ws.sum = B
  sum' : ws'.sum = B
  keeps : t.Keeps ws ids stage.spoiled
  plain : s.Dictionary ws' ids
  table : t.vertexTable = s.vertexTable
  made : stage.made = true → t.root ≠ .empty
  bounded : ∀ a ∈ ids, a < 2 ^ B
  known : ∀ a, a ∈ ids ↔ a ∈ stage.known

def Beside (depth B : Nat) (stage : Stage) (t s : SORT W) : Prop := ∃ ws ws' ids, Retuned depth B stage t s ws ws' ids

namespace Beside

variable {depth B : Nat} {stage : Stage} {t s : SORT W}

theorem retrieveVertex (beside : Beside depth B stage t s) (info : GlobalInfo) {id : NodeID} (inRange : id < 2 ^ B)
    (safe : stage.spoiled = true → id ≠ 0) (insertMode : Bool) :
    Agree (Same (Beside depth B (stage.retrieved id insertMode))) (SORT.retrieveVertex info t id insertMode)
      (SORT.retrieveVertex info s id insertMode) := by
  obtain ⟨ws, ws', ids, r⟩ := beside
  have safe' : Safe stage.spoiled ws.sum id := fun taken zero =>
    safe taken (zero.eq_of_lt_of_lt (r.sum ▸ inRange) (Nat.two_pow_pos _))
  cases insertMode with
  | false =>
      obtain ⟨c, retrieved, keeps⟩ := r.keeps.query info safe'
      obtain ⟨root, retrieved', plain⟩ := r.plain.query info id
      rw [retrieved, retrieved', r.sum, r.sum']
      refine .ok ⟨rfl, ws, ws', ids, ?_⟩
      exact ⟨r.depth, r.sum, r.sum', keeps, plain, r.table, fun _ => Trie.node_ne_empty c, r.bounded, r.known⟩
  | true =>
      obtain ⟨t', retrieved, keeps, ⟨c, node⟩, table⟩ := r.keeps.enter info safe'
      obtain ⟨s', retrieved', plain, table'⟩ := r.plain.enter info id
      rw [retrieved, retrieved', r.sum, r.sum']
      rw [r.sum] at keeps table
      rw [r.sum'] at plain table'
      refine .ok ⟨rfl, ws, ws', enter B ids id, ?_⟩
      refine ⟨r.depth, r.sum, r.sum', keeps, plain, ?_, fun _ => node ▸ Trie.node_ne_empty c, fun a member => ?_, fun a => ?_⟩
      · rw [table, table', r.table]
      · rcases (mem_enter r.bounded inRange a).mp member with rfl | there
        · exact inRange
        · exact r.bounded a there
      · rw [mem_enter r.bounded inRange, r.known, Stage.retrieved, if_pos rfl, List.mem_cons]

theorem vertexAt (beside : Beside depth B stage t s) (k : Nat) : t.vertexAt k = s.vertexAt k := by
  obtain ⟨ws, ws', ids, r⟩ := beside
  rw [SORT.vertexAt, SORT.vertexAt, r.table]

theorem setVertex (beside : Beside depth B stage t s) {k : Nat} {v v' : Vertex W} (here : s.vertexAt k = .ok v)
    (node : v'.node = v.node) (idx : v'.idx = v.idx) : Beside depth B stage (t.setVertex k v') (s.setVertex k v') := by
  obtain ⟨ws, ws', ids, r⟩ := beside
  have at_k : s.vertexTable[k]? = some v := by
    rw [SORT.vertexAt] at here
    split at here
    · cases here
    · rename_i found
      cases here
      exact found
  refine ⟨ws, ws', ids, r.depth, r.sum, r.sum', ?_, r.plain.setVertex at_k node idx, ?_, r.made, r.bounded, r.known⟩
  · exact r.keeps.setVertex (r.table ▸ at_k) node idx
  · rw [SORT.setVertex, SORT.setVertex, r.table]

theorem cnt (beside : Beside depth B stage t s) : t.cnt = s.cnt := by
  obtain ⟨ws, ws', ids, r⟩ := beside
  rw [r.keeps.cnt, r.plain.cnt]

theorem deleteVertex (beside : Beside depth B stage t s) (info : GlobalInfo) {id : NodeID} (inRange : id < 2 ^ B)
    (safe : stage.spoiled = true → id ≠ 0) :
    Agree (Same (Beside depth B (stage.retrieved id false))) (SORT.deleteVertex info t id) (SORT.deleteVertex info s id) := by
  apply (beside.retrieveVertex info inRange safe false).bind
  rintro ⟨ptr, t'⟩ ⟨ptr', s'⟩ ⟨⟨⟩, beside'⟩
  cases ptr with
  | empty => exact .ok ⟨rfl, beside'⟩
  | node c => exact .error _
  | leaf k =>
      dsimp only
      rw [beside'.vertexAt]
      cases here : s'.vertexAt k with
      | error e => exact .error e
      | ok v => exact .ok ⟨rfl, beside'.setVertex here rfl rfl⟩

theorem checkExistence (beside : Beside depth B stage t s) {id : NodeID} (inRange : id < 2 ^ B)
    (safe : stage.spoiled = true → id ≠ 0) : t.checkExistence id = s.checkExistence id := by
  obtain ⟨ws, ws', ids, r⟩ := beside
  have safe' : Safe stage.spoiled ws.sum id := fun taken zero =>
    safe taken (zero.eq_of_lt_of_lt (r.sum ▸ inRange) (Nat.two_pow_pos _))
  rw [r.keeps.checkExistence safe', r.plain.checkExistence, r.sum, r.sum']

theorem transform (beside : Beside depth B stage t s) {numBits vertexSet : List Nat}
    (transforms : stage.Transforms depth B numBits vertexSet) :
    ∃ t', t.transform depth numBits vertexSet = .ok t' ∧ Beside depth B (stage.transformed vertexSet) t' s := by
  obtain ⟨ws, ws', ids, r⟩ := beside
  obtain ⟨length, sum, given⟩ := transforms
  have shape : t.depth = depth := r.keeps.shaped.depth.trans r.depth
  by_cases none : vertexSet = []
  · subst none
    rw [if_pos rfl] at given
    obtain ⟨t', done, keeps, made, table⟩ := r.keeps.transform_search (r.made given) (length.trans r.depth.symm)
      (sum.trans r.sum.symm)
    rw [shape] at done
    refine ⟨t', done, numBits, ws', ids, length, sum, r.sum', ?_, r.plain, table.trans r.table, fun _ => made, r.bounded,
      r.known⟩
    rw [Stage.transformed, List.isEmpty_nil, Bool.not_true, Bool.or_false]
    exact keeps
  · rw [if_neg none] at given
    obtain ⟨t', done, keeps, made, table⟩ := r.keeps.transform_vertexSet (r.sum.symm ▸ r.bounded)
      (length.trans r.depth.symm) (sum.trans r.sum.symm) none fun u => (given u).trans (r.known u).symm
    rw [shape] at done
    refine ⟨t', done, numBits, ws', ids, length, sum, r.sum', ?_, r.plain, table.trans r.table, fun _ => made, r.bounded,
      r.known⟩
    rw [Stage.transformed, List.isEmpty_eq_false_iff.mpr none, Bool.not_false, Bool.or_true]
    exact keeps

theorem transform_other (beside : Beside depth B stage t s) {d : Nat} (other : d ≠ depth) (numBits vertexSet : List Nat) :
    t.transform d numBits vertexSet = .ok t := by
  obtain ⟨ws, ws', ids, r⟩ := beside
  rw [SORT.transform, if_pos]
  rw [r.keeps.shaped.depth, r.depth]
  exact other

theorem call (beside : Beside depth B stage t s) (info : GlobalInfo) {c : Call} (inRange : c.id < 2 ^ B)
    (safe : stage.spoiled = true → c.id ≠ 0) :
    Agree (Same (Beside depth B (stage.after c))) (t.call info c) (s.call info c) := by
  cases c with
  | retrieveVertex id insertMode =>
      apply (beside.retrieveVertex info inRange safe insertMode).bind
      rintro ⟨ptr, t'⟩ ⟨ptr', s'⟩ ⟨⟨⟩, beside'⟩
      exact .ok ⟨rfl, beside'⟩
  | checkExistence id =>
      have same : t.checkExistence id = s.checkExistence id := beside.checkExistence inRange safe
      rw [SORT.call, SORT.call, same]
      apply (Agree.common (s.checkExistence id)).bind
      rintro b _ rfl
      exact .ok ⟨rfl, beside⟩
  | deleteVertex id =>
      apply (beside.deleteVertex info inRange safe).bind
      rintro ⟨b, t'⟩ ⟨b', s'⟩ ⟨⟨⟩, beside'⟩
      exact .ok ⟨rfl, beside'⟩

theorem fetch (beside : Beside depth B stage t s) (info : GlobalInfo) {id : NodeID} (inRange : id < 2 ^ B)
    (safe : stage.spoiled = true → id ≠ 0) : t.fetch info id = s.fetch info id := by
  have both : Agree (fun a b => a = b) (t.fetch info id) (s.fetch info id) := by
    apply (beside.retrieveVertex info inRange safe false).bind
    rintro ⟨ptr, t'⟩ ⟨ptr', s'⟩ ⟨⟨⟩, -⟩
    exact .ok rfl
  exact both.eq

end Beside

/-! ## Runs -/

inductive Step where
  | call (info : GlobalInfo) (c : Call)
  | transform (d : Nat) (numBits vertexSet : List Nat)

def runSteps : SORT W → List Step → Result (List Answer × SORT W)
  | t, [] => .ok ([], t)
  | t, .call info c :: steps => do
      let (answer, t) ← t.call info c
      let (answers, t) ← runSteps t steps
      .ok (answer :: answers, t)
  | t, .transform d numBits vertexSet :: steps => do
      let t ← t.transform d numBits vertexSet
      runSteps t steps

def Step.made : Step → Option (GlobalInfo × Call)
  | .call info c => some (info, c)
  | .transform _ _ _ => none

def calls (steps : List Step) : List (GlobalInfo × Call) := steps.filterMap Step.made

def Stage.next (depth : Nat) (stage : Stage) : Step → Stage
  | .call _ c => stage.after c
  | .transform d _ vertexSet => if d = depth then stage.transformed vertexSet else stage

/-- The ids are in range, the slot of the id is not spoiled, and a transform is one the client may make. -/
def Stage.Allows (depth B : Nat) (stage : Stage) : Step → Prop
  | .call _ c => c.id < 2 ^ B ∧ (stage.spoiled = true → c.id ≠ 0)
  | .transform d numBits vertexSet => d = depth → stage.Transforms depth B numBits vertexSet

theorem Beside.runSteps {depth B : Nat} {stage : Stage} {t s : SORT W} (beside : Beside depth B stage t s)
    {steps : List Step} (allowed : Admissible (Stage.next depth) (Stage.Allows depth B) stage steps) :
    Agree (Same (Beside depth B (steps.foldl (Stage.next depth) stage))) (t.runSteps steps) (s.runCalls (calls steps)) := by
  induction steps generalizing stage t s with
  | nil => exact .ok ⟨rfl, beside⟩
  | cons x steps ih =>
      obtain ⟨here, rest⟩ := allowed
      cases x with
      | call info c =>
          apply (beside.call info here.1 here.2).bind
          rintro ⟨answer, t'⟩ ⟨answer', s'⟩ ⟨⟨⟩, beside'⟩
          apply (ih beside' rest).bind
          rintro ⟨answers, t''⟩ ⟨answers', s''⟩ ⟨⟨⟩, beside''⟩
          exact .ok ⟨rfl, beside''⟩
      | transform d numBits vertexSet =>
          by_cases same : d = depth
          · subst same
            obtain ⟨t', done, beside'⟩ := beside.transform (here rfl)
            have moved : stage.next d (.transform d numBits vertexSet) = stage.transformed vertexSet := if_pos rfl
            rw [moved] at rest
            rw [SORT.runSteps, done, ok_bind, List.foldl_cons, moved]
            exact ih beside' rest
          · have moved : stage.next depth (.transform d numBits vertexSet) = stage := if_neg same
            rw [moved] at rest
            rw [SORT.runSteps, beside.transform_other same, ok_bind, List.foldl_cons, moved]
            exact ih beside rest

theorem Dictionary.ids_eq {t : SORT W} {ws ws' : List Nat} {ids ids' : List NodeID} (dict : t.Dictionary ws ids)
    (dict' : t.Dictionary ws' ids') : ids = ids' := by
  have names (ids : List NodeID) : (ids.mapIdx fun k id => (id, (k : Int))).map Prod.fst = ids := by
    apply List.ext_getElem?
    intro k
    rw [List.getElem?_map, List.getElem?_mapIdx, Option.map_map]
    exact congrFun Option.map_id _
  rw [← names ids, ← names ids', ← dict.table, dict'.table]

theorem beside_start {t₀ : SORT W} {ws : List Nat} (fresh : Constructed t₀ ws) :
    Beside ws.length ws.sum {} t₀ t₀ := by
  have dict := fresh.dictionary
  refine ⟨ws, ws, [], rfl, rfl, rfl, dict.keeps, dict, rfl, Bool.noConfusion, ?_, fun _ => Iff.rfl⟩
  exact fun _ member => absurd member List.not_mem_nil

/-- Calls between transforms have the answers of the calls alone; and as long as no vertex set is given the tree is
always the one that the calls make in a new tree of its widths. -/
theorem tuned_calls_agree {t₀ : SORT W} {ws : List Nat} (fresh : Constructed t₀ ws) {steps : List Step}
    (allowed : Admissible (Stage.next ws.length) (Stage.Allows ws.length ws.sum) {} steps) :
    ∃ (answers : List Answer) (t s : SORT W), t₀.runSteps steps = .ok (answers, t) ∧ t₀.runCalls (calls steps) = .ok (answers, s) ∧
      t.vertexTable = s.vertexTable ∧ t.cnt = s.cnt ∧
      (∀ info id, id < 2 ^ ws.sum → ((steps.foldl (Stage.next ws.length) {}).spoiled = true → id ≠ 0) →
        t.fetch info id = s.fetch info id) ∧
      ∀ (answers' : List Answer) (u : SORT W), (steps.foldl (Stage.next ws.length) {}).spoiled = false → t.root ≠ .empty →
        (ofFanout t.numBits).runCalls (calls steps) = .ok (answers', u) → u.root ≠ .empty →
          t.shape = u.shape ∧ ∃ n enough, ∀ rounds ≥ enough, t.size rounds = .ok n ∧ u.size rounds = .ok n := by
  obtain ⟨answers, s, ran, dict, -⟩ := fresh.dictionary.runCalls (calls steps)
  have agree := (beside_start fresh).runSteps allowed
  rw [ran] at agree
  obtain ⟨⟨answers', t⟩, ran', ⟨⟩, beside⟩ := agree.ok_of
  refine ⟨answers, t, s, ran', ran, ?_, beside.cnt, fun info id inRange safe => beside.fetch info inRange safe,
    fun answers' u clean made ran'' made' => ?_⟩
  · obtain ⟨ws, ws', ids, r⟩ := beside
    exact r.table
  · obtain ⟨newBits, ws', ids, r⟩ := beside
    have keeps := r.keeps
    rw [clean] at keeps
    have tuned := keeps.dictionary
    obtain rfl := r.plain.ids_eq dict
    obtain ⟨_, _, ran₂, dictU, -⟩ := (ofFanout_dictionary (W := W) tuned.levels).runCalls (calls steps)
    rw [tuned.shaped.numBits] at ran''
    obtain ⟨rfl, rfl⟩ := Prod.mk.inj (Except.ok.inj (ran₂.symm.trans ran''))
    have shapes := tuned.shape_eq dictU made made' fun id => by rw [r.sum]
    refine ⟨shapes, _, _, fun rounds enough => ⟨size_spec tuned.shaped tuned.levels (keeps.rooted rfl made) enough, ?_⟩⟩
    rw [shapes] at enough ⊢
    exact size_spec dictU.shaped dictU.levels (dictU.root.resolve_left fun none => made' none.1) enough

/-- An id inserted before two transforms, the first with a vertex set, keeps its record; without the vertex set the
tree ends with the shape and `Size` of a new tree of the last widths. -/
theorem tuned_calls_agree_twice :
    (∃ (answers : List Answer) (t s : SORT Nat),
      (ofVector [1, 1]).runSteps [.call ⟨0, false⟩ (.retrieveVertex 2 true), .transform 2 [2, 0] [2],
        .call ⟨0, false⟩ (.retrieveVertex 3 true), .transform 2 [0, 2] []] = .ok (answers, t) ∧
      (ofVector [1, 1]).runCalls [(⟨0, false⟩, .retrieveVertex 2 true), (⟨0, false⟩, .retrieveVertex 3 true)] =
        .ok (answers, s) ∧ t.fetch ⟨0, false⟩ 2 = s.fetch ⟨0, false⟩ 2) ∧
    ∃ (answers : List Answer) (t u : SORT Nat),
      (ofVector [1, 1]).runSteps [.call ⟨0, false⟩ (.retrieveVertex 2 true), .transform 2 [2, 0] [],
        .call ⟨0, false⟩ (.retrieveVertex 3 true), .transform 2 [0, 2] []] = .ok (answers, t) ∧
      (ofFanout [0, 2]).runCalls [(⟨0, false⟩, .retrieveVertex 2 true), (⟨0, false⟩, .retrieveVertex 3 true)] =
        .ok (answers, u) ∧
      t.shape = u.shape ∧ ∃ n enough, ∀ rounds ≥ enough, t.size rounds = .ok n ∧ u.size rounds = .ok n := by
  have fresh : Constructed (ofVector [1, 1] : SORT Nat) [1, 1] := .vector (by decide)
  constructor
  · have allowed : Admissible (Stage.next [1, 1].length) (Stage.Allows [1, 1].length [1, 1].sum) {}
        [.call ⟨0, false⟩ (.retrieveVertex 2 true), .transform 2 [2, 0] [2], .call ⟨0, false⟩ (.retrieveVertex 3 true),
          .transform 2 [0, 2] []] := by
      simp [Admissible, Stage.Allows, Stage.Transforms, Stage.next, Stage.after, Stage.retrieved, Stage.transformed,
        Call.id]
    obtain ⟨answers, t, s, ran, ran', -, -, fetched, -⟩ := tuned_calls_agree fresh allowed
    exact ⟨answers, t, s, ran, ran', fetched _ 2 (by decide) fun _ => by decide⟩
  · have allowed : Admissible (Stage.next [1, 1].length) (Stage.Allows [1, 1].length [1, 1].sum) {}
        [.call ⟨0, false⟩ (.retrieveVertex 2 true), .transform 2 [2, 0] [], .call ⟨0, false⟩ (.retrieveVertex 3 true),
          .transform 2 [0, 2] []] := by
      simp [Admissible, Stage.Allows, Stage.Transforms, Stage.next, Stage.after, Stage.retrieved, Stage.transformed,
        Call.id]
    obtain ⟨answers, t, s, ran, -, -, -, -, canonical⟩ := tuned_calls_agree fresh allowed
    have shown : ((ofVector [1, 1] : SORT Nat).runSteps [.call ⟨0, false⟩ (.retrieveVertex 2 true),
        .transform 2 [2, 0] [], .call ⟨0, false⟩ (.retrieveVertex 3 true), .transform 2 [0, 2] []]).map
          (fun r => (r.1, r.2.numBits, r.2.root.isNull)) =
        .ok ([.vertex (Ptr.vertex 0), .vertex (Ptr.vertex 1)], [0, 2], false) := by rfl
    rw [ran] at shown
    obtain ⟨rfl, widths, made⟩ := by simpa only [Prod.mk.injEq] using Except.ok.inj shown
    have rooted : t.root ≠ .empty := fun null => by simp [null, Ptr.isNull] at made
    obtain ⟨u, ran', made'⟩ : ∃ u : SORT Nat, (ofFanout [0, 2]).runCalls [(⟨0, false⟩, .retrieveVertex 2 true),
        (⟨0, false⟩, .retrieveVertex 3 true)] = .ok ([.vertex (Ptr.vertex 0), .vertex (Ptr.vertex 1)], u) ∧
          u.root ≠ .empty := ⟨_, rfl, fun null => by cases null⟩
    obtain ⟨shapes, sizes⟩ := canonical _ u rfl rooted (widths.symm ▸ ran') made'
    exact ⟨_, t, u, ran, ran', shapes, sizes⟩

end SORT

end Radix
