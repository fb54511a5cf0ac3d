import Mathlib.Data.List.GetD
import Radix.Sort.Threads

/-!
# Records that are published before they are named

`InsertVertex` draws the index of a record from `cnt` and its place from `grow_by`, and puts the
record into the leaf slot before it writes `tmp->node`. As long as the places are handed out in the
order of the indices, and nobody finds a record in between, every returned record has its id and
stands at its index.
-/

namespace Radix

open Lib

namespace Concurrent

variable {W : Type} [Zero W]

structure Origins where
  path : Nat → List Nat
  owner : Nat → NodeID

section

variable (ws : List Nat) (o : Origins) (s : Tree W) (id : NodeID)

def Walks (current i : Nat) : Prop :=
  i < ws.length ∧ current < s.nodes.length ∧ o.path current = (cut ws id).take i

def Indexed (v : Nat) : Prop := ∃ vertex, s.vertexTable[v]? = some vertex ∧ vertex.idx = (v : Int)

def Stored (v : Nat) : Prop := o.owner v = id ∧ Indexed s v

def Named (v : Nat) : Prop := ∃ vertex, s.vertexTable[v]? = some vertex ∧ vertex.node = id

def Knows : Pc → Prop
  | .checkRoot | .lockRoot | .recheckRoot | .storeRoot | .unlockRoot | .loadRoot | .returned none =>
      True
  | .readChild a i | .readSlot a i => Walks ws o s id a i
  | .descend a i | .lockSlot a i | .recheckSlot a i | .storeNode a i | .unlockSlot a i
  | .insertDescend a i => Walks ws o s id a i ∧ i + 1 < ws.length
  | .lockLeaf a i | .recheckLeaf a i | .drawIdx a i | .growTable a i _ =>
      Walks ws o s id a i ∧ i + 1 = ws.length
  | .storeIdx a i idx v => (Walks ws o s id a i ∧ i + 1 = ws.length) ∧ idx = v ∧ o.owner v = id ∧
      v < s.vertexTable.length
  | .storeNext a i v | .publish a i v | .storeId a i v _ =>
      (Walks ws o s id a i ∧ i + 1 = ws.length) ∧ Stored o s id v
  | .unlockLeaf _ _ v | .returned (some v) => Stored o s id v ∧ Named s id v

structure Linked : Prop where
  undeleted : ∀ vertex ∈ s.vertexTable, vertex.delTime = -1
  root : ∀ r, s.root = some r → r < s.nodes.length ∧ o.path r = []
  inner : ∀ a j b, s.child a j = some b → (o.path a).length + 1 < ws.length →
    b < s.nodes.length ∧ o.path b = o.path a ++ [j]
  leaf : ∀ a j v, s.child a j = some v → (o.path a).length + 1 = ws.length →
    Stored o s (o.owner v) v ∧ o.owner v < 2 ^ ws.sum ∧ cut ws (o.owner v) = o.path a ++ [j]

end

structure Extends (o : Origins) (s : Tree W) (o' : Origins) (s' : Tree W) : Prop where
  nodes : s.nodes.length ≤ s'.nodes.length
  path : ∀ a < s.nodes.length, o'.path a = o.path a
  table : s.vertexTable.length ≤ s'.vertexTable.length
  owner : ∀ v < s.vertexTable.length, o'.owner v = o.owner v
  indexed : ∀ v, Indexed s v → Indexed s' v
  named : ∀ v, Named s (o.owner v) v → Named s' (o.owner v) v

variable {ws : List Nat} {o o' : Origins} {s s' : Tree W} {id : NodeID}

theorem Indexed.lt {v : Nat} (indexed : Indexed s v) : v < s.vertexTable.length := by
  obtain ⟨vertex, there, -⟩ := indexed
  exact (List.getElem?_eq_some_iff.mp there).1

namespace Extends

theorem stored (grown : Extends o s o' s') {v : Nat} (before : Stored o s id v) :
    Stored o' s' id v := by
  obtain ⟨owner, indexed⟩ := before
  exact ⟨(grown.owner v indexed.lt).trans owner, grown.indexed v indexed⟩

theorem named' (grown : Extends o s o' s') {v : Nat} (owner : o.owner v = id)
    (before : Named s id v) : Named s' id v := by
  subst owner
  exact grown.named v before

theorem walks (grown : Extends o s o' s') {a i : Nat} (before : Walks ws o s id a i) :
    Walks ws o' s' id a i := by
  obtain ⟨inside, allocated, path⟩ := before
  exact ⟨inside, allocated.trans_le grown.nodes, (grown.path a allocated).trans path⟩

theorem knows (grown : Extends o s o' s') {pc : Pc} (before : Knows ws o s id pc) :
    Knows ws o' s' id pc := by
  cases pc with
  | checkRoot | lockRoot | recheckRoot | storeRoot | unlockRoot | loadRoot => trivial
  | readChild | readSlot => exact grown.walks before
  | descend | lockSlot | recheckSlot | storeNode | unlockSlot | insertDescend | lockLeaf |
    recheckLeaf | drawIdx | growTable => exact ⟨grown.walks before.1, before.2⟩
  | storeIdx a i idx v =>
      obtain ⟨⟨walks, last⟩, same, owner, inside⟩ := before
      exact ⟨⟨grown.walks walks, last⟩, same, (grown.owner v inside).trans owner,
        inside.trans_le grown.table⟩
  | storeNext | publish | storeId =>
      exact ⟨⟨grown.walks before.1.1, before.1.2⟩, grown.stored before.2⟩
  | unlockLeaf => exact ⟨grown.stored before.1, grown.named' before.1.1 before.2⟩
  | returned v =>
      cases v with
      | none => trivial
      | some v => exact ⟨grown.stored before.1, grown.named' before.1.1 before.2⟩

theorem trans {o'' : Origins} {s'' : Tree W} (first : Extends o s o' s')
    (second : Extends o' s' o'' s'') : Extends o s o'' s'' where
  nodes := first.nodes.trans second.nodes
  path a allocated := (second.path a (allocated.trans_le first.nodes)).trans (first.path a allocated)
  table := first.table.trans second.table
  owner v inside := (second.owner v (inside.trans_le first.table)).trans (first.owner v inside)
  indexed v before := second.indexed v (first.indexed v before)
  named v before := by
    obtain ⟨vertex, there, node⟩ := before
    have owner := first.owner v (List.getElem?_eq_some_iff.mp there).1
    exact second.named' owner (first.named v ⟨vertex, there, node⟩)

theorem of_table (table : s'.vertexTable = s.vertexTable) (nodes : s.nodes.length ≤ s'.nodes.length) :
    Extends o s o s' where
  nodes := nodes
  path _ _ := rfl
  table := table ▸ le_rfl
  owner _ _ := rfl
  indexed v before := by
    unfold Indexed
    rwa [table]
  named v before := by
    unfold Named
    rwa [table]

end Extends

namespace Linked

theorem quiet (linked : Linked ws o s) (nodes : s'.nodes.length = s.nodes.length)
    (root : s'.root = s.root) (table : s'.vertexTable = s.vertexTable)
    (child : ∀ a j, s'.child a j = s.child a j) : Extends o s o s' ∧ Linked ws o s' := by
  have grown : Extends o s o s' := .of_table table nodes.ge
  refine ⟨grown, ⟨table ▸ linked.undeleted, ?_, ?_, ?_⟩⟩
  · rw [root, nodes]
    exact linked.root
  · intro a j b there
    rw [child] at there
    rw [nodes]
    exact linked.inner a j b there
  · intro a j v there last
    rw [child] at there
    obtain ⟨stored, spelled⟩ := linked.leaf a j v there last
    exact ⟨grown.stored stored, spelled⟩

theorem newNode (linked : Linked ws o s) (ds : List Nat) :
    Extends o s { o with path := Function.update o.path s.nodes.length ds } s.newNode ∧
      Linked ws { o with path := Function.update o.path s.nodes.length ds } s.newNode := by
  have length : s.newNode.nodes.length = s.nodes.length + 1 := List.length_append
  have old : ∀ a < s.nodes.length, Function.update o.path s.nodes.length ds a = o.path a :=
    fun a allocated => Function.update_of_ne allocated.ne ds o.path
  refine ⟨⟨?_, old, le_rfl, fun _ _ => rfl, fun _ before => before, fun _ before => before⟩,
    ⟨linked.undeleted, ?_, ?_, ?_⟩⟩
  · omega
  · intro r there
    obtain ⟨allocated, path⟩ := linked.root r there
    exact ⟨by omega, (old r allocated).trans path⟩
  · intro a j b there inner
    rw [Tree.newNode_child] at there
    simp only [old a (Tree.child_allocated s there)] at inner ⊢
    obtain ⟨allocated, path⟩ := linked.inner a j b there inner
    exact ⟨by omega, (old b allocated).trans path⟩
  · intro a j v there last
    rw [Tree.newNode_child] at there
    simp only [old a (Tree.child_allocated s there)] at last ⊢
    exact linked.leaf a j v there last

theorem setRoot (linked : Linked ws o s) {r : Nat} (allocated : r < s.nodes.length)
    (path : o.path r = []) : Linked ws o { s with root := some r } where
  undeleted := linked.undeleted
  root := by
    rintro _ ⟨⟩
    exact ⟨allocated, path⟩
  inner := linked.inner
  leaf := linked.leaf

theorem setNode (linked : Linked ws o s) {a j b : Nat} (inner : (o.path a).length + 1 < ws.length)
    (allocated : b < s.nodes.length) (path : o.path b = o.path a ++ [j]) :
    Linked ws o (s.setChild a j b) where
  undeleted := linked.undeleted
  root r there := by
    rw [Tree.setChild_length]
    exact linked.root r there
  inner a' j' b' there inner' := by
    rw [Tree.setChild_child] at there
    rw [Tree.setChild_length]
    split at there
    case isTrue here =>
      obtain ⟨rfl, rfl, -⟩ := here
      cases there
      exact ⟨allocated, path⟩
    case isFalse => exact linked.inner a' j' b' there inner'
  leaf a' j' v there last := by
    rw [Tree.setChild_child] at there
    split at there
    case isTrue here =>
      obtain ⟨rfl, rfl, -⟩ := here
      omega
    case isFalse => exact linked.leaf a' j' v there last

theorem setRecord (linked : Linked ws o s) {a j v : Nat} (last : (o.path a).length + 1 = ws.length)
    (stored : Stored o s (o.owner v) v) (inRange : o.owner v < 2 ^ ws.sum)
    (spelled : cut ws (o.owner v) = o.path a ++ [j]) : Linked ws o (s.setChild a j v) where
  undeleted := linked.undeleted
  root r there := by
    rw [Tree.setChild_length]
    exact linked.root r there
  inner a' j' b' there inner := by
    rw [Tree.setChild_child] at there
    rw [Tree.setChild_length]
    split at there
    case isTrue here =>
      obtain ⟨rfl, rfl, -⟩ := here
      omega
    case isFalse => exact linked.inner a' j' b' there inner
  leaf a' j' v' there last' := by
    rw [Tree.setChild_child] at there
    split at there
    case isTrue here =>
      obtain ⟨rfl, rfl, -⟩ := here
      cases there
      exact ⟨stored, inRange, spelled⟩
    case isFalse => exact linked.leaf a' j' v' there last'

theorem growTable (linked : Linked ws o s) (id : NodeID) :
    Extends o s { o with owner := Function.update o.owner s.vertexTable.length id }
        { s with vertexTable := s.vertexTable ++ [({} : Vertex W)] } ∧
      Linked ws { o with owner := Function.update o.owner s.vertexTable.length id }
        { s with vertexTable := s.vertexTable ++ [({} : Vertex W)] } := by
  have old : ∀ v < s.vertexTable.length,
      Function.update o.owner s.vertexTable.length id v = o.owner v :=
    fun v inside => Function.update_of_ne inside.ne id o.owner
  have kept : ∀ {v : Nat} {vertex : Vertex W}, s.vertexTable[v]? = some vertex →
      (s.vertexTable ++ [({} : Vertex W)])[v]? = some vertex := fun there => by
    rw [List.getElem?_append_left (List.getElem?_eq_some_iff.mp there).1, there]
  have grown : Extends o s { o with owner := Function.update o.owner s.vertexTable.length id }
      { s with vertexTable := s.vertexTable ++ [({} : Vertex W)] } := by
    refine ⟨le_rfl, fun _ _ => rfl, by simp, old, ?_, ?_⟩
    · rintro v ⟨vertex, there, idx⟩
      exact ⟨vertex, kept there, idx⟩
    · rintro v ⟨vertex, there, node⟩
      exact ⟨vertex, kept there, node⟩
  refine ⟨grown, ⟨?_, linked.root, linked.inner, ?_⟩⟩
  · intro vertex member
    cases List.mem_append.mp member with
    | inl old => exact linked.undeleted vertex old
    | inr new => rw [List.mem_singleton.mp new]
  intro a j v there last
  obtain ⟨stored, spelled⟩ := linked.leaf a j v there last
  have same := old v stored.2.lt
  simp only [same]
  exact ⟨grown.stored stored, spelled⟩

theorem setVertex (linked : Linked ws o s) (v : Nat) (change : Vertex W → Vertex W)
    (idx : ∀ vertex, vertex.idx = (v : Int) → (change vertex).idx = v)
    (node : ∀ vertex, vertex.node = o.owner v → (change vertex).node = o.owner v)
    (delTime : ∀ vertex, (change vertex).delTime = vertex.delTime) :
    Extends o s o (s.setVertex v change) ∧ Linked ws o (s.setVertex v change) := by
  have changed : ∀ {w : Nat} {vertex : Vertex W}, s.vertexTable[w]? = some vertex →
      (s.setVertex v change).vertexTable[w]? = some (if v = w then change vertex else vertex) := by
    intro w vertex there
    simp only [Tree.setVertex, List.getElem?_modify, there, Option.map_eq_map, Option.map_some]
  have grown : Extends o s o (s.setVertex v change) := by
    refine ⟨le_rfl, fun _ _ => rfl, by simp, fun _ _ => rfl, ?_, ?_⟩
    · rintro w ⟨vertex, there, index⟩
      refine ⟨_, changed there, ?_⟩
      split
      case isTrue here =>
        subst here
        exact idx vertex index
      case isFalse => exact index
    · rintro w ⟨vertex, there, named⟩
      refine ⟨_, changed there, ?_⟩
      split
      case isTrue here =>
        subst here
        exact node vertex named
      case isFalse => exact named
  refine ⟨grown, ⟨?_, linked.root, linked.inner, ?_⟩⟩
  · intro vertex member
    obtain ⟨w, there⟩ := List.mem_iff_getElem?.mp member
    simp only [Tree.setVertex, List.getElem?_modify, Option.map_eq_map] at there
    obtain ⟨before, stood, rfl⟩ := Option.map_eq_some_iff.mp there
    have undeleted := linked.undeleted before (List.mem_of_getElem? stood)
    split
    · rw [delTime, undeleted]
    · exact undeleted
  intro a j w there last
  obtain ⟨stored, spelled⟩ := linked.leaf a j w there last
  exact ⟨grown.stored stored, spelled⟩

end Linked

variable {fanout : SORT W} {info : GlobalInfo} {insertMode : Bool} {pc pc' : Pc}

theorem digit_eq (shaped : fanout.Shaped ws) (id : NodeID) {i : Nat} (inside : i < ws.length) :
    fanout.digit id i = (cut ws id).getD i 0 := by
  have split : ws.take i ++ ws[i] :: ws.drop (i + 1) = ws := by
    rw [List.getElem_cons_drop, List.take_append_drop]
  have level : (ws.take i).length = i := List.length_take_of_le inside.le
  have shaped' : fanout.Shaped (ws.take i ++ ws[i] :: ws.drop (i + 1)) := split.symm ▸ shaped
  have digit := (shaped'.level id).2.2
  rw [level] at digit
  rw [digit, cut_getD, List.getD_eq_getElem _ _ inside]

theorem take_digit (shaped : fanout.Shaped ws) (id : NodeID) {i : Nat} (inside : i < ws.length) :
    (cut ws id).take (i + 1) = (cut ws id).take i ++ [fanout.digit id i] := by
  have inside' : i < (cut ws id).length := by rwa [cut_length]
  rw [digit_eq shaped id inside, List.getD_eq_getElem _ _ inside', List.take_append_getElem]

namespace Walks

theorem level {a i : Nat} (walks : Walks ws o s id a i) : (o.path a).length = i := by
  obtain ⟨inside, -, path⟩ := walks
  rw [path, List.length_take_of_le]
  rw [cut_length]
  exact inside.le

theorem slot (shaped : fanout.Shaped ws) {a i : Nat} (walks : Walks ws o s id a i) :
    o.path a ++ [fanout.digit id i] = (cut ws id).take (i + 1) := by
  rw [take_digit shaped id walks.1, walks.2.2]

theorem last (shaped : fanout.Shaped ws) {a i : Nat} (walks : Walks ws o s id a i)
    (leaf : i + 1 = ws.length) : o.path a ++ [fanout.digit id i] = cut ws id := by
  rw [walks.slot shaped, leaf, ← cut_length ws id, List.take_length]

theorem descend (shaped : fanout.Shaped ws) (linked : Linked ws o s) {a i b : Nat}
    (walks : Walks ws o s id a i) (inner : i + 1 < ws.length)
    (there : s.child a (fanout.digit id i) = some b) : Walks ws o s id b (i + 1) := by
  obtain ⟨allocated, path⟩ := linked.inner a _ b there (by rwa [walks.level])
  exact ⟨inner, allocated, path.trans (walks.slot shaped)⟩

theorem found (shaped : fanout.Shaped ws) (inRange : id < 2 ^ ws.sum) (linked : Linked ws o s)
    {a i v : Nat} (walks : Walks ws o s id a i) (leaf : i + 1 = ws.length)
    (there : s.child a (fanout.digit id i) = some v) : Stored o s id v := by
  obtain ⟨stored, bounded, spelled⟩ := linked.leaf a _ v there (by rwa [walks.level])
  have same : o.owner v = id := by
    apply cut_injective bounded inRange
    exact spelled.trans (walks.last shaped leaf)
  exact ⟨same, stored.2⟩

end Walks

/-! ## One step of one call -/

variable (ws o s id) in
def Arrives (s' : Tree W) (pc' : Pc) : Prop :=
  ∃ o', Extends o s o' s' ∧ Linked ws o' s' ∧ Knows ws o' s' id pc'

theorem Arrives.stay (linked : Linked ws o s) (knows : Knows ws o s id pc') :
    Arrives ws o s id s pc' := ⟨o, .of_table rfl le_rfl, linked, knows⟩

theorem Arrives.quiet (linked : Linked ws o s) (nodes : s'.nodes.length = s.nodes.length)
    (root : s'.root = s.root) (table : s'.vertexTable = s.vertexTable)
    (child : ∀ a j, s'.child a j = s.child a j) (knows : Knows ws o s id pc') :
    Arrives ws o s id s' pc' := by
  obtain ⟨grown, linked'⟩ := linked.quiet nodes root table child
  exact ⟨o, grown, linked', grown.knows knows⟩

theorem Arrives.setLock (linked : Linked ws o s) {a j : Nat} {bit : Bool}
    (knows : Knows ws o s id pc') : Arrives ws o s id (s.setLock a j bit) pc' :=
  .quiet linked (Tree.setLock_length ..) rfl rfl (Tree.setLock_child s a j bit) knows

theorem storeRoot_arrives (linked : Linked ws o s) :
    Arrives ws o s id { s.newNode with root := some s.nodes.length } .unlockRoot := by
  obtain ⟨grown, linked'⟩ := linked.newNode []
  have allocated : s.nodes.length < s.newNode.nodes.length := by simp
  refine ⟨_, ?_, linked'.setRoot allocated (Function.update_self ..), trivial⟩
  exact ⟨grown.nodes, grown.path, grown.table, grown.owner, grown.indexed, grown.named⟩

theorem storeNode_arrives (linked : Linked ws o s) {a i : Nat}
    (walks : Walks ws o s id a i) (inner : i + 1 < ws.length) :
    Arrives ws o s id (s.newNode.setChild a (fanout.digit id i) s.nodes.length)
      (.unlockSlot a i) := by
  obtain ⟨grown, linked'⟩ := linked.newNode (o.path a ++ [fanout.digit id i])
  have walks' := grown.walks walks
  have path := grown.path a walks.2.1
  have set := linked'.setNode (a := a) (j := fanout.digit id i) (b := s.nodes.length)
    (by rwa [walks'.level]) (by simp) (by rw [path]; exact Function.update_self ..)
  have grown' := grown.trans (.of_table
    (Tree.setChild_vertexTable s.newNode a (fanout.digit id i) s.nodes.length)
    (Tree.setChild_length ..).ge)
  exact ⟨_, grown', set, grown'.walks walks, inner⟩

theorem growTable_arrives (linked : Linked ws o s) {a i idx : Nat} (walks : Walks ws o s id a i)
    (last : i + 1 = ws.length) (inOrder : idx = s.vertexTable.length) :
    Arrives ws o s id { s with vertexTable := s.vertexTable ++ [{}] }
      (.storeIdx a i idx s.vertexTable.length) := by
  obtain ⟨grown, linked'⟩ := linked.growTable id
  exact ⟨_, grown, linked', ⟨grown.walks walks, last⟩, inOrder, Function.update_self .., by simp⟩

theorem storeIdx_arrives (linked : Linked ws o s) {a i v : Nat} (walks : Walks ws o s id a i)
    (last : i + 1 = ws.length) (owner : o.owner v = id) (inside : v < s.vertexTable.length) :
    Arrives ws o s id (s.setVertex v fun vertex => { vertex with idx := (v : Int) })
      (.storeNext a i v) := by
  obtain ⟨grown, linked'⟩ := linked.setVertex v (fun vertex => { vertex with idx := (v : Int) })
    (fun _ _ => rfl) (fun _ node => node) (fun _ => rfl)
  refine ⟨o, grown, linked', ⟨grown.walks walks, last⟩, owner, ?_⟩
  refine ⟨{ s.vertexTable[v] with idx := (v : Int) }, ?_, rfl⟩
  simp [Tree.setVertex, inside]

theorem storeId_arrives (linked : Linked ws o s) {a i v : Nat} (stored : Stored o s id v) :
    Arrives ws o s id (s.setVertex v fun vertex => { vertex with node := id })
      (.unlockLeaf a i v) := by
  obtain ⟨grown, linked'⟩ := linked.setVertex v (fun vertex => { vertex with node := id }) (fun _ idx => idx)
    (fun _ _ => stored.1.symm) (fun _ => rfl)
  refine ⟨o, grown, linked', grown.stored stored, ?_⟩
  have inside := stored.2.lt
  refine ⟨{ s.vertexTable[v] with node := id }, ?_, rfl⟩
  simp [Tree.setVertex, inside]

theorem publish_arrives (shaped : fanout.Shaped ws) (inRange : id < 2 ^ ws.sum)
    (linked : Linked ws o s) {a i v : Nat} (walks : Walks ws o s id a i) (last : i + 1 = ws.length)
    (stored : Stored o s id v) :
    Arrives ws o s id (s.setChild a (fanout.digit id i) v) (.storeId a i v true) := by
  obtain ⟨rfl, indexed⟩ := stored
  have grown : Extends o s o (s.setChild a (fanout.digit (o.owner v) i) v) :=
    .of_table rfl (Tree.setChild_length ..).ge
  refine ⟨o, grown, ?_, ⟨grown.walks walks, last⟩, rfl, indexed⟩
  apply linked.setRecord
  · rwa [walks.level]
  · exact ⟨rfl, indexed⟩
  · exact inRange
  · exact (walks.last shaped last).symm

/-- What the order of the steps has to provide: the table grows at the index that was drawn, and a
record that is found without the lock has its id. -/
structure Timely (fanout : SORT W) (ws : List Nat) (s : Tree W) (id : NodeID) (pc : Pc) : Prop where
  inOrder : ∀ a i idx, pc = .growTable a i idx → idx = s.vertexTable.length
  named : ∀ a i v, pc = .readChild a i ∨ pc = .readSlot a i → i + 1 = ws.length →
    s.child a (fanout.digit id i) = some v → Named s id v

theorem found_arrives (shaped : fanout.Shaped ws) (inRange : id < 2 ^ ws.sum)
    (linked : Linked ws o s) {a i ptr : Nat} (walks : Walks ws o s id a i)
    (there : s.child a (fanout.digit id i) = some ptr) (named : i + 1 = ws.length → Named s id ptr)
    {deeper : Pc} (inner : i + 1 < ws.length → Knows ws o s id deeper) :
    Arrives ws o s id s (if i < fanout.depth - 1 then deeper else .returned (some ptr)) := by
  have inside := walks.1
  rw [shaped.depth]
  by_cases deep : i < ws.length - 1
  · rw [if_pos deep]
    exact .stay linked (inner (by omega))
  · rw [if_neg deep]
    have last : i + 1 = ws.length := by omega
    exact .stay linked ⟨walks.found shaped inRange linked last there, named last⟩

theorem next_arrives (shaped : fanout.Shaped ws) (inRange : id < 2 ^ ws.sum)
    (linked : Linked ws o s) (knows : Knows ws o s id pc) (timely : Timely fanout ws s id pc)
    (taken : next fanout info id insertMode s pc = some (s', pc')) : Arrives ws o s id s' pc' := by
  cases pc with
  | checkRoot | recheckRoot =>
      obtain ⟨rfl, rfl⟩ := by simpa [next] using taken
      apply Arrives.stay linked
      split <;> trivial
  | lockRoot =>
      obtain ⟨-, rfl, rfl⟩ := by simpa [next] using taken
      exact .quiet linked rfl rfl rfl (fun _ _ => rfl) trivial
  | storeRoot =>
      obtain ⟨rfl, rfl⟩ := by simpa [next] using taken
      exact storeRoot_arrives linked
  | unlockRoot =>
      obtain ⟨rfl, rfl⟩ := by simpa [next] using taken
      exact .quiet linked rfl rfl rfl (fun _ _ => rfl) trivial
  | loadRoot =>
      simp only [next] at taken
      split at taken
      case isTrue =>
        cases taken
        exact .stay linked trivial
      case isFalse levels =>
        obtain ⟨r, there, ⟨⟩⟩ := Option.map_eq_some_iff.mp taken
        obtain ⟨allocated, path⟩ := linked.root r there
        rw [shaped.depth] at levels
        exact .stay linked ⟨Nat.pos_of_ne_zero levels, allocated, path⟩
  | readChild a i =>
      simp only [next] at taken
      split at taken
      case h_1 =>
        cases taken
        apply Arrives.stay linked
        split
        · exact knows
        · trivial
      case h_2 ptr there =>
        cases taken
        exact found_arrives shaped inRange linked knows there
          (fun last => timely.named a i ptr (.inl rfl) last there) (fun inner => ⟨knows, inner⟩)
  | descend a i | insertDescend a i =>
      obtain ⟨ptr, there, ⟨⟩⟩ := Option.map_eq_some_iff.mp taken
      exact .stay linked (knows.1.descend shaped linked knows.2 there)
  | readSlot a i =>
      simp only [next] at taken
      split at taken
      case h_1 =>
        cases taken
        apply Arrives.stay linked
        have inside := knows.1
        rw [shaped.depth]
        split
        case isTrue => exact ⟨knows, by omega⟩
        case isFalse => exact ⟨knows, by omega⟩
      case h_2 ptr there =>
        cases taken
        exact found_arrives shaped inRange linked knows there
          (fun last => timely.named a i ptr (.inr rfl) last there) (fun inner => ⟨knows, inner⟩)
  | lockSlot a i | lockLeaf a i =>
      simp only [next] at taken
      split at taken
      case isTrue => contradiction
      case isFalse =>
        cases taken
        exact .setLock linked knows
  | recheckSlot a i =>
      obtain ⟨rfl, rfl⟩ := by simpa [next] using taken
      apply Arrives.stay linked
      split <;> exact knows
  | storeNode a i =>
      obtain ⟨rfl, rfl⟩ := by simpa [next] using taken
      exact storeNode_arrives linked knows.1 knows.2
  | unlockSlot a i =>
      obtain ⟨rfl, rfl⟩ := by simpa [next] using taken
      exact .setLock linked knows
  | recheckLeaf a i =>
      simp only [next] at taken
      split at taken
      case h_1 =>
        cases taken
        exact .stay linked knows
      case h_2 v there =>
        cases taken
        exact .stay linked ⟨knows, knows.1.found shaped inRange linked knows.2 there⟩
  | drawIdx a i =>
      obtain ⟨rfl, rfl⟩ := by simpa [next] using taken
      exact .quiet linked rfl rfl rfl (fun _ _ => rfl) knows
  | growTable a i idx =>
      obtain ⟨rfl, rfl⟩ := by simpa [next] using taken
      exact growTable_arrives linked knows.1 knows.2 (timely.inOrder a i idx rfl)
  | storeIdx a i idx v =>
      obtain ⟨rfl, rfl⟩ := by simpa [next] using taken
      obtain ⟨⟨walks, last⟩, rfl, owner, inside⟩ := knows
      exact storeIdx_arrives linked walks last owner inside
  | storeNext a i v =>
      obtain ⟨rfl, rfl⟩ := by simpa [next] using taken
      obtain ⟨grown, linked'⟩ := linked.setVertex v
        (fun vertex => { vertex with next := [SORT.newArray info] }) (fun _ idx => idx)
        (fun _ node => node) (fun _ => rfl)
      exact ⟨o, grown, linked', ⟨grown.walks knows.1.1, knows.1.2⟩, grown.stored knows.2⟩
  | publish a i v =>
      obtain ⟨rfl, rfl⟩ := by simpa [next] using taken
      exact publish_arrives shaped inRange linked knows.1.1 knows.1.2 knows.2
  | storeId a i v made =>
      obtain ⟨rfl, rfl⟩ := by simpa [next] using taken
      exact storeId_arrives linked knows.2
  | unlockLeaf a i v =>
      obtain ⟨rfl, rfl⟩ := by simpa [next] using taken
      exact .setLock linked knows
  | returned v => contradiction

end Concurrent

end Radix
