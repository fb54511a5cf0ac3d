import Mathlib.Data.Finset.Card
import Radix.Lib.Locks
import Radix.Sort.Returned

/-!
# Every vertex is created once

Each slot of the tree, and the root, is filled under its own lock by a call that looks again once it
has the lock. So a filled slot keeps its content, all calls for an id reach the same slot, and the
indices that were drawn go to the records one by one.
-/

namespace Radix

open Lib

namespace Concurrent

inductive Place where
  | root
  | slot (current idx : Nat)
  deriving DecidableEq, Repr

variable {W : Type} [Zero W]

namespace Tree

def content (s : Tree W) : Place → Option Nat
  | .root => s.root
  | .slot current idx => s.child current idx

def bit (s : Tree W) : Place → Bool
  | .root => s.mtx
  | .slot current idx => s.locked current idx

def indices (s : Tree W) : List Int := s.vertexTable.map Vertex.idx

theorem indices_length (s : Tree W) : s.indices.length = s.vertexTable.length := List.length_map ..

theorem setVertex_indices (s : Tree W) (v : Nat) {change : Vertex W → Vertex W}
    (same : ∀ vertex, (change vertex).idx = vertex.idx) : (s.setVertex v change).indices = s.indices := by
  apply List.ext_getElem?
  intro w
  simp only [indices, setVertex, List.getElem?_map, List.getElem?_modify]
  cases s.vertexTable[w]? with
  | none => rfl
  | some vertex =>
      by_cases here : v = w
      · simp [here, same]
      · simp [here]

theorem setIdx_indices (s : Tree W) (v : Nat) (idx : Int) :
    (s.setVertex v fun vertex => { vertex with idx := idx }).indices = s.indices.set v idx := by
  apply List.ext_getElem?
  intro w
  simp only [indices, setVertex, List.getElem?_map, List.getElem?_modify, List.getElem?_set,
    List.length_map]
  by_cases here : v = w
  · subst here
    by_cases inside : v < s.vertexTable.length
    · simp [inside]
    · simp [inside]
  · simp [here]

section Access

variable (s : Tree W) (current idx ptr : Nat)

@[simp] theorem newNode_locked (a j : Nat) : s.newNode.locked a j = s.locked a j := by
  unfold locked
  rw [newNode_nodes, List.getElem?_append]
  split
  · rfl
  · rename_i beyond
    rw [List.getElem?_eq_none (Nat.not_lt.mp beyond)]
    cases a - s.nodes.length <;> rfl

@[simp] theorem setChild_locked (a j : Nat) :
    (s.setChild current idx ptr).locked a j = s.locked a j := by
  unfold locked setChild
  rw [List.getElem?_modify]
  by_cases here : current = a
  · subst here
    cases s.nodes[current]? <;> simp
  · simp [here]

theorem setLock_locked (bit : Bool) (a j : Nat) : (s.setLock current idx bit).locked a j =
    if a = current ∧ j = idx ∧ current < s.nodes.length then bit else s.locked a j := by
  unfold locked setLock
  rw [List.getElem?_modify]
  by_cases here : current = a
  · subst here
    by_cases allocated : current < s.nodes.length
    · by_cases slot : j = idx <;> simp [allocated, slot]
    · simp [allocated]
  · simp [here, Ne.symm here]

theorem newNode_content : s.newNode.content = s.content := by
  funext k
  cases k with
  | root => rfl
  | slot a j => exact s.newNode_child a j

theorem newNode_bit : s.newNode.bit = s.bit := by
  funext k
  cases k with
  | root => rfl
  | slot a j => exact s.newNode_locked a j

theorem setLock_content (bit : Bool) : (s.setLock current idx bit).content = s.content := by
  funext k
  cases k with
  | root => rfl
  | slot a j => exact s.setLock_child current idx bit a j

theorem setChild_bit : (s.setChild current idx ptr).bit = s.bit := by
  funext k
  cases k with
  | root => rfl
  | slot a j => exact s.setChild_locked current idx ptr a j

variable {current}

theorem setLock_bit (allocated : current < s.nodes.length) (bit : Bool) :
    (s.setLock current idx bit).bit = Function.update s.bit (.slot current idx) bit := by
  funext k
  cases k with
  | root => rfl
  | slot a j =>
      change (s.setLock current idx bit).locked a j = _
      rw [setLock_locked, Function.update_apply]
      simp [allocated, Tree.bit]

theorem setChild_content (allocated : current < s.nodes.length) :
    (s.setChild current idx ptr).content = Function.update s.content (.slot current idx) (some ptr) := by
  funext k
  cases k with
  | root => rfl
  | slot a j =>
      change (s.setChild current idx ptr).child a j = _
      rw [setChild_child, Function.update_apply]
      simp [allocated, Tree.content]

end Access

end Tree

namespace Pc

variable (fanout : SORT W) (id : NodeID)

def holds : Pc → Option Place
  | .recheckRoot | .storeRoot | .unlockRoot => some .root
  | .recheckSlot a i | .storeNode a i | .unlockSlot a i | .recheckLeaf a i | .drawIdx a i
  | .growTable a i _ | .storeIdx a i _ _ | .storeNext a i _ | .publish a i _ | .storeId a i _ _
  | .unlockLeaf a i _ => some (.slot a (fanout.digit id i))
  | _ => none

def fills : Pc → Option Place
  | .storeRoot => some .root
  | .storeNode a i | .drawIdx a i | .growTable a i _ | .storeIdx a i _ _ | .storeNext a i _
  | .publish a i _ => some (.slot a (fanout.digit id i))
  | _ => none

def node : Pc → Option Nat
  | .lockSlot a _ | .lockLeaf a _ | .unlockSlot a _ | .unlockLeaf a _ _ | .storeNode a _
  | .publish a _ _ => some a
  | _ => none

def keeps : Pc → Option Nat
  | .storeIdx _ _ _ v | .storeNext _ _ v | .publish _ _ v => some v
  | _ => none

def writes : Pc → Option (Nat × Nat)
  | .storeIdx _ _ idx v => some (idx, v)
  | _ => none

end Pc

variable {fanout : SORT W} {info : GlobalInfo} {insertMode : Bool} {ws : List Nat} {o : Origins}
  {s s' : Tree W} {id : NodeID} {pc pc' : Pc} {calls : Requests} {c c' : State W}

theorem touches_of_next (allocated : ∀ a, pc.node = some a → a < s.nodes.length)
    (taken : next fanout info id insertMode s pc = some (s', pc')) :
    Touches s.bit s.content (pc.holds fanout id) (pc.fills fanout id) s'.bit s'.content
      (pc'.holds fanout id) (pc'.fills fanout id) := by
  cases pc with
  | checkRoot =>
      obtain ⟨rfl, rfl⟩ := by simpa [next] using taken
      split <;> exact .look fun _ impossible => by cases impossible
  | lockRoot =>
      obtain ⟨clear, rfl, rfl⟩ := by simpa [next] using taken
      have set : Tree.bit { s with mtx := true } = Function.update s.bit .root true := by
        funext k
        cases k <;> rfl
      rw [set]
      exact .acquire rfl clear
  | recheckRoot | recheckSlot _ _ =>
      obtain ⟨rfl, rfl⟩ := by simpa [next] using taken
      split
      case isTrue absent =>
        refine .look fun k same => .inr ?_
        cases same
        exact ⟨rfl, absent⟩
      case isFalse => exact .look fun _ impossible => by cases impossible
  | storeRoot =>
      obtain ⟨rfl, rfl⟩ := Prod.mk.inj (Option.some.inj taken)
      have filled : Tree.content { s.newNode with root := some s.nodes.length } =
          Function.update s.content .root (some s.nodes.length) := by
        funext k
        cases k with
        | root => rfl
        | slot a j => exact s.newNode_child a j
      rw [filled]
      have same : Tree.bit { s.newNode with root := some s.nodes.length } = s.bit := s.newNode_bit
      rw [same]
      exact .fill _ rfl
  | unlockRoot =>
      obtain ⟨rfl, rfl⟩ := by simpa [next] using taken
      have cleared : Tree.bit { s with mtx := false } = Function.update s.bit .root false := by
        funext k
        cases k <;> rfl
      rw [cleared]
      exact .release rfl rfl
  | loadRoot =>
      simp only [next] at taken
      split at taken
      · cases taken
        exact .look fun _ impossible => by cases impossible
      · obtain ⟨r, -, ⟨⟩⟩ := Option.map_eq_some_iff.mp taken
        exact .look fun _ impossible => by cases impossible
  | readChild a i | readSlot a i =>
      simp only [next] at taken
      split at taken
      all_goals
        cases taken
        split <;> exact .look fun _ impossible => by cases impossible
  | descend a i | insertDescend a i =>
      obtain ⟨ptr, -, ⟨⟩⟩ := Option.map_eq_some_iff.mp taken
      exact .look fun _ impossible => by cases impossible
  | lockSlot a i | lockLeaf a i =>
      simp only [next] at taken
      split at taken
      case isTrue => contradiction
      case isFalse clear =>
        cases taken
        rw [s.setLock_bit _ (allocated a rfl), s.setLock_content]
        exact .acquire rfl (Bool.not_eq_true _ ▸ clear)
  | storeNode a i =>
      obtain ⟨rfl, rfl⟩ := by simpa [next] using taken
      have allocated' : a < s.newNode.nodes.length := by
        rw [Tree.newNode_nodes, List.length_append]
        exact Nat.lt_add_right _ (allocated a rfl)
      rw [s.newNode.setChild_content _ _ allocated', s.newNode_content, Tree.setChild_bit, s.newNode_bit]
      exact .fill _ rfl
  | unlockSlot a i | unlockLeaf a i v =>
      obtain ⟨rfl, rfl⟩ := by simpa [next] using taken
      rw [s.setLock_bit _ (allocated a rfl), s.setLock_content]
      exact .release rfl rfl
  | recheckLeaf a i =>
      simp only [next] at taken
      split at taken
      case h_1 absent =>
        cases taken
        refine .look fun k same => .inr ?_
        cases same
        exact ⟨rfl, absent⟩
      case h_2 =>
        cases taken
        exact .look fun _ impossible => by cases impossible
  | drawIdx a i | growTable a i idx | storeIdx a i idx v | storeNext a i v =>
      obtain ⟨rfl, rfl⟩ := by simpa [next] using taken
      exact .look fun _ same => .inl same
  | publish a i v =>
      obtain ⟨rfl, rfl⟩ := by simpa [next] using taken
      rw [s.setChild_content _ _ (allocated a rfl), s.setChild_bit]
      exact .fill _ rfl
  | storeId a i v made =>
      obtain ⟨rfl, rfl⟩ := by simpa [next] using taken
      exact .look fun _ impossible => by cases impossible
  | returned v => contradiction

theorem record_cases (taken : next fanout info id insertMode s pc = some (s', pc')) :
    (pc'.keeps = pc.keeps ∧ pc.writes = none ∧ pc'.writes = none ∧ s'.indices = s.indices) ∨
    (∃ a i idx, pc = .growTable a i idx ∧ pc' = .storeIdx a i idx s.vertexTable.length ∧
      s'.indices = s.indices ++ [-1]) ∨
    (∃ a i idx v, pc = .storeIdx a i idx v ∧ pc' = .storeNext a i v ∧
      s'.indices = s.indices.set v (idx : Int)) ∨
    ∃ a i v, pc = .publish a i v ∧ pc' = .storeId a i v true ∧ s'.indices = s.indices := by
  cases pc with
  | growTable a i idx =>
      obtain ⟨rfl, rfl⟩ := by simpa [next] using taken
      exact .inr (.inl ⟨a, i, idx, rfl, rfl, by simp [Tree.indices]⟩)
  | storeIdx a i idx v =>
      obtain ⟨rfl, rfl⟩ := by simpa [next] using taken
      exact .inr (.inr (.inl ⟨a, i, idx, v, rfl, rfl, s.setIdx_indices v idx⟩))
  | publish a i v =>
      obtain ⟨rfl, rfl⟩ := by simpa [next] using taken
      exact .inr (.inr (.inr ⟨a, i, v, rfl, rfl, rfl⟩))
  | storeNext a i v =>
      obtain ⟨rfl, rfl⟩ := by simpa [next] using taken
      exact .inl ⟨rfl, rfl, rfl, s.setVertex_indices v fun _ => rfl⟩
  | storeId a i v made =>
      obtain ⟨rfl, rfl⟩ := by simpa [next] using taken
      exact .inl ⟨rfl, rfl, rfl, s.setVertex_indices v fun _ => rfl⟩
  | returned v => contradiction
  | descend a i | insertDescend a i =>
      obtain ⟨ptr, -, ⟨⟩⟩ := Option.map_eq_some_iff.mp taken
      exact .inl ⟨rfl, rfl, rfl, rfl⟩
  | loadRoot =>
      simp only [next] at taken
      split at taken
      · cases taken
        exact .inl ⟨rfl, rfl, rfl, rfl⟩
      · obtain ⟨r, -, ⟨⟩⟩ := Option.map_eq_some_iff.mp taken
        exact .inl ⟨rfl, rfl, rfl, rfl⟩
  | lockRoot | lockSlot | lockLeaf =>
      simp only [next] at taken
      split at taken
      · contradiction
      · cases taken
        exact .inl ⟨rfl, rfl, rfl, rfl⟩
  | readChild a i | readSlot a i =>
      simp only [next] at taken
      split at taken
      all_goals
        cases taken
        left
        split <;> exact ⟨rfl, rfl, rfl, rfl⟩
  | checkRoot | recheckRoot | recheckSlot =>
      obtain ⟨rfl, rfl⟩ := by simpa [next] using taken
      left
      split <;> exact ⟨rfl, rfl, rfl, rfl⟩
  | recheckLeaf =>
      simp only [next] at taken
      split at taken
      all_goals
        cases taken
        exact .inl ⟨rfl, rfl, rfl, rfl⟩
  | storeRoot | unlockRoot | storeNode | unlockSlot | drawIdx | unlockLeaf =>
      obtain ⟨rfl, rfl⟩ := by simpa [next] using taken
      exact .inl ⟨rfl, rfl, rfl, rfl⟩

/-! ## Where the calls stand -/

section

variable (fanout : SORT W) (ws : List Nat) (o : Origins) (s : Tree W) (id : NodeID)

def AtLeaf (a i : Nat) : Prop := Walks ws o s id a i ∧ i + 1 = ws.length

def Finds (a i v : Nat) : Prop := AtLeaf ws o s id a i ∧ s.child a (fanout.digit id i) = some v

def Makes (a i v : Nat) : Prop := AtLeaf ws o s id a i ∧ o.owner v = id ∧ v < s.vertexTable.length

def Stands : Pc → Prop
  | .checkRoot | .lockRoot | .recheckRoot | .storeRoot | .unlockRoot | .loadRoot => True
  | .readChild a i | .readSlot a i => Walks ws o s id a i
  | .descend a i | .lockSlot a i | .recheckSlot a i | .storeNode a i | .unlockSlot a i
  | .insertDescend a i => Walks ws o s id a i ∧ i + 1 < ws.length
  | .lockLeaf a i | .recheckLeaf a i | .drawIdx a i | .growTable a i _ => AtLeaf ws o s id a i
  | .storeIdx a i _ v | .storeNext a i v | .publish a i v => Makes ws o s id a i v
  | .storeId a i v _ | .unlockLeaf a i v => Finds fanout ws o s id a i v
  | .returned none => False
  | .returned (some v) => ∃ a i, Finds fanout ws o s id a i v

/-- Every node but the root hangs in a slot; the digits on the way to a record are those of the id
that it was made for. -/
structure Placed : Prop where
  root : ∀ r, s.root = some r → r < s.nodes.length ∧ o.path r = []
  inner : ∀ a j b, s.child a j = some b → (o.path a).length + 1 < ws.length →
    b < s.nodes.length ∧ o.path b = o.path a ++ [j]
  leaf : ∀ a j v, s.child a j = some v → (o.path a).length + 1 = ws.length →
    v < s.vertexTable.length ∧ o.owner v < 2 ^ ws.sum ∧ cut ws (o.owner v) = o.path a ++ [j]
  hangs : ∀ b < s.nodes.length, s.root = some b ∨
    ∃ a j, s.child a j = some b ∧ (o.path a).length + 1 < ws.length

def Leads (ds : List Nat) : Place → Prop
  | .root => ds = []
  | .slot a j => a < s.nodes.length ∧ ds = o.path a ++ [j] ∧ (o.path a).length + 1 < ws.length

end

structure Grows (o : Origins) (s : Tree W) (o' : Origins) (s' : Tree W) : Prop where
  nodes : s.nodes.length ≤ s'.nodes.length
  path : ∀ a < s.nodes.length, o'.path a = o.path a
  table : s.vertexTable.length ≤ s'.vertexTable.length
  owner : ∀ v < s.vertexTable.length, o'.owner v = o.owner v
  content : ∀ k v, s.content k = some v → s'.content k = some v

variable {o' : Origins}

namespace Grows

theorem walks (grown : Grows o s o' s') {a i : Nat} (before : Walks ws o s id a i) :
    Walks ws o' s' id a i := by
  obtain ⟨inside, allocated, path⟩ := before
  exact ⟨inside, allocated.trans_le grown.nodes, (grown.path a allocated).trans path⟩

theorem atLeaf (grown : Grows o s o' s') {a i : Nat} (before : AtLeaf ws o s id a i) :
    AtLeaf ws o' s' id a i := ⟨grown.walks before.1, before.2⟩

theorem finds (grown : Grows o s o' s') {a i v : Nat} (before : Finds fanout ws o s id a i v) :
    Finds fanout ws o' s' id a i v :=
  ⟨grown.atLeaf before.1, grown.content (.slot a (fanout.digit id i)) v before.2⟩

theorem makes (grown : Grows o s o' s') {a i v : Nat} (before : Makes ws o s id a i v) :
    Makes ws o' s' id a i v := by
  obtain ⟨leaf, owner, inside⟩ := before
  exact ⟨grown.atLeaf leaf, (grown.owner v inside).trans owner, inside.trans_le grown.table⟩

theorem stands (grown : Grows o s o' s') {pc : Pc} (before : Stands fanout ws o s id pc) :
    Stands fanout ws o' s' id pc := by
  cases pc with
  | checkRoot | lockRoot | recheckRoot | storeRoot | unlockRoot | loadRoot => trivial
  | readChild | readSlot => exact grown.walks before
  | descend | lockSlot | recheckSlot | storeNode | unlockSlot | insertDescend =>
      exact ⟨grown.walks before.1, before.2⟩
  | lockLeaf | recheckLeaf | drawIdx | growTable => exact grown.atLeaf before
  | storeIdx | storeNext | publish => exact grown.makes before
  | storeId | unlockLeaf => exact grown.finds before
  | returned v =>
      cases v with
      | none => exact before
      | some v =>
          obtain ⟨a, i, found⟩ := before
          exact ⟨a, i, grown.finds found⟩

end Grows

namespace Placed

theorem apart (placed : Placed ws o s) {a b : Nat} (allocated : a < s.nodes.length)
    (allocated' : b < s.nodes.length) (same : o.path a = o.path b) : a = b := by
  induction path : o.path a using List.reverseRecOn generalizing a b with
  | nil =>
      have top {c : Nat} (allocated : c < s.nodes.length) (empty : o.path c = []) :
          s.root = some c := by
        cases placed.hangs c allocated with
        | inl root => exact root
        | inr slot =>
            obtain ⟨p, j, there, inner⟩ := slot
            have spelled := (placed.inner p j c there inner).2
            rw [empty] at spelled
            exact absurd spelled.symm (List.concat_ne_nil _ _)
      exact Option.some.inj ((top allocated path).symm.trans (top allocated' (same ▸ path)))
  | append_singleton ds d ih =>
      have parent {c : Nat} (allocated : c < s.nodes.length) (spelled : o.path c = ds ++ [d]) :
          ∃ p, s.child p d = some c ∧ p < s.nodes.length ∧ o.path p = ds := by
        cases placed.hangs c allocated with
        | inl root =>
            rw [(placed.root c root).2] at spelled
            exact absurd spelled.symm (List.concat_ne_nil _ _)
        | inr slot =>
            obtain ⟨p, j, there, inner⟩ := slot
            rw [(placed.inner p j c there inner).2] at spelled
            obtain ⟨front, last⟩ := List.append_inj' spelled rfl
            cases last
            exact ⟨p, there, Tree.child_allocated s there, front⟩
      obtain ⟨p, there, inside, front⟩ := parent allocated path
      obtain ⟨q, there', inside', front'⟩ := parent allocated' (same ▸ path)
      obtain rfl : p = q := ih inside inside' (front.trans front'.symm) front
      exact Option.some.inj (there.symm.trans there')

theorem owner (placed : Placed ws o s) (shaped : fanout.Shaped ws) (inRange : id < 2 ^ ws.sum)
    {a i v : Nat} (found : Finds fanout ws o s id a i v) : o.owner v = id := by
  obtain ⟨⟨walks, last⟩, there⟩ := found
  obtain ⟨-, bounded, spelled⟩ := placed.leaf a _ v there (by rwa [walks.level])
  apply cut_injective bounded inRange
  exact spelled.trans (walks.last shaped last)

theorem same_leaf (placed : Placed ws o s) {a i b k : Nat} (here : AtLeaf ws o s id a i)
    (there : AtLeaf ws o s id b k) : a = b ∧ i = k := by
  obtain ⟨⟨-, allocated, path⟩, last⟩ := here
  obtain ⟨⟨-, allocated', path'⟩, last'⟩ := there
  obtain rfl : i = k := by omega
  exact ⟨placed.apart allocated allocated' (path.trans path'.symm), rfl⟩

theorem descend (placed : Placed ws o s) (shaped : fanout.Shaped ws) {a i b : Nat}
    (walks : Walks ws o s id a i) (inner : i + 1 < ws.length)
    (there : s.child a (fanout.digit id i) = some b) : Walks ws o s id b (i + 1) := by
  obtain ⟨allocated, path⟩ := placed.inner a _ b there (by rwa [walks.level])
  exact ⟨inner, allocated, path.trans (walks.slot shaped)⟩

theorem quiet (placed : Placed ws o s) (nodes : s'.nodes.length = s.nodes.length)
    (table : s'.vertexTable.length = s.vertexTable.length) (content : s'.content = s.content) :
    Grows o s o s' ∧ Placed ws o s' := by
  have child (a j : Nat) : s'.child a j = s.child a j := congrFun content (.slot a j)
  have root : s'.root = s.root := congrFun content .root
  refine ⟨⟨nodes.ge, fun _ _ => rfl, table.ge, fun _ _ => rfl, fun k v there => ?_⟩, ?_, ?_, ?_, ?_⟩
  · rwa [content]
  · rw [root, nodes]
    exact placed.root
  · intro a j b there
    rw [child] at there
    rw [nodes]
    exact placed.inner a j b there
  · intro a j v there
    rw [child] at there
    rw [table]
    exact placed.leaf a j v there
  · intro b allocated
    rw [nodes] at allocated
    simp only [root, child]
    exact placed.hangs b allocated

theorem growTable (placed : Placed ws o s) (id : NodeID) :
    Grows o s { o with owner := Function.update o.owner s.vertexTable.length id }
        { s with vertexTable := s.vertexTable ++ [({} : Vertex W)] } ∧
      Placed ws { o with owner := Function.update o.owner s.vertexTable.length id }
        { s with vertexTable := s.vertexTable ++ [({} : Vertex W)] } := by
  have old : ∀ v < s.vertexTable.length,
      Function.update o.owner s.vertexTable.length id v = o.owner v :=
    fun v inside => Function.update_of_ne inside.ne id o.owner
  have longer : s.vertexTable.length ≤ (s.vertexTable ++ [({} : Vertex W)]).length := by
    rw [List.length_append]
    exact Nat.le_add_right _ _
  have same : Tree.content { s with vertexTable := s.vertexTable ++ [({} : Vertex W)] } = s.content := by
    funext k
    cases k <;> rfl
  refine ⟨⟨le_rfl, fun _ _ => rfl, longer, old, fun k v there => ?_⟩, placed.root, placed.inner, ?_,
    placed.hangs⟩
  · rwa [same]
  · intro a j v there last
    obtain ⟨inside, spelled⟩ := placed.leaf a j v there last
    refine ⟨inside.trans_le longer, ?_⟩
    change Function.update o.owner s.vertexTable.length id v < _ ∧
      cut ws (Function.update o.owner s.vertexTable.length id v) = _
    rwa [old v inside]

theorem publish (placed : Placed ws o s) {a j v : Nat} (empty : s.content (.slot a j) = none)
    (allocated : a < s.nodes.length) (last : (o.path a).length + 1 = ws.length)
    (inside : v < s.vertexTable.length) (bounded : o.owner v < 2 ^ ws.sum)
    (spelled : cut ws (o.owner v) = o.path a ++ [j]) :
    Grows o s o (s.setChild a j v) ∧ Placed ws o (s.setChild a j v) := by
  have content := s.setChild_content j v allocated
  have kept (k : Place) (w : Nat) (there : s.content k = some w) :
      (s.setChild a j v).content k = some w := by
    have other : k ≠ .slot a j := by
      rintro rfl
      rw [empty] at there
      contradiction
    rwa [content, Function.update_of_ne other]
  have cases_child {b l w : Nat} (there : (s.setChild a j v).child b l = some w) :
      (b = a ∧ l = j ∧ w = v) ∨ s.child b l = some w := by
    rw [Tree.setChild_child] at there
    split at there
    case isTrue here => exact .inl ⟨here.1, here.2.1, (Option.some.inj there).symm⟩
    case isFalse => exact .inr there
  refine ⟨⟨(Tree.setChild_length ..).ge, fun _ _ => rfl, le_rfl, fun _ _ => rfl, kept⟩, ?_, ?_, ?_, ?_⟩
  · rw [Tree.setChild_length]
    exact placed.root
  · intro b l w there inner
    rw [Tree.setChild_length]
    obtain ⟨rfl, -, -⟩ | old := cases_child there
    · omega
    · exact placed.inner b l w old inner
  · intro b l w there last'
    obtain ⟨rfl, rfl, rfl⟩ | old := cases_child there
    · exact ⟨inside, bounded, spelled⟩
    · exact placed.leaf b l w old last'
  · intro b allocated'
    rw [Tree.setChild_length] at allocated'
    cases placed.hangs b allocated' with
    | inl root => exact .inl root
    | inr slot =>
        obtain ⟨p, l, there, inner⟩ := slot
        exact .inr ⟨p, l, kept (.slot p l) b there, inner⟩

theorem newNode (placed : Placed ws o s) {k : Place} {ds : List Nat} (empty : s.content k = none)
    (leads : Leads ws o s ds k) (nodes : s'.nodes.length = s.nodes.length + 1)
    (table : s'.vertexTable.length = s.vertexTable.length)
    (content : s'.content = Function.update s.content k (some s.nodes.length)) :
    Grows o s { o with path := Function.update o.path s.nodes.length ds } s' ∧
      Placed ws { o with path := Function.update o.path s.nodes.length ds } s' := by
  have old : ∀ a < s.nodes.length, Function.update o.path s.nodes.length ds a = o.path a :=
    fun a allocated => Function.update_of_ne allocated.ne ds o.path
  have new : Function.update o.path s.nodes.length ds s.nodes.length = ds := Function.update_self ..
  have kept (l : Place) (w : Nat) (there : s.content l = some w) : s'.content l = some w := by
    have other : l ≠ k := by
      rintro rfl
      rw [empty] at there
      contradiction
    rwa [content, Function.update_of_ne other]
  have cases_content {l : Place} {w : Nat} (there : s'.content l = some w) :
      (l = k ∧ w = s.nodes.length) ∨ s.content l = some w := by
    rw [content] at there
    by_cases here : l = k
    · subst here
      rw [Function.update_self] at there
      exact .inl ⟨rfl, (Option.some.inj there).symm⟩
    · rw [Function.update_of_ne here] at there
      exact .inr there
  refine ⟨⟨by omega, old, table.ge, fun _ _ => rfl, kept⟩, fun r there => ?_, fun a j b there inner => ?_,
    fun a j v there last => ?_, fun b allocated => ?_⟩
  · obtain ⟨rfl, rfl⟩ | before := cases_content (l := .root) there
    · exact ⟨by omega, new.trans leads⟩
    · obtain ⟨allocated, path⟩ := placed.root r before
      exact ⟨by omega, (old r allocated).trans path⟩
  · obtain ⟨rfl, rfl⟩ | before := cases_content (l := .slot a j) there
    · obtain ⟨allocated, spelled, -⟩ := leads
      refine ⟨by omega, ?_⟩
      simp only [new, old a allocated]
      exact spelled
    · simp only [old a (Tree.child_allocated s before)] at inner ⊢
      obtain ⟨allocated, path⟩ := placed.inner a j b before inner
      exact ⟨by omega, (old b allocated).trans path⟩
  · obtain ⟨rfl, -⟩ | before := cases_content (l := .slot a j) there
    · obtain ⟨allocated, -, inner⟩ := leads
      simp only [old a allocated] at last
      omega
    · simp only [old a (Tree.child_allocated s before)] at last ⊢
      rw [table]
      exact placed.leaf a j v before last
  · rw [nodes] at allocated
    cases Nat.lt_succ_iff_lt_or_eq.mp allocated with
    | inl before =>
        cases placed.hangs b before with
        | inl root => exact .inl (kept .root b root)
        | inr slot =>
            obtain ⟨a, j, there, inner⟩ := slot
            refine .inr ⟨a, j, kept (.slot a j) b there, ?_⟩
            simp only [old a (Tree.child_allocated s there)]
            exact inner
    | inr last =>
        subst last
        have there : s'.content k = some s.nodes.length := by rw [content, Function.update_self]
        cases k with
        | root => exact .inl there
        | slot a j =>
            obtain ⟨allocated, -, inner⟩ := leads
            refine .inr ⟨a, j, there, ?_⟩
            simp only [old a allocated]
            exact inner

end Placed

/-! ## One step of one call -/

variable (fanout ws o s id) in
def Proceeds (s' : Tree W) (pc' : Pc) : Prop :=
  ∃ o', Grows o s o' s' ∧ Placed ws o' s' ∧ Stands fanout ws o' s' id pc'

theorem Proceeds.quiet (placed : Placed ws o s) (nodes : s'.nodes.length = s.nodes.length)
    (table : s'.vertexTable.length = s.vertexTable.length) (content : s'.content = s.content)
    (stands : Stands fanout ws o s id pc') : Proceeds fanout ws o s id s' pc' := by
  obtain ⟨grown, placed'⟩ := placed.quiet nodes table content
  exact ⟨o, grown, placed', grown.stands stands⟩

theorem Proceeds.stay (placed : Placed ws o s) (stands : Stands fanout ws o s id pc') :
    Proceeds fanout ws o s id s pc' := .quiet placed rfl rfl rfl stands

theorem storeRoot_proceeds (placed : Placed ws o s) (empty : s.content .root = none) :
    Proceeds fanout ws o s id { s.newNode with root := some s.nodes.length } .unlockRoot := by
  have content : Tree.content { s.newNode with root := some s.nodes.length } =
      Function.update s.content .root (some s.nodes.length) := by
    funext k
    cases k with
    | root => rfl
    | slot a j => exact s.newNode_child a j
  have nodes : ({ s.newNode with root := some s.nodes.length } : Tree W).nodes.length =
      s.nodes.length + 1 := List.length_append
  have leads : Leads ws o s [] .root := rfl
  obtain ⟨grown, placed'⟩ := placed.newNode empty leads nodes rfl content
  exact ⟨_, grown, placed', trivial⟩

theorem storeNode_proceeds (placed : Placed ws o s) {a i : Nat} (walks : Walks ws o s id a i)
    (inner : i + 1 < ws.length) (empty : s.child a (fanout.digit id i) = none) :
    Proceeds fanout ws o s id (s.newNode.setChild a (fanout.digit id i) s.nodes.length)
      (.unlockSlot a i) := by
  have length : s.newNode.nodes.length = s.nodes.length + 1 := List.length_append
  have allocated := walks.2.1
  have content : (s.newNode.setChild a (fanout.digit id i) s.nodes.length).content =
      Function.update s.content (.slot a (fanout.digit id i)) (some s.nodes.length) := by
    rw [s.newNode.setChild_content _ _ (by omega), s.newNode_content]
  obtain ⟨grown, placed'⟩ := placed.newNode (k := .slot a (fanout.digit id i)) empty
    ⟨allocated, rfl, by rwa [walks.level]⟩ ((Tree.setChild_length ..).trans length) rfl content
  exact ⟨_, grown, placed', grown.walks walks, inner⟩

theorem publish_proceeds (shaped : fanout.Shaped ws) (inRange : id < 2 ^ ws.sum)
    (placed : Placed ws o s) {a i v : Nat} (makes : Makes ws o s id a i v)
    (empty : s.child a (fanout.digit id i) = none) :
    Proceeds fanout ws o s id (s.setChild a (fanout.digit id i) v) (.storeId a i v true) := by
  obtain ⟨leaf, rfl, inside⟩ := makes
  have allocated := leaf.1.2.1
  obtain ⟨grown, placed'⟩ := placed.publish (j := fanout.digit (o.owner v) i) empty allocated
    (by rw [leaf.1.level, leaf.2]) inside inRange (leaf.1.last shaped leaf.2).symm
  refine ⟨o, grown, placed', grown.atLeaf leaf, ?_⟩
  rw [Tree.setChild_child, if_pos ⟨rfl, rfl, allocated⟩]

theorem next_proceeds (shaped : fanout.Shaped ws) (levels : ws ≠ []) (inRange : id < 2 ^ ws.sum)
    (placed : Placed ws o s) (stands : Stands fanout ws o s id pc)
    (empty : ∀ k, pc.fills fanout id = some k → s.content k = none)
    (taken : next fanout info id true s pc = some (s', pc')) : Proceeds fanout ws o s id s' pc' := by
  cases pc with
  | checkRoot | recheckRoot =>
      obtain ⟨rfl, rfl⟩ := by simpa [next] using taken
      apply Proceeds.stay placed
      split <;> trivial
  | lockRoot =>
      obtain ⟨-, rfl, rfl⟩ := by simpa [next] using taken
      refine .quiet placed rfl rfl ?_ trivial
      funext k
      cases k <;> rfl
  | storeRoot =>
      obtain ⟨rfl, rfl⟩ := Prod.mk.inj (Option.some.inj taken)
      exact storeRoot_proceeds placed (empty .root rfl)
  | unlockRoot =>
      obtain ⟨rfl, rfl⟩ := by simpa [next] using taken
      refine .quiet placed rfl rfl ?_ trivial
      funext k
      cases k <;> rfl
  | loadRoot =>
      have deep : fanout.depth ≠ 0 := by
        rw [shaped.depth]
        exact (List.length_pos_of_ne_nil levels).ne'
      rw [next, if_neg deep] at taken
      obtain ⟨r, there, ⟨⟩⟩ := Option.map_eq_some_iff.mp taken
      obtain ⟨allocated, path⟩ := placed.root r there
      exact .stay placed ⟨List.length_pos_of_ne_nil levels, allocated, path⟩
  | readChild a i =>
      simp only [next] at taken
      split at taken
      case h_1 =>
        cases taken
        exact .stay placed stands
      case h_2 ptr there =>
        cases taken
        have inside := stands.1
        apply Proceeds.stay placed
        rw [shaped.depth]
        split
        case isTrue => exact ⟨stands, by omega⟩
        case isFalse => exact ⟨a, i, ⟨stands, by omega⟩, there⟩
  | descend a i | insertDescend a i =>
      obtain ⟨ptr, there, ⟨⟩⟩ := Option.map_eq_some_iff.mp taken
      exact .stay placed (placed.descend shaped stands.1 stands.2 there)
  | readSlot a i =>
      have inside := stands.1
      simp only [next] at taken
      split at taken
      case h_1 =>
        cases taken
        apply Proceeds.stay placed
        rw [shaped.depth]
        split
        case isTrue => exact ⟨stands, by omega⟩
        case isFalse => exact ⟨stands, by omega⟩
      case h_2 ptr there =>
        cases taken
        apply Proceeds.stay placed
        rw [shaped.depth]
        split
        case isTrue => exact ⟨stands, by omega⟩
        case isFalse => exact ⟨a, i, ⟨stands, by omega⟩, there⟩
  | lockSlot a i | lockLeaf a i =>
      simp only [next] at taken
      split at taken
      case isTrue => contradiction
      case isFalse =>
        cases taken
        exact .quiet placed (Tree.setLock_length ..) rfl (s.setLock_content ..) stands
  | recheckSlot a i =>
      obtain ⟨rfl, rfl⟩ := by simpa [next] using taken
      apply Proceeds.stay placed
      split <;> exact stands
  | storeNode a i =>
      obtain ⟨rfl, rfl⟩ := by simpa [next] using taken
      exact storeNode_proceeds placed stands.1 stands.2 (empty _ rfl)
  | unlockSlot a i =>
      obtain ⟨rfl, rfl⟩ := by simpa [next] using taken
      exact .quiet placed (Tree.setLock_length ..) rfl (s.setLock_content ..) stands
  | recheckLeaf a i =>
      simp only [next] at taken
      split at taken
      case h_1 =>
        cases taken
        exact .stay placed stands
      case h_2 v there =>
        cases taken
        exact .stay placed ⟨stands, there⟩
  | drawIdx a i =>
      obtain ⟨rfl, rfl⟩ := by simpa [next] using taken
      refine .quiet placed rfl rfl ?_ stands
      funext k
      cases k <;> rfl
  | growTable a i idx =>
      obtain ⟨rfl, rfl⟩ := by simpa [next] using taken
      obtain ⟨grown, placed'⟩ := placed.growTable id
      exact ⟨_, grown, placed', grown.atLeaf stands, Function.update_self .., by simp⟩
  | storeIdx a i idx v | storeNext a i v =>
      obtain ⟨rfl, rfl⟩ := by simpa [next] using taken
      exact .quiet placed rfl (Tree.setVertex_length ..) rfl stands
  | publish a i v =>
      obtain ⟨rfl, rfl⟩ := by simpa [next] using taken
      exact publish_proceeds shaped inRange placed stands (empty _ rfl)
  | storeId a i v made =>
      obtain ⟨rfl, rfl⟩ := by simpa [next] using taken
      exact .quiet placed rfl (Tree.setVertex_length ..) rfl stands
  | unlockLeaf a i v =>
      obtain ⟨rfl, rfl⟩ := by simpa [next] using taken
      exact .quiet placed (Tree.setLock_length ..) rfl (s.setLock_content ..) ⟨a, i, stands⟩
  | returned v => contradiction

/-! ## Runs -/

structure Numbered (numbers : List Nat) (c : State W) : Prop where
  tickets : Redeemed (Pc.drawn ∘ c.local') numbers c.shared.cnt
  length : numbers.length = c.shared.vertexTable.length
  written : ∀ v k : Nat, numbers[v]? = some k →
    c.shared.indices[v]? = some (k : Int) ∨ ∃ t, (c.local' t).writes = some (k, v)
  writes : ∀ t k v, (c.local' t).writes = some (k, v) → numbers[v]? = some k

theorem numbered_draws {numbers : List Nat} (numbered : Numbered numbers c) {t : Nat}
    (taken : next fanout info id insertMode c.shared (c.local' t) = some (s', pc'))
    (table : s'.vertexTable.length = c.shared.vertexTable.length) :
    Redeemed (Pc.drawn ∘ Function.update c.local' t pc') numbers s'.cnt := by
  rw [Function.comp_update]
  obtain ⟨before, after, -, cnt⟩ | ⟨before, after, -, cnt⟩ | ⟨idx, -, -, longer, -⟩ := drawn_cases taken
  · have same : Function.update (Pc.drawn ∘ c.local') t none = Pc.drawn ∘ c.local' :=
      Function.update_eq_self_iff.mpr before.symm
    rw [cnt, after, same]
    exact numbered.tickets
  · rw [cnt, after]
    exact numbered.tickets.draw before
  · omega

theorem numbered_same {numbers : List Nat} (numbered : Numbered numbers c) {t : Nat}
    (taken : next fanout info id insertMode c.shared (c.local' t) = some (s', pc'))
    (before : (c.local' t).writes = none) (after : pc'.writes = none)
    (same : s'.indices = c.shared.indices) : Numbered numbers ⟨s', Function.update c.local' t pc'⟩ := by
  have table : s'.vertexTable.length = c.shared.vertexTable.length := by
    rw [← Tree.indices_length, ← Tree.indices_length, same]
  refine ⟨numbered_draws numbered taken table, numbered.length.trans table.symm, ?_, ?_⟩
  · intro v k there
    rw [same]
    refine (numbered.written v k there).imp_right fun pending => ?_
    refine Threads.exists_update (p := fun pc : Pc => pc.writes = some (k, v)) pending ?_
    rw [before]
    exact fun impossible => nomatch impossible
  · intro u k v pending
    obtain new | old := Threads.of_update (p := fun _ (pc : Pc) => pc.writes = some (k, v)) pending
    · rw [after] at new
      contradiction
    · exact numbered.writes u k v old

theorem numbered_growTable {numbers : List Nat} (numbered : Numbered numbers c) {t a i idx : Nat}
    (here : c.local' t = .growTable a i idx) :
    Numbered (numbers ++ [idx]) ⟨{ c.shared with vertexTable := c.shared.vertexTable ++ [{}] },
      Function.update c.local' t (.storeIdx a i idx c.shared.vertexTable.length)⟩ := by
  have indices : Tree.indices { c.shared with vertexTable := c.shared.vertexTable ++ [({} : Vertex W)] } =
      c.shared.indices ++ [-1] := by simp [Tree.indices]
  refine ⟨?_, ?_, ?_, ?_⟩
  · rw [Function.comp_update]
    apply numbered.tickets.redeem
    rw [Function.comp_apply, here]
    rfl
  · rw [List.length_append, List.length_append, numbered.length]
    rfl
  · intro v k there
    rw [indices]
    by_cases old : v < numbers.length
    · rw [List.getElem?_append_left old] at there
      have inside : v < c.shared.indices.length := by rwa [Tree.indices_length, ← numbered.length]
      rw [List.getElem?_append_left inside]
      refine (numbered.written v k there).imp_right fun pending => ?_
      refine Threads.exists_update (p := fun pc : Pc => pc.writes = some (k, v)) pending ?_
      rw [here]
      exact fun impossible => nomatch impossible
    · right
      have last : v = numbers.length := by
        have := (List.getElem?_eq_some_iff.mp there).1
        rw [List.length_append, List.length_singleton] at this
        omega
      subst last
      rw [List.getElem?_concat_length] at there
      cases there
      refine ⟨t, ?_⟩
      change (Function.update c.local' t _ t).writes = _
      rw [Function.update_self, numbered.length]
      rfl
  · intro u k v pending
    obtain new | old := Threads.of_update (p := fun _ (pc : Pc) => pc.writes = some (k, v)) pending
    · cases new
      rw [← numbered.length, List.getElem?_concat_length]
    · have before := numbered.writes u k v old
      rw [List.getElem?_append_left (List.getElem?_eq_some_iff.mp before).1, before]

theorem numbered_storeIdx {numbers : List Nat} (numbered : Numbered numbers c) {t a i idx v : Nat}
    (here : c.local' t = .storeIdx a i idx v) :
    Numbered numbers ⟨c.shared.setVertex v fun vertex => { vertex with idx := (idx : Int) },
      Function.update c.local' t (.storeNext a i v)⟩ := by
  have number : numbers[v]? = some idx := by
    apply numbered.writes t idx v
    rw [here]
    rfl
  refine ⟨?_, ?_, ?_, ?_⟩
  · have same : Function.update (Pc.drawn ∘ c.local') t none = Pc.drawn ∘ c.local' := by
      apply Function.update_eq_self_iff.mpr
      rw [Function.comp_apply, here]
      rfl
    rw [Function.comp_update]
    exact same.symm ▸ numbered.tickets
  · exact numbered.length.trans (Tree.setVertex_length ..).symm
  · intro w k there
    rw [Tree.setIdx_indices]
    by_cases same : v = w
    · subst same
      obtain rfl : idx = k := Option.some.inj (number.symm.trans there)
      have inside : v < c.shared.indices.length := by
        rw [Tree.indices_length, ← numbered.length]
        exact (List.getElem?_eq_some_iff.mp there).1
      exact .inl (List.getElem?_set_self inside)
    · rw [List.getElem?_set_ne same]
      refine (numbered.written w k there).imp_right fun pending => ?_
      refine Threads.exists_update (p := fun pc : Pc => pc.writes = some (k, w)) pending ?_
      rw [here]
      rintro ⟨⟩
      contradiction
  · intro u k w pending
    obtain new | old := Threads.of_update (p := fun _ (pc : Pc) => pc.writes = some (k, w)) pending
    · contradiction
    · exact numbered.writes u k w old

theorem numbered_step {numbers : List Nat} (numbered : Numbered numbers c) {t : Nat}
    (taken : next fanout info id insertMode c.shared (c.local' t) = some (s', pc')) :
    ∃ numbers', Numbered numbers' ⟨s', Function.update c.local' t pc'⟩ := by
  obtain ⟨-, before, after, same⟩ | ⟨a, i, idx, here, -, -⟩ | ⟨a, i, idx, v, here, -, -⟩ |
    ⟨a, i, v, here, rfl, same⟩ := record_cases taken
  · exact ⟨numbers, numbered_same numbered taken before after same⟩
  · rw [here] at taken
    obtain ⟨rfl, rfl⟩ := Prod.mk.inj (Option.some.inj taken)
    exact ⟨numbers ++ [idx], numbered_growTable numbered here⟩
  · rw [here] at taken
    obtain ⟨rfl, rfl⟩ := Prod.mk.inj (Option.some.inj taken)
    exact ⟨numbers, numbered_storeIdx numbered here⟩
  · refine ⟨numbers, numbered_same numbered taken ?_ rfl same⟩
    rw [here]
    rfl

def inserting (ids : Nat → NodeID) : Requests := ⟨ids, fun _ => true⟩

section

variable (fanout : SORT W) (ws : List Nat) (ids : Nat → NodeID) (begun : List Nat) (o : Origins)
  (c : State W)

def Delivered : Prop := ∀ v < c.shared.vertexTable.length,
  (∃ t, (c.local' t).keeps = some v) ∨
    ∃ a j, c.shared.child a j = some v ∧ (o.path a).length + 1 = ws.length

structure Once : Prop where
  guarded : Guarded (fun t => (c.local' t).holds fanout (ids t)) (fun t => (c.local' t).fills fanout (ids t))
    c.shared.bit c.shared.content
  numbered : ∃ numbers, Numbered numbers c
  placed : ∃ o, Placed ws o c.shared ∧ (∀ t, Stands fanout ws o c.shared (ids t) (c.local' t)) ∧
    Delivered ws o c ∧ ∀ v < c.shared.vertexTable.length, ∃ t ∈ begun, ids t = o.owner v

end

variable {ids : Nat → NodeID} {begun : List Nat}

theorem initial_once : Once fanout ws ids begun (initial : State W) where
  guarded := .start
  numbered := by
    refine ⟨[], .none, rfl, ?_, ?_⟩
    · exact fun _ _ there => nomatch there
    · exact fun _ _ _ pending => nomatch pending
  placed := by
    refine ⟨⟨fun _ => [], fun _ => 0⟩, ⟨?_, ?_, ?_, ?_⟩, fun _ => trivial, ?_, ?_⟩
    · exact fun _ there => nomatch there
    · exact fun _ _ _ there => nomatch there
    · exact fun _ _ _ there => nomatch there
    · exact fun _ impossible => absurd impossible (Nat.not_lt_zero _)
    · exact fun _ impossible => absurd impossible (Nat.not_lt_zero _)
    · exact fun _ impossible => absurd impossible (Nat.not_lt_zero _)

theorem Stands.node_allocated (stands : Stands fanout ws o s id pc) (a : Nat) (node : pc.node = some a) :
    a < s.nodes.length := by
  cases pc with
  | lockSlot | storeNode | unlockSlot =>
      cases node
      exact stands.1.2.1
  | lockLeaf =>
      cases node
      exact stands.1.2.1
  | publish | unlockLeaf =>
      cases node
      exact stands.1.1.2.1
  | _ => contradiction

theorem guarded_step {t : Nat}
    (guarded : Guarded (fun t => (c.local' t).holds fanout (ids t)) (fun t => (c.local' t).fills fanout (ids t))
      c.shared.bit c.shared.content)
    (stands : Stands fanout ws o c.shared (ids t) (c.local' t))
    (taken : next fanout info (ids t) insertMode c.shared (c.local' t) = some (s', pc')) :
    Guarded (fun u => (Function.update c.local' t pc' u).holds fanout (ids u))
        (fun u => (Function.update c.local' t pc' u).fills fanout (ids u)) s'.bit s'.content ∧
      ∀ k v, c.shared.content k = some v → s'.content k = some v := by
  have touches := touches_of_next stands.node_allocated taken
  have moved := guarded.touch (t := t) touches
  have holds : (fun u => (Function.update c.local' t pc' u).holds fanout (ids u)) =
      Function.update (fun u => (c.local' u).holds fanout (ids u)) t (pc'.holds fanout (ids t)) :=
    funext fun u => Function.apply_update (fun u pc => Pc.holds fanout (ids u) pc) c.local' t pc' u
  have fills : (fun u => (Function.update c.local' t pc' u).fills fanout (ids u)) =
      Function.update (fun u => (c.local' u).fills fanout (ids u)) t (pc'.fills fanout (ids t)) :=
    funext fun u => Function.apply_update (fun u pc => Pc.fills fanout (ids u) pc) c.local' t pc' u
  rw [holds, fills]
  exact ⟨moved, fun k v there => guarded.touch_kept (t := t) touches there⟩

theorem table_step (taken : next fanout info id insertMode s pc = some (s', pc')) :
    s'.vertexTable.length = s.vertexTable.length ∨ ∃ a i idx,
      pc = .growTable a i idx ∧ pc' = .storeIdx a i idx s.vertexTable.length ∧
        s'.vertexTable.length = s.vertexTable.length + 1 := by
  have before := s.indices_length
  have after := s'.indices_length
  obtain ⟨-, -, -, same⟩ | ⟨a, i, idx, here, there, longer⟩ | ⟨a, i, idx, v, -, -, stored⟩ |
    ⟨a, i, v, -, -, same⟩ := record_cases taken
  · rw [same] at after
    exact .inl (after.symm.trans before)
  · rw [longer, List.length_append, before] at after
    exact .inr ⟨a, i, idx, here, there, after.symm⟩
  · rw [stored, List.length_set] at after
    exact .inl (after.symm.trans before)
  · rw [same] at after
    exact .inl (after.symm.trans before)

theorem delivered_step {t : Nat} (delivered : Delivered ws o c)
    (grown : Grows o c.shared o' s')
    (taken : next fanout info id insertMode c.shared (c.local' t) = some (s', pc'))
    (arrived : Stands fanout ws o' s' id pc') :
    Delivered ws o' ⟨s', Function.update c.local' t pc'⟩ := by
  -- a record stays where it is, unless this call publishes it
  have settled {v : Nat} (inside : v < c.shared.vertexTable.length)
      (still : (c.local' t).keeps = some v → pc'.keeps = some v ∨
        ∃ a j, s'.child a j = some v ∧ (o'.path a).length + 1 = ws.length) :
      (∃ u, (Function.update c.local' t pc' u).keeps = some v) ∨
        ∃ a j, s'.child a j = some v ∧ (o'.path a).length + 1 = ws.length := by
    cases delivered v inside with
    | inl held =>
        by_cases moved : ∃ a j, s'.child a j = some v ∧ (o'.path a).length + 1 = ws.length
        · exact .inr moved
        · refine .inl (Threads.exists_update (p := fun pc : Pc => pc.keeps = some v) held fun keeps => ?_)
          exact (still keeps).resolve_right moved
    | inr slot =>
        obtain ⟨a, j, there, last⟩ := slot
        have allocated := Tree.child_allocated c.shared there
        exact .inr ⟨a, j, grown.content (.slot a j) v there, by rwa [grown.path a allocated]⟩
  intro v inside
  by_cases old : v < c.shared.vertexTable.length
  · apply settled old
    intro before
    obtain ⟨keeps, -, -, -⟩ | ⟨a, i, idx, here, -, -⟩ | ⟨a, i, idx, w, here, rfl, -⟩ |
      ⟨a, i, w, here, rfl, -⟩ := record_cases taken
    · exact .inl (keeps.trans before)
    · rw [here] at before
      contradiction
    · rw [here] at before
      exact .inl before
    · rw [here] at before
      cases before
      obtain ⟨⟨walks, last⟩, there⟩ := arrived
      exact .inr ⟨a, _, there, by rwa [walks.level]⟩
  · change v < s'.vertexTable.length at inside
    obtain same | ⟨a, i, idx, -, rfl, longer⟩ := table_step taken
    · omega
    · obtain rfl : v = c.shared.vertexTable.length := by omega
      refine .inl ⟨t, ?_⟩
      change (Function.update c.local' t _ t).keeps = _
      rw [Function.update_self]
      rfl

theorem asked_step {t : Nat} (member : t ∈ begun)
    (asked : ∀ v < c.shared.vertexTable.length, ∃ u ∈ begun, ids u = o.owner v)
    (grown : Grows o c.shared o' s')
    (taken : next fanout info (ids t) insertMode c.shared (c.local' t) = some (s', pc'))
    (arrived : Stands fanout ws o' s' (ids t) pc') :
    ∀ v < s'.vertexTable.length, ∃ u ∈ begun, ids u = o'.owner v := by
  intro v inside
  by_cases old : v < c.shared.vertexTable.length
  · rw [grown.owner v old]
    exact asked v old
  · obtain same | ⟨a, i, idx, -, rfl, longer⟩ := table_step taken
    · omega
    · obtain rfl : v = c.shared.vertexTable.length := by omega
      exact ⟨t, member, arrived.2.1.symm⟩

theorem once_step (shaped : fanout.Shaped ws) (levels : ws ≠ []) (inRange : ∀ t, ids t < 2 ^ ws.sum)
    {t : Nat} (once : Once fanout ws ids begun c) (member : t ∈ begun)
    (taken : Threads.step (nextOf fanout info (inserting ids)) c t = some c') :
    Once fanout ws ids begun c' ∧ ∀ k v, c.shared.content k = some v → c'.shared.content k = some v := by
  obtain ⟨guarded, ⟨numbers, numbered⟩, o, placed, stands, delivered, asked⟩ := once
  obtain ⟨s', pc', moved, rfl⟩ := Threads.step_eq_some.mp taken
  obtain ⟨guarded', kept⟩ := guarded_step guarded (stands t) moved
  obtain ⟨o', grown, placed', arrived⟩ := next_proceeds shaped levels (inRange t) placed (stands t)
    (guarded.empty t) moved
  refine ⟨⟨guarded', numbered_step numbered moved, o', placed', fun u => ?_, ?_, ?_⟩, kept⟩
  · change Stands fanout ws o' s' (ids u) (Function.update c.local' t pc' u)
    by_cases here : u = t
    · subst here
      rwa [Function.update_self]
    · rw [Function.update_of_ne here]
      exact grown.stands (stands u)
  · exact delivered_step delivered grown moved arrived
  · exact asked_step member asked grown moved arrived

structure OnceSince (fanout : SORT W) (ws : List Nat) (ids : Nat → NodeID) (begun : List Nat)
    (c d : State W) : Prop where
  once : Once fanout ws ids begun d
  kept : ∀ k v, c.shared.content k = some v → d.shared.content k = some v

theorem once_run (shaped : fanout.Shaped ws) (levels : ws ≠ []) (inRange : ∀ t, ids t < 2 ^ ws.sum)
    (once : Once fanout ws ids begun c) {schedule : List Nat} (inside : ∀ t ∈ schedule, t ∈ begun)
    (ran : Threads.run (nextOf fanout info (inserting ids)) c schedule = some c') :
    OnceSince fanout ws ids begun c c' := by
  have free : Threads.Meets (nextOf fanout info (inserting ids)) (fun _ _ => True) c schedule :=
    .of_forall fun _ _ => trivial
  have start : OnceSince fanout ws ids begun c c := ⟨once, fun _ _ there => there⟩
  refine Threads.run_invariant (fun d t d' since condition taken => ?_) (free.within inside) ran start
  obtain ⟨after, kept⟩ := once_step shaped levels inRange since.once condition.2 taken
  exact ⟨after, fun k v there => kept k v (since.kept k v there)⟩

theorem Once.returned (once : Once fanout ws ids begun c) {t : Nat} {v : Option Nat}
    (ended : c.local' t = .returned v) : ∃ w, v = some w ∧ w < c.shared.vertexTable.length := by
  obtain ⟨-, -, o, placed, stands, -, -⟩ := once
  have found := stands t
  rw [ended] at found
  cases v with
  | none => exact found.elim
  | some w =>
      obtain ⟨a, i, ⟨walks, last⟩, there⟩ := found
      exact ⟨w, rfl, (placed.leaf a _ w there (by rwa [walks.level])).1⟩

theorem Once.same_iff (shaped : fanout.Shaped ws) (inRange : ∀ t, ids t < 2 ^ ws.sum)
    (once : Once fanout ws ids begun c) {t u v w : Nat} (ended : c.local' t = .returned (some v))
    (ended' : c.local' u = .returned (some w)) : v = w ↔ ids t = ids u := by
  obtain ⟨-, -, o, placed, stands, -, -⟩ := once
  have found := stands t
  have found' := stands u
  rw [ended] at found
  rw [ended'] at found'
  obtain ⟨a, i, found⟩ := found
  obtain ⟨b, k, found'⟩ := found'
  constructor
  · rintro rfl
    exact (placed.owner shaped (inRange t) found).symm.trans (placed.owner shaped (inRange u) found')
  · intro same
    rw [← same] at found'
    obtain ⟨rfl, rfl⟩ := placed.same_leaf found.1 found'.1
    exact Option.some.inj (found.2.symm.trans found'.2)

def Idle (c : State W) : Prop := ∀ t, c.local' t = .checkRoot ∨ ∃ v, c.local' t = .returned v

theorem Numbered.indices {numbers : List Nat} (numbered : Numbered numbers c) (idle : Idle c) :
    c.shared.indices = numbers.map fun k : Nat => (k : Int) := by
  apply List.ext_getElem?
  intro v
  rw [List.getElem?_map]
  cases there : numbers[v]? with
  | none =>
      have beyond := List.getElem?_eq_none_iff.mp there
      rw [numbered.length, ← Tree.indices_length] at beyond
      exact List.getElem?_eq_none beyond
  | some k =>
      cases numbered.written v k there with
      | inl written => exact written
      | inr pending =>
          obtain ⟨t, writes⟩ := pending
          obtain start | ⟨v, ended⟩ := idle t
          · rw [start] at writes
            contradiction
          · rw [ended] at writes
            contradiction

theorem Numbered.perm_range {numbers : List Nat} (numbered : Numbered numbers c) (idle : Idle c) :
    numbers.Perm (List.range c.shared.cnt) := by
  apply numbered.tickets.perm_range
  intro t
  obtain start | ⟨v, ended⟩ := idle t
  · rw [Function.comp_apply, start]
    rfl
  · rw [Function.comp_apply, ended]
    rfl

theorem Once.owners (shaped : fanout.Shaped ws) (inRange : ∀ t, ids t < 2 ^ ws.sum)
    (once : Once fanout ws ids begun c) (idle : Idle c)
    (ended : ∀ t ∈ begun, ∃ v, c.local' t = .returned v) :
    c.shared.vertexTable.length = (begun.map ids).toFinset.card := by
  have records := fun t v (here : c.local' t = .returned v) => once.returned here
  obtain ⟨-, -, o, placed, stands, delivered, asked⟩ := once
  have slots {v : Nat} (inside : v < c.shared.vertexTable.length) :
      ∃ a j, c.shared.child a j = some v ∧ (o.path a).length + 1 = ws.length := by
    apply (delivered v inside).resolve_left
    rintro ⟨t, keeps⟩
    obtain start | ⟨v, returned⟩ := idle t
    · rw [start] at keeps
      contradiction
    · rw [returned] at keeps
      contradiction
  have distinct : ((List.range c.shared.vertexTable.length).map o.owner).Nodup := by
    apply List.Nodup.map_on ?_ List.nodup_range
    intro v inside w inside' same
    obtain ⟨a, j, there, last⟩ := slots (List.mem_range.mp inside)
    obtain ⟨b, l, there', last'⟩ := slots (List.mem_range.mp inside')
    have spelled := (placed.leaf a j v there last).2.2
    rw [same, (placed.leaf b l w there' last').2.2] at spelled
    obtain ⟨path, digit⟩ := List.append_inj' spelled rfl
    cases digit
    obtain rfl : b = a := placed.apart (Tree.child_allocated _ there') (Tree.child_allocated _ there) path
    exact Option.some.inj (there.symm.trans there')
  have members : ((List.range c.shared.vertexTable.length).map o.owner).toFinset =
      (begun.map ids).toFinset := by
    ext id
    rw [List.mem_toFinset, List.mem_toFinset, List.mem_map, List.mem_map]
    constructor
    · rintro ⟨v, inside, rfl⟩
      exact asked v (List.mem_range.mp inside)
    · rintro ⟨t, member, rfl⟩
      obtain ⟨v, returned⟩ := ended t member
      obtain ⟨w, rfl, inside⟩ := records t v returned
      have found := stands t
      rw [returned] at found
      obtain ⟨a, i, found⟩ := found
      exact ⟨w, List.mem_range.mpr inside, placed.owner shaped (inRange t) found⟩
  rw [← members, List.toFinset_card_of_nodup distinct, List.length_map, List.length_range]

/-- However their steps interleave, calls for one id return one record and calls for two ids return
two; what a slot holds stays there; and when all calls have returned, `cnt`, the table and the ids
that were asked for agree in number, and the indices are those below `cnt`. -/
theorem insertions_once {fanout : SORT W} {ws : List Nat} (fresh : SORT.Constructed fanout ws)
    (info : GlobalInfo) (ids : Nat → NodeID) (inRange : ∀ t, ids t < 2 ^ ws.sum)
    {schedule : List Nat} {c : State W}
    (ran : Threads.run (nextOf fanout info (inserting ids)) initial schedule = some c) :
    (∀ t v, c.local' t = .returned v → ∃ w, v = some w ∧ w < c.shared.vertexTable.length) ∧
    (∀ t u v w, c.local' t = .returned v → c.local' u = .returned w → (v = w ↔ ids t = ids u)) ∧
    (∀ earlier later middle, schedule = earlier ++ later →
      Threads.run (nextOf fanout info (inserting ids)) initial earlier = some middle →
      ∀ k v, middle.shared.content k = some v → c.shared.content k = some v) ∧
    ((∀ t ∈ schedule, ∃ v, c.local' t = .returned v) →
      c.shared.cnt = (schedule.map ids).toFinset.card ∧
      c.shared.vertexTable.length = (schedule.map ids).toFinset.card ∧
      c.shared.indices.Perm ((List.range c.shared.cnt).map fun k : Nat => (k : Int))) := by
  have shaped := fresh.dictionary.shaped
  have levels : ws ≠ [] := fresh.fanout.2
  have once : Once fanout ws ids schedule c :=
    (once_run shaped levels inRange initial_once (fun _ member => member) ran).once
  refine ⟨fun t v ended => once.returned ended, fun t u v w ended ended' => ?_, ?_, fun ended => ?_⟩
  · obtain ⟨v, rfl, -⟩ := once.returned ended
    obtain ⟨w, rfl, -⟩ := once.returned ended'
    rw [Option.some_inj]
    exact once.same_iff shaped inRange ended ended'
  · rintro earlier later middle rfl first
    rw [Threads.run_append, first, Option.bind_some] at ran
    have before : Once fanout ws ids (earlier ++ later) middle :=
      (once_run shaped levels inRange initial_once (fun t member => List.mem_append_left _ member) first).once
    exact (once_run shaped levels inRange before (fun t member => List.mem_append_right _ member) ran).kept
  · have idle : Idle c := fun t => by
      by_cases member : t ∈ schedule
      · exact .inr (ended t member)
      · exact .inl (Threads.run_local_absent member ran)
    have owners := once.owners shaped inRange idle ended
    obtain ⟨-, ⟨numbers, numbered⟩, -⟩ := once
    have perm := numbered.perm_range idle
    have counted : c.shared.cnt = c.shared.vertexTable.length := by
      rw [← numbered.length, perm.length_eq, List.length_range]
    refine ⟨counted.trans owners, owners, ?_⟩
    rw [numbered.indices idle]
    exact perm.map _

/-- Call 2 asks for the id of call 0 again. -/
theorem insertions_once_overtaken : ∃ c : State Nat,
    Threads.run (nextOf (SORT.ofVector [1]) ⟨0, true⟩ (inserting (· % 2))) initial
        (overtaken ++ List.replicate 3 2) = some c ∧
      c.shared.cnt = 2 ∧ c.shared.indices.Perm [0, 1] := by
  have fresh : SORT.Constructed (SORT.ofVector [1] : SORT Nat) [1] := .vector (by decide)
  have inRange (t : Nat) : t % 2 < 2 ^ [1].sum := Nat.mod_lt t (by decide)
  have ends : (Threads.run (nextOf (SORT.ofVector [1]) ⟨0, true⟩ (inserting (· % 2))) (initial : State Nat)
      (overtaken ++ List.replicate 3 2)).map (fun c => (c.local' 0, c.local' 1, c.local' 2)) =
      some (.returned (some 1), .returned (some 0), .returned (some 1)) := by decide
  obtain ⟨c, ran, returned⟩ := Option.map_eq_some_iff.mp ends
  simp only [Prod.mk.injEq] at returned
  obtain ⟨zero, one, two⟩ := returned
  obtain ⟨-, -, -, settled⟩ := insertions_once fresh ⟨0, true⟩ (· % 2) inRange ran
  have ended : ∀ t ∈ overtaken ++ List.replicate 3 2, ∃ v, c.local' t = .returned v := by
    have members : ∀ t ∈ overtaken ++ List.replicate 3 2, t = 0 ∨ t = 1 ∨ t = 2 := by decide
    intro t member
    obtain rfl | rfl | rfl := members t member
    · exact ⟨_, zero⟩
    · exact ⟨_, one⟩
    · exact ⟨_, two⟩
  obtain ⟨counted, -, numbered⟩ := settled ended
  have distinct : ((overtaken ++ List.replicate 3 2).map (· % 2)).toFinset.card = 2 := by decide
  rw [distinct] at counted
  rw [counted] at numbered
  exact ⟨c, ran, counted, numbered⟩

end Concurrent

end Radix
