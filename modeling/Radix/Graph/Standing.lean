import Radix.Graph.Listings
import Radix.Graph.VertexArray

/-!
# What a client knows

`RadixGraph` offers the same functions over the tree and over the plain array. From the calls of a client alone
follows which vertices are there and which edges may be listed.
-/

namespace Radix

open Lib Lib.LastWrite

structure Api (G W : Type) [Zero W] where
  insertEdge : G → NodeID → NodeID → W → Result (Bool × G)
  updateEdge : G → NodeID → NodeID → W → Result (Bool × G)
  deleteEdge : G → NodeID → NodeID → Result (Bool × G)
  createSnapshots : G → Bool → Bool → Result G
  deleteVertex : G → NodeID → Result (Bool × G)
  getNeighbours : G → NodeID → List (WeightedEdge W) → Int → Result (Bool × List (WeightedEdge W) × G)
  getNeighboursByOffset : G → Int → List (WeightedEdge W) → Int → Result (Bool × List (WeightedEdge W) × G)
  getInternalID : G → NodeID → Result Int
  getExternalID : G → Int → Result NodeID
  globalTimestamp : G → Int

variable {W : Type} [Zero W]

def RadixGraph.api [DecidableEq W] (P : Platform W) : Api (RadixGraph W) W where
  insertEdge := RadixGraph.insertEdge P
  updateEdge := RadixGraph.updateEdge P
  deleteEdge := RadixGraph.deleteEdge P
  createSnapshots := RadixGraph.createSnapshots P
  deleteVertex := RadixGraph.deleteVertex
  getNeighbours := RadixGraph.getNeighbours
  getNeighboursByOffset := RadixGraph.getNeighboursByOffset
  getInternalID := RadixGraph.getInternalID
  getExternalID := RadixGraph.getExternalID
  globalTimestamp g := g.global.globalTimestamp

def ArrayGraph.api [DecidableEq W] (P : Platform W) : Api (ArrayGraph W) W where
  insertEdge := ArrayGraph.insertEdge P
  updateEdge := ArrayGraph.updateEdge P
  deleteEdge := ArrayGraph.deleteEdge P
  createSnapshots := ArrayGraph.createSnapshots P
  deleteVertex := ArrayGraph.deleteVertex
  getNeighbours := ArrayGraph.getNeighbours
  getNeighboursByOffset := ArrayGraph.getNeighboursByOffset
  getInternalID := ArrayGraph.getInternalID
  getExternalID := ArrayGraph.getExternalID
  globalTimestamp g := g.global.globalTimestamp

/-- A call by a client; the reads under an internal id use the one that `GetInternalID` returns. -/
inductive Request (W : Type) where
  | insertEdge (src des : NodeID) (weight : W)
  | updateEdge (src des : NodeID) (weight : W)
  | deleteEdge (src des : NodeID)
  | createSnapshots (sortNeighbours makeDense : Bool)
  | deleteVertex (id : NodeID)
  | getNeighbours (src : NodeID) (timestamp : Int)
  | getNeighboursByOffset (src : NodeID) (timestamp : Int)
  | getExternalID (id : NodeID)
  deriving DecidableEq

/-- What the client sees; `absent` where `GetInternalID` returns -1. -/
inductive Reply (W : Type) where
  | done
  | flag (b : Bool)
  | neighbours (found : Bool) (edges : List (NodeID × W))
  | absent
  | vertex (id : NodeID)
  deriving DecidableEq

namespace Api

variable {G : Type}

def named (api : Api G W) (g : G) (edges : List (WeightedEdge W)) : Result (List (NodeID × W)) :=
  edges.mapM fun e => do
    let id ← api.getExternalID g e.idx
    .ok (id, e.weight)

def request (api : Api G W) (g : G) : Request W → Result (Reply W × G)
  | .insertEdge src des weight => do
      let (b, g) ← api.insertEdge g src des weight
      .ok (.flag b, g)
  | .updateEdge src des weight => do
      let (b, g) ← api.updateEdge g src des weight
      .ok (.flag b, g)
  | .deleteEdge src des => do
      let (b, g) ← api.deleteEdge g src des
      .ok (.flag b, g)
  | .createSnapshots sortNeighbours makeDense => do
      let g ← api.createSnapshots g sortNeighbours makeDense
      .ok (.done, g)
  | .deleteVertex id => do
      let (b, g) ← api.deleteVertex g id
      .ok (.flag b, g)
  | .getNeighbours src timestamp => do
      let (found, edges, g) ← api.getNeighbours g src [] timestamp
      let edges ← api.named g edges
      .ok (.neighbours found edges, g)
  | .getNeighboursByOffset src timestamp => do
      let k ← api.getInternalID g src
      if k = -1 then .ok (.absent, g)
      else do
        let (found, edges, g) ← api.getNeighboursByOffset g k [] timestamp
        let edges ← api.named g edges
        .ok (.neighbours found edges, g)
  | .getExternalID id => do
      let k ← api.getInternalID g id
      if k = -1 then .ok (.absent, g)
      else do
        let id ← api.getExternalID g k
        .ok (.vertex id, g)

def serve (api : Api G W) : G → List (Request W) → Result (List (Reply W) × G)
  | g, [] => .ok ([], g)
  | g, c :: calls => do
      let (reply, g) ← api.request g c
      let (replies, g) ← api.serve g calls
      .ok (reply :: replies, g)

end Api

def Reply.Alike : Reply W → Reply W → Prop
  | .neighbours found edges, .neighbours found' edges' => found = found' ∧ ∀ e, e ∈ edges ↔ e ∈ edges'
  | r, r' => r = r'

def Alike {G H : Type} (api : Api G W) (api' : Api H W) (g : G) (h : H) (calls : List (Request W)) : Prop :=
  ∃ replies g' replies' h', api.serve g calls = .ok (replies, g') ∧ api'.serve h calls = .ok (replies', h') ∧
    List.Forall₂ Reply.Alike replies replies'

namespace Request

def ids : Request W → List NodeID
  | .insertEdge src des _ | .updateEdge src des _ | .deleteEdge src des => [src, des]
  | .createSnapshots _ _ => []
  | .deleteVertex id | .getNeighbours id _ | .getNeighboursByOffset id _ | .getExternalID id => [id]

/-- The ids are below `2 ^ B` and at most `max_vertex_id`. -/
def InRange (B maxVertexID : Nat) (c : Request W) : Prop := ∀ id ∈ c.ids, id < 2 ^ B ∧ id ≤ maxVertexID

def Plain : Request W → Prop
  | .insertEdge _ _ weight => weight ≠ 0
  | .getNeighbours _ timestamp | .getNeighboursByOffset _ timestamp => timestamp = maxTimestamp
  | _ => True

end Request

/-! ## Who is there -/

/-- What the calls say: the vertices that have been inserted, those that have been deleted, the edges that may
be listed, and the vertices whose edge arrays may have changed. -/
structure Standing where
  known : List NodeID := []
  dead : List NodeID := []
  edges : List (NodeID × NodeID) := []
  written : List NodeID := []

namespace Standing

def Alive (s : Standing) (id : NodeID) : Prop := id ∈ s.known ∧ id ∉ s.dead

instance (s : Standing) (id : NodeID) : Decidable (s.Alive id) := inferInstanceAs (Decidable (_ ∧ _))

def enter (s : Standing) (id : NodeID) : Standing := { s with known := id :: s.known }

def write (s : Standing) (src des : NodeID) (present : Bool) : Standing :=
  { s with
    edges := if present then (src, des) :: s.edges else s.edges.filter (· ≠ (src, des))
    written := src :: s.written }

def after [DecidableEq W] (s : Standing) : Request W → Standing
  | .insertEdge src des _ => ((s.enter src).enter des).write src des true
  | .updateEdge src des weight => if s.Alive src ∧ s.Alive des then s.write src des (weight ≠ 0) else s
  | .deleteEdge src des => if s.Alive src ∧ s.Alive des then s.write src des false else s
  | .createSnapshots _ _ => { s with written := s.known ++ s.written }
  | .deleteVertex id => if id ∈ s.known then { s with dead := id :: s.dead } else s
  | _ => s

/-- A read lists no edge, and none is by the internal id of a vertex that is there. At a timestamp of its own a
read of a known vertex comes before all changes of its edge array. -/
def Blank (s : Standing) : Request W → Prop
  | .getNeighbours src timestamp => src ∉ s.known ∨ s.Alive src ∧ src ∉ s.written ∨
      timestamp = maxTimestamp ∧ (src ∈ s.dead ∨ ∀ e ∈ s.edges, e.1 ≠ src)
  | .getNeighboursByOffset src _ | .getExternalID src => ¬ s.Alive src
  | _ => True

instance (s : Standing) : (c : Request W) → Decidable (s.Blank c)
  | .getNeighbours _ _ => inferInstanceAs (Decidable (_ ∨ _))
  | .getNeighboursByOffset _ _ | .getExternalID _ => inferInstanceAs (Decidable (¬ _))
  | .insertEdge _ _ _ | .updateEdge _ _ _ | .deleteEdge _ _ | .createSnapshots _ _ | .deleteVertex _ => .isTrue trivial

def reply (s : Standing) : Request W → Reply W
  | .insertEdge _ _ _ => .flag true
  | .updateEdge src des _ | .deleteEdge src des => .flag (s.Alive src ∧ s.Alive des)
  | .createSnapshots _ _ => .done
  | .deleteVertex id => .flag (id ∈ s.known)
  | .getNeighbours src timestamp => .neighbours (s.Alive src ∧ 0 ≤ timestamp) []
  | .getNeighboursByOffset _ _ | .getExternalID _ => .absent

def replies [DecidableEq W] : Standing → List (Request W) → List (Reply W)
  | _, [] => []
  | s, c :: calls => s.reply c :: (s.after c).replies calls

omit [Zero W] in
theorem reply_alike (r : Reply W) : r.Alike r := by
  cases r with
  | neighbours found edges => exact ⟨rfl, fun _ => Iff.rfl⟩
  | _ => exact rfl

omit [Zero W] in
theorem Blank.alive {s : Standing} {src : NodeID} {timestamp : Int}
    (blank : s.Blank (.getNeighbours src timestamp : Request W)) (alive : s.Alive src) :
    src ∉ s.written ∨ timestamp = maxTimestamp ∧ ∀ e ∈ s.edges, e.1 ≠ src := by
  rcases blank with unknown | ⟨-, fresh⟩ | ⟨late, dead | none⟩
  · exact absurd alive.1 unknown
  · exact .inl fresh
  · exact absurd dead alive.2
  · exact .inr ⟨late, none⟩

omit [Zero W] in
theorem Blank.gone {s : Standing} {src : NodeID} {timestamp : Int}
    (blank : s.Blank (.getNeighbours src timestamp : Request W)) (known : src ∈ s.known) (gone : ¬ s.Alive src) :
    src ∈ s.dead ∧ timestamp = maxTimestamp := by
  have dead : src ∈ s.dead := by
    by_contra undeleted
    exact gone ⟨known, undeleted⟩
  rcases blank with unknown | ⟨alive, -⟩ | ⟨late, -⟩
  · exact absurd known unknown
  · exact absurd alive gone
  · exact ⟨dead, late⟩

structure Sound (s : Standing) : Prop where
  ends : ∀ e ∈ s.edges, e.1 ∈ s.known ∧ e.2 ∈ s.known
  buried : ∀ id ∈ s.dead, id ∈ s.known

variable {s s' : Standing}

theorem Sound.enter (sound : s.Sound) (id : NodeID) : (s.enter id).Sound where
  ends e member := by
    obtain ⟨source, target⟩ := sound.ends e member
    exact ⟨List.mem_cons_of_mem id source, List.mem_cons_of_mem id target⟩
  buried other dead := List.mem_cons_of_mem id (sound.buried other dead)

theorem mem_write {src des : NodeID} {present : Bool} {e : NodeID × NodeID} :
    e ∈ (s.write src des present).edges ↔ if e = (src, des) then present = true else e ∈ s.edges := by
  rw [write]
  cases present with
  | true =>
      rw [if_pos rfl, List.mem_cons]
      split
      · rename_i same
        simp [same]
      · rename_i other
        simp [other]
  | false =>
      rw [if_neg Bool.false_ne_true, List.mem_filter]
      split
      · rename_i same
        simp [same]
      · rename_i other
        simp [other]

theorem Sound.write (sound : s.Sound) {src des : NodeID} (source : src ∈ s.known) (target : des ∈ s.known)
    (present : Bool) : (s.write src des present).Sound where
  ends e member := by
    rw [mem_write] at member
    split at member
    · rename_i same
      subst same
      exact ⟨source, target⟩
    · exact sound.ends e member
  buried := sound.buried

theorem known_after [DecidableEq W] {c : Request W} {id : NodeID} (inside : id ∈ (s.after c).known) :
    id ∈ s.known ∨ id ∈ c.ids := by
  cases c with
  | insertEdge src des weight =>
      rcases List.mem_cons.mp inside with rfl | inside
      · exact .inr (by simp [Request.ids])
      · rcases List.mem_cons.mp inside with rfl | old
        · exact .inr (by simp [Request.ids])
        · exact .inl old
  | updateEdge _ _ _ | deleteEdge _ _ | deleteVertex _ =>
      rw [after] at inside
      split at inside
      · exact .inl inside
      · exact .inl inside
  | _ => exact .inl inside

/-! ## What is listed -/

variable [DecidableEq W]

/-- The page of a vertex lists what the calls say, under the internal ids that stand for the vertices. -/
structure Lists (weighted : Prop) (s : Standing) (stands : Int → NodeID → Prop) (id : NodeID) (p : Page W) : Prop where
  spans : p.Spans weighted fun i => ∃ des, stands i des ∧ (id, des) ∈ s.edges
  blank : id ∉ s.written → p.Blank

namespace Lists

variable {weighted : Prop} {stands stands' : Int → NodeID → Prop} {id : NodeID} {p p' : Page W} {info : GlobalInfo}

theorem fresh (info : GlobalInfo) (none : ∀ des, (id, des) ∉ s.edges) :
    s.Lists weighted stands id (Page.fresh info : Page W) where
  spans := (Page.Spans.fresh info).congr fun i => by
    constructor
    · exact False.elim
    · rintro ⟨des, -, edge⟩
      exact none des edge
  blank _ := ⟨rfl, rfl, rfl⟩

theorem congr (lists : s.Lists weighted stands id p) (edges : ∀ des, (id, des) ∈ s'.edges ↔ (id, des) ∈ s.edges)
    (written : s.written ⊆ s'.written)
    (same : ∀ i des, (id, des) ∈ s.edges → (stands' i des ↔ stands i des)) : s'.Lists weighted stands' id p where
  spans := lists.spans.congr fun i => exists_congr fun des => by
    rw [edges des]
    constructor
    · rintro ⟨here, edge⟩
      exact ⟨(same i des edge).mpr here, edge⟩
    · rintro ⟨here, edge⟩
      exact ⟨(same i des edge).mp here, edge⟩
  blank outside := lists.blank fun member => outside (written member)

theorem write {src des : NodeID} (lists : s.Lists weighted stands src p) {e : WeightedEdge W} {delta : Int}
    {ticks' : Nat} (logs : p.Logs info e delta ticks' p') (here : stands e.idx des)
    (one : ∀ des', stands e.idx des' → des' = des) (alone : ∀ i, stands i des → i = e.idx) (small : delta ≤ 1)
    {present : Bool} (kind : present = true ↔ e.live = true ∨ delta = 1) (weighs : weighted → delta = 1 → e.live) :
    (s.write src des present).Lists weighted stands src p' where
  spans := (lists.spans.logs logs small weighs).congr fun i => by
    by_cases same : i = e.idx
    · subst same
      rw [if_pos rfl, ← kind]
      constructor
      · intro listed
        exact ⟨des, here, mem_write.mpr (by rwa [if_pos rfl])⟩
      · rintro ⟨des', here', edge⟩
        rw [one des' here', mem_write, if_pos rfl] at edge
        exact edge
    · rw [if_neg same]
      refine exists_congr fun des' => and_congr_right fun here' => ?_
      rw [mem_write, if_neg]
      intro equal
      rw [(Prod.mk.inj equal).2] at here'
      exact same (alone i here')
  blank outside := absurd List.mem_cons_self outside

theorem read (lists : s.Lists weighted stands id p) {timestamp : Int}
    (blank : id ∉ s.written ∨ timestamp = maxTimestamp ∧ ∀ e ∈ s.edges, e.1 ≠ id) :
    p.read timestamp = (decide (0 ≤ timestamp), []) := by
  rcases blank with fresh | ⟨rfl, none⟩
  · exact (lists.blank fresh).read timestamp
  · refine lists.spans.read_nothing fun i => ?_
    rintro ⟨des, -, edge⟩
    exact none _ edge rfl

end Lists

end Standing

namespace Api

variable {G : Type}

theorem mem_named {api : Api G W} {g : G} {edges : List (WeightedEdge W)} {names : List (NodeID × W)}
    (named : api.named g edges = .ok names) :
    (∀ n ∈ names, ∃ e ∈ edges, api.getExternalID g e.idx = .ok n.1) ∧
      ∀ e ∈ edges, ∃ n ∈ names, api.getExternalID g e.idx = .ok n.1 := by
  induction edges generalizing names with
  | nil =>
      obtain rfl := Except.ok.inj named
      simp
  | cons e edges ih =>
      simp only [Api.named, List.mapM_cons, bind_eq_ok] at named
      obtain ⟨first, ⟨id, name, same⟩, rest, others, last⟩ := named
      obtain rfl := Except.ok.inj same
      obtain rfl := Except.ok.inj last
      obtain ⟨forth, back⟩ := ih others
      constructor
      · intro n member
        rcases List.mem_cons.mp member with rfl | later
        · exact ⟨e, by simp, name⟩
        · obtain ⟨d, inside, named⟩ := forth n later
          exact ⟨d, by simp [inside], named⟩
      · intro d member
        rcases List.mem_cons.mp member with rfl | later
        · exact ⟨_, List.mem_cons_self, name⟩
        · obtain ⟨n, inside, named⟩ := back d later
          exact ⟨n, by simp [inside], named⟩

variable [DecidableEq W]

/-- No known vertex is deleted at the time -1, which marks the vertices that are not deleted. -/
def Steady (api : Api G W) : Standing → G → List (Request W) → Prop
  | _, _, [] => True
  | s, g, c :: calls => (∀ id, c = .deleteVertex id → id ∈ s.known → api.globalTimestamp g ≠ -1) ∧
      ∀ reply g', api.request g c = .ok (reply, g') → api.Steady (s.after c) g' calls

theorem Steady.cons {api : Api G W} {s : Standing} {g g' : G} {c : Request W} {calls : List (Request W)}
    {reply : Reply W} (counter : ∀ id, c = .deleteVertex id → id ∈ s.known → api.globalTimestamp g ≠ -1)
    (requested : api.request g c = .ok (reply, g')) (rest : api.Steady (s.after c) g' calls) :
    api.Steady s g (c :: calls) := by
  refine ⟨counter, fun _ _ same => ?_⟩
  obtain ⟨-, rfl⟩ := Prod.mk.inj (Except.ok.inj (requested.symm.trans same))
  exact rest

def Follows (api : Api G W) (stands : Standing → G → Prop) (B maxVertexID : Nat) (weighted : Prop) : Prop :=
  ∀ s g (c : Request W), stands s g → c.InRange B maxVertexID → (weighted → c.Plain) → s.Blank c →
    (∀ id, c = .deleteVertex id → id ∈ s.known → api.globalTimestamp g ≠ -1) →
    ∃ g', api.request g c = .ok (s.reply c, g') ∧ stands (s.after c) g'

end Api

end Radix
