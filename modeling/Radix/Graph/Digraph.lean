import Radix.Graph.Ledger

/-!
# The graph as a weighted digraph

What the edge store is for: a set of vertices and the weights of the edges between them. Vertices
are ids up to their masked bits; on ids below `2 ^ B` masking does nothing.
-/

namespace Radix

open Lib Lib.LastWrite

def masked (B : Nat) (id : NodeID) : NodeID := id % 2 ^ B

theorem masked_of_lt {B : Nat} {id : NodeID} (inRange : id < 2 ^ B) : masked B id = id :=
  Nat.mod_eq_of_lt inRange

namespace RadixGraph.Op

variable {W : Type}

def masked (B : Nat) : Op W → Op W
  | .insertEdge src des weight => .insertEdge (Radix.masked B src) (Radix.masked B des) weight
  | .updateEdge src des weight => .updateEdge (Radix.masked B src) (Radix.masked B des) weight
  | .deleteEdge src des => .deleteEdge (Radix.masked B src) (Radix.masked B des)
  | .getNeighbours src timestamp => .getNeighbours (Radix.masked B src) timestamp
  | op => op

def ids : Op W → List NodeID
  | .insertEdge src des _ | .updateEdge src des _ | .deleteEdge src des => [src, des]
  | .getNeighbours src _ => [src]
  | .createSnapshots _ _ | .setExpandRate _ | .getGlobalTimestamp => []

theorem masked_of_lt {B : Nat} {op : Op W} (inRange : ∀ id ∈ op.ids, id < 2 ^ B) :
    op.masked B = op := by
  cases op <;> simp_all [ids, masked, Radix.masked_of_lt]

end RadixGraph.Op

structure Digraph (W : Type) where
  vertices : NodeID → Bool := fun _ => false
  weight : NodeID → NodeID → Option W := fun _ _ => none

namespace Digraph

variable {W : Type} [Zero W] [DecidableEq W]

omit [Zero W] [DecidableEq W] in
def set (G : Digraph W) (u v : NodeID) (weight : Option W) : Digraph W :=
  { G with weight := fun x y => if x = u ∧ y = v then weight else G.weight x y }

def next (G : Digraph W) : RadixGraph.Op W → Digraph W
  | .insertEdge src des weight =>
      { G with vertices := fun x => G.vertices x || x = src || x = des }.set src des (Ledger.said weight)
  | .updateEdge src des weight =>
      if G.vertices src && G.vertices des then G.set src des (Ledger.said weight) else G
  | .deleteEdge src des => if G.vertices src && G.vertices des then G.set src des none else G
  | _ => G

def after (ops : List (RadixGraph.Op W)) : Digraph W := ops.foldl next {}

theorem after_named (ops : List (RadixGraph.Op W)) :
    (∀ u, (after ops).vertices u → ∃ op ∈ ops, u ∈ op.ids) ∧
      ∀ u v, (after ops).weight u v ≠ none → ∃ op ∈ ops, v ∈ op.ids := by
  induction ops using List.reverseRecOn with
  | nil => exact ⟨fun u known => absurd known (by simp [after]), fun u v present => absurd rfl present⟩
  | append_singleton ops op ih =>
      have earlier {x : NodeID} (named : ∃ op ∈ ops, x ∈ op.ids) : ∃ o ∈ ops ++ [op], x ∈ o.ids := by
        obtain ⟨o, member, here⟩ := named
        exact ⟨o, by simp [member], here⟩
      have last {x : NodeID} (here : x ∈ op.ids) : ∃ o ∈ ops ++ [op], x ∈ o.ids :=
        ⟨op, by simp, here⟩
      rw [after, List.foldl_append, List.foldl_cons, List.foldl_nil, ← after]
      cases op with
      | insertEdge src des weight =>
          refine ⟨fun u known => ?_, fun u v present => ?_⟩
          · simp only [next, set, Bool.or_eq_true, decide_eq_true_eq] at known
            rcases known with (known | rfl) | rfl
            · exact earlier (ih.1 u known)
            · exact last (by simp [RadixGraph.Op.ids])
            · exact last (by simp [RadixGraph.Op.ids])
          · simp only [next, set] at present
            split at present
            · rename_i here
              exact last (by simp [RadixGraph.Op.ids, here.2])
            · exact earlier (ih.2 u v present)
      | updateEdge src des weight | deleteEdge src des =>
          simp only [next]
          split
          · refine ⟨fun u known => earlier (ih.1 u known), fun u v present => ?_⟩
            simp only [set] at present
            split at present
            · rename_i here
              exact last (by simp [RadixGraph.Op.ids, here.2])
            · exact earlier (ih.2 u v present)
          · exact ⟨fun u known => earlier (ih.1 u known), fun u v present => earlier (ih.2 u v present)⟩
      | createSnapshots _ _ | setExpandRate _ | getGlobalTimestamp | getNeighbours _ _ =>
          exact ⟨fun u known => earlier (ih.1 u known), fun u v present => earlier (ih.2 u v present)⟩

def Wellformed (rules : Rules) (G : Digraph W) : RadixGraph.Op W → Prop
  | .insertEdge src des weight => rules.Tidy → weight ≠ 0 ∧ G.weight src des = none
  | .updateEdge src des weight => rules.Strict → weight ≠ 0 ∧ G.weight src des ≠ none
  | .deleteEdge src des => rules.Strict → G.weight src des ≠ none
  | _ => True

end Digraph

namespace Ledger

variable {W : Type} [Zero W] [DecidableEq W]

structure Denotes (B : Nat) (A : Ledger W) (G : Digraph W) : Prop where
  closed : A.Closed
  vertices : ∀ u, G.vertices (masked B u) = (SORT.position B A.ids u).isSome
  weight : ∀ u v, G.weight (masked B u) (masked B v) = A.edge B u v

theorem denotes_empty (B : Nat) : Denotes B ({} : Ledger W) {} where
  closed := ⟨fun _ _ => rfl, fun _ _ member => by cases member⟩
  vertices _ := rfl
  weight _ _ := rfl

variable {B : Nat} {A : Ledger W} {G : Digraph W}

omit [DecidableEq W] in
theorem write_unknown (stamp : Option Int) {src des : NodeID} (weight : W)
    (unknown : SORT.position B A.ids src = none ∨ SORT.position B A.ids des = none) :
    A.write B stamp src des weight = A := by
  rcases unknown with none | none
  · rw [write, none]
  · rw [write, none]
    cases SORT.position B A.ids src <;> rfl

omit [DecidableEq W] in
theorem write_ids (stamp : Option Int) (src des : NodeID) (weight : W) :
    (A.write B stamp src des weight).ids = A.ids := by
  rw [write]
  split <;> rfl

theorem masked_eq {x y : NodeID} : masked B x = masked B y ↔ y ≡ x [MOD 2 ^ B] := eq_comm

omit [DecidableEq W] in
theorem position_enter_isSome (id other : NodeID) :
    (SORT.position B (A.enter B id).ids other).isSome =
      ((SORT.position B A.ids other).isSome || masked B other = masked B id) := by
  rw [enter, SORT.position_enter]
  cases known : SORT.position B A.ids other with
  | some k => simp
  | none =>
      by_cases same : id ≡ other [MOD 2 ^ B]
      · have absent : SORT.position B A.ids id = none := by rw [SORT.position_congr same, known]
        simp [absent, masked_eq, same]
      · simp [masked_eq, same]

theorem Denotes.write (denotes : Denotes B A G) (stamp : Option Int) {src des : NodeID} (weight : W)
    (source : SORT.position B A.ids src ≠ none) (target : SORT.position B A.ids des ≠ none) :
    Denotes B (A.write B stamp src des weight)
      (G.set (masked B src) (masked B des) (said weight)) where
  closed := denotes.closed.write stamp src des weight
  vertices u := by
    rw [write_ids]
    exact denotes.vertices u
  weight u v := by
    rw [edge, edgeWhere_write stamp weight source target, Digraph.set]
    simp only [masked_eq, true_and, denotes.weight, edge]

theorem Denotes.enter (denotes : Denotes B A G) (id : NodeID) :
    Denotes B (A.enter B id) { G with vertices := fun x => G.vertices x || x = masked B id } where
  closed := denotes.closed.enter id
  vertices u := by rw [position_enter_isSome, ← denotes.vertices]
  weight u v := by
    rw [edge, denotes.closed.edgeWhere_enter]
    exact denotes.weight u v

theorem Denotes.log (denotes : Denotes B A G) (stamp : Option Int) (src des : NodeID) (weight : W) :
    Denotes B (A.write B stamp src des weight)
      (if G.vertices (masked B src) && G.vertices (masked B des) then
        G.set (masked B src) (masked B des) (said weight) else G) := by
  rw [denotes.vertices, denotes.vertices]
  cases source : SORT.position B A.ids src with
  | none =>
      rw [write_unknown stamp weight (.inl source)]
      simpa using denotes
  | some k =>
      cases target : SORT.position B A.ids des with
      | none =>
          rw [write_unknown stamp weight (.inr target)]
          simpa using denotes
      | some l => simpa using denotes.write stamp weight (by simp [source]) (by simp [target])

theorem Denotes.next (denotes : Denotes B A G) (stamp : Option Int) (op : RadixGraph.Op W) :
    Denotes B (A.next B stamp op) (G.next (op.masked B)) := by
  cases op with
  | insertEdge src des weight =>
      have entered := (denotes.enter src).enter des
      refine entered.write stamp weight ?_ ?_
      · rw [← Option.isSome_iff_ne_none, position_enter_isSome, position_enter_isSome]
        simp
      · rw [← Option.isSome_iff_ne_none, position_enter_isSome]
        simp
  | updateEdge src des weight => exact denotes.log stamp src des weight
  | deleteEdge src des =>
      have logged := denotes.log stamp src des 0
      rwa [show said (0 : W) = none from if_pos rfl] at logged
  | createSnapshots _ _ | setExpandRate _ | getGlobalTimestamp | getNeighbours _ _ => exact denotes

theorem Denotes.allowed (denotes : Denotes B A G) {rules : Rules} {op : RadixGraph.Op W}
    (wellformed : G.Wellformed rules (op.masked B)) : A.Allowed rules B op := by
  cases op with
  | insertEdge src des weight =>
      simpa [Allowed, ← denotes.weight, Digraph.Wellformed, RadixGraph.Op.masked] using wellformed
  | updateEdge src des weight =>
      simpa [Allowed, ← denotes.weight, Digraph.Wellformed, RadixGraph.Op.masked] using wellformed
  | deleteEdge src des =>
      simpa [Allowed, ← denotes.weight, Digraph.Wellformed, RadixGraph.Op.masked] using wellformed
  | createSnapshots _ _ | setExpandRate _ | getGlobalTimestamp | getNeighbours _ _ => trivial

/-- The ids that a ledger knows and the digraph it denotes agree on the edges below `2 ^ B`. -/
theorem Denotes.weight_iff (denotes : Denotes B A G) (small : ∀ a ∈ A.ids, a < 2 ^ B)
    (ends : ∀ u v, G.weight u v ≠ none → v < 2 ^ B) {u : NodeID} (inRange : u < 2 ^ B) (v : NodeID) (w : W) :
    v ∈ A.ids ∧ A.edge B u v = some w ↔ G.weight u v = some w := by
  constructor
  · rintro ⟨known, present⟩
    rw [← present, ← denotes.weight, masked_of_lt inRange, masked_of_lt (small v known)]
  · intro present
    have below := ends u v (by simp [present])
    have recorded := denotes.weight u v
    rw [masked_of_lt inRange, masked_of_lt below, present] at recorded
    refine ⟨?_, recorded.symm⟩
    obtain ⟨a, member, same⟩ := known_of_edgeWhere recorded.symm
    rwa [← Nat.mod_eq_of_lt (small a member), same, Nat.mod_eq_of_lt below] at member

end Ledger

end Radix
