import Radix.Graph.ArrayStanding
import Radix.Graph.TreeStanding

/-!
# Exchanging the vertex index

A client who names vertices by their ids alone should not notice whether the graph is compiled over the tree
or over the plain array.
-/

namespace Radix

open Lib Lib.LastWrite

variable {W : Type} [Zero W] [DecidableEq W]

theorem Api.Follows.serve {G : Type} {api : Api G W} {stands : Standing → G → Prop} {B maxVertexID : Nat}
    (follows : api.Follows stands B maxVertexID False) {calls : List (Request W)}
    (inRange : ∀ c ∈ calls, c.InRange B maxVertexID) {s : Standing} {g : G} (start : stands s g)
    (blank : Admissible Standing.after Standing.Blank s calls) (steady : api.Steady s g calls) :
    ∃ g', api.serve g calls = .ok (s.replies calls, g') := by
  induction calls generalizing s g with
  | nil => exact ⟨g, rfl⟩
  | cons c calls ih =>
      obtain ⟨here, within⟩ := List.forall_mem_cons.mp inRange
      obtain ⟨g₁, requested, stands₁⟩ := follows s g c start here False.elim blank.1 steady.1
      obtain ⟨g₂, served⟩ := ih within stands₁ blank.2 (steady.2 _ g₁ requested)
      exact ⟨g₂, by simp only [Api.serve, requested, ok_bind, served, Standing.replies]⟩

omit [DecidableEq W] in
theorem alike_cons {G H : Type} {api : Api G W} {api' : Api H W} {g : G} {h : H} {c : Request W}
    {calls : List (Request W)} (alike : Alike api api' g h (c :: calls)) :
    ∃ r g' r' h', api.request g c = .ok (r, g') ∧ api'.request h c = .ok (r', h') ∧ r.Alike r' ∧
      Alike api api' g' h' calls := by
  obtain ⟨replies, g', replies', h', served, served', alike⟩ := alike
  simp only [Api.serve, bind_eq_ok] at served served'
  obtain ⟨⟨r, g₁⟩, requested, ⟨rest, g₂⟩, later, same⟩ := served
  obtain ⟨⟨r', h₁⟩, requested', ⟨rest', h₂⟩, later', same'⟩ := served'
  obtain ⟨rfl, rfl⟩ := Prod.mk.inj (Except.ok.inj same)
  obtain ⟨rfl, rfl⟩ := Prod.mk.inj (Except.ok.inj same')
  obtain ⟨first, others⟩ := List.forall₂_cons.mp alike
  exact ⟨r, g₁, r', h₁, requested, requested', first, rest, _, rest', _, later, later', others⟩

theorem blank_of_reply (P : Platform W) {ws : List Nat} {maxVertexID : Nat} {s : Standing} {g g' : RadixGraph W}
    {A : Ledger W} {h h' : ArrayGraph W} (tree : RadixGraph.Stands True ws s g A)
    (array : ArrayGraph.Stands True (maxVertexID + 1) s h) (valid : ∀ id ∈ s.known, id ≠ NodeID.invalid) {c : Request W}
    (inRange : c.InRange ws.sum maxVertexID) (plain : c.Plain) {r r' : Reply W}
    (requested : (RadixGraph.api P).request g c = .ok (r, g'))
    (requested' : (ArrayGraph.api P).request h c = .ok (r', h')) (alike : r.Alike r') : s.Blank c := by
  cases c with
  | getNeighbours src timestamp =>
      obtain ⟨here, within⟩ := inRange src (by simp [Request.ids])
      obtain rfl : timestamp = maxTimestamp := plain
      by_contra shown
      simp only [Standing.Blank, not_or, not_and, not_not, true_and, not_forall] at shown
      obtain ⟨known, -, undeleted, ⟨source, des⟩, edge, same⟩ := shown
      obtain rfl : source = src := same
      obtain ⟨found, names, rfl, name, member, rfl⟩ :=
        RadixGraph.neighbours_named P tree ⟨known, undeleted⟩ edge requested
      obtain ⟨found', names', rfl, invalid⟩ :=
        ArrayGraph.neighbours_unnamed P array (Nat.lt_succ_of_le within) requested'
      exact valid _ (tree.sound.ends _ edge).2 (invalid name ((alike.2 name).mp member))
  | getNeighboursByOffset src timestamp =>
      obtain ⟨here, within⟩ := inRange src (by simp [Request.ids])
      obtain rfl : timestamp = maxTimestamp := plain
      intro alive
      obtain ⟨edges, rfl⟩ := RadixGraph.offset_read P tree here alive requested
      rw [ArrayGraph.offset_unread P array (Nat.lt_succ_of_le within) alive] at requested'
      obtain ⟨rfl, -⟩ := Prod.mk.inj (Except.ok.inj requested')
      exact Bool.noConfusion alike.1
  | getExternalID src =>
      obtain ⟨here, within⟩ := inRange src (by simp [Request.ids])
      intro alive
      rw [RadixGraph.external_valid P tree here alive] at requested
      rw [ArrayGraph.external_invalid P array (Nat.lt_succ_of_le within) alive] at requested'
      obtain ⟨rfl, -⟩ := Prod.mk.inj (Except.ok.inj requested)
      obtain ⟨rfl, -⟩ := Prod.mk.inj (Except.ok.inj requested')
      exact valid src alive.1 (Reply.vertex.inj alike)
  | _ => trivial

theorem blank_of_alike (P : Platform W) {ws : List Nat} {maxVertexID : Nat} (bound : maxVertexID < NodeID.invalid)
    {calls : List (Request W)} (inRange : ∀ c ∈ calls, c.InRange ws.sum maxVertexID) (plain : ∀ c ∈ calls, c.Plain)
    {s : Standing} {g : RadixGraph W} {A : Ledger W} {h : ArrayGraph W} (tree : RadixGraph.Stands True ws s g A)
    (array : ArrayGraph.Stands True (maxVertexID + 1) s h) (known : ∀ id ∈ s.known, id ≤ maxVertexID)
    (steady : (RadixGraph.api P).Steady s g calls) (steady' : (ArrayGraph.api P).Steady s h calls)
    (alike : Alike (RadixGraph.api P) (ArrayGraph.api P) g h calls) :
    Admissible Standing.after Standing.Blank s calls := by
  induction calls generalizing s g A h with
  | nil => trivial
  | cons c calls ih =>
      obtain ⟨here, within⟩ := List.forall_mem_cons.mp inRange
      obtain ⟨first, later⟩ := List.forall_mem_cons.mp plain
      obtain ⟨r, g₁, r', h₁, requested, requested', same, rest⟩ := alike_cons alike
      have valid (id : NodeID) (inside : id ∈ s.known) : id ≠ NodeID.invalid := ((known id inside).trans_lt bound).ne
      have blank := blank_of_reply P tree array valid here first requested requested' same
      obtain ⟨g₂, asked, A₂, tree₂⟩ := RadixGraph.api_follows P ws maxVertexID s g c ⟨A, tree⟩ here (fun _ => first)
        blank steady.1
      obtain ⟨h₂, asked', array₂⟩ := ArrayGraph.api_follows P ws.sum maxVertexID s h c array here (fun _ => first) blank
        steady'.1
      obtain rfl : g₁ = g₂ := (Prod.mk.inj (Except.ok.inj (requested.symm.trans asked))).2
      obtain rfl : h₁ = h₂ := (Prod.mk.inj (Except.ok.inj (requested'.symm.trans asked'))).2
      refine ⟨blank, ih within later tree₂ array₂ (fun id inside => ?_) (steady.2 _ _ requested)
        (steady'.2 _ _ requested') rest⟩
      have came : id ∈ s.known ∨ id ∈ c.ids := Standing.known_after inside
      rcases came with old | new
      · exact known id old
      · exact (here id new).2

end Radix
