import Mathlib.Data.Finset.Range
import Mathlib.Data.List.Perm.Subperm
import Radix.Analytics.Components

/-!
# What the labels of the components tell

The loops read a label under the external id of a source and the internal id of a destination. So the labels
tell the components of the pairs of an external and an internal id that these edges make.
-/

namespace Radix.Analytics

open Lib RadixGraph

variable {W : Type} [Zero W]

def ExternalEdge (inserted : List (NodeID × NodeID × W)) (a b : NodeID) : Prop := ∃ w, (a, b, w) ∈ inserted

def MixedEdge (order : List NodeID) (inserted : List (NodeID × NodeID × W)) (a i : Nat) : Prop :=
  ∃ b w, (a, b, w) ∈ inserted ∧ order[i]? = some b

def Separates (Edge : NodeID → NodeID → Prop) (ids : List NodeID) (comp : PVector NodeID) : Prop :=
  ∀ a ∈ ids, ∀ b ∈ ids, ∃ x y, comp.get a = .ok x ∧ comp.get b = .ok y ∧ (x = y ↔ Relation.EqvGen Edge a b)

variable [DecidableEq W]

def SeenEdge (ws : List Nat) (A : Ledger W) (adj : Nat → List (WeightedEdge W)) (n u v : Nat) : Prop :=
  u < n ∧ ∃ k, SORT.position ws.sum A.ids u = some k ∧ ListedEdge adj k v

variable {ws : List Nat} {A : Ledger W} {pages : Nat → Page W} {adj : Nat → List (WeightedEdge W)}

/-! ## Hooking -/

theorem ite_eq_max (a b : Nat) : (if b < a then a else b) = max a b := by
  split
  · rename_i above
    rw [max_eq_left above.le]
  · rename_i below
    rw [max_eq_right (Nat.le_of_not_lt below)]

theorem lowComp_eq {a b : Nat} (small : a < 2 ^ 32) (small' : b < 2 ^ 32) : lowComp a b (max a b) = min a b := by
  unfold lowComp
  rcases le_total a b with below | above
  · rw [max_eq_right below, min_eq_left below, Nat.add_sub_cancel_left, Nat.mod_self, Nat.add_zero, Nat.mod_eq_of_lt small]
  · rw [max_eq_left above, min_eq_right above]
    change (a + (b + 4294967296 - a) % 4294967296) % 4294967296 = b
    omega

structure Hooked (ws : List Nat) (A : Ledger W) (pages : Nat → Page W) (Edge : Nat → Nat → Prop) (n : Nat)
    (first : Nat → Nat) (seen : Nat → Nat → Prop) (s : Components W) : Prop where
  serves : Serves ws A pages s.g
  labels : ∃ label, s.comp.Stores n label ∧ Labelling Edge label ∧
    (s.change = false → label = first ∧ ∀ u v, seen u v → first u = first v) ∧
    (s.change = true → roots (Finset.range n) label < roots (Finset.range n) first)

namespace Hooked

variable {Edge : Nat → Nat → Prop} {n : Nat} {first : Nat → Nat} {seen seen' : Nat → Nat → Prop} {s : Components W}

theorem congr (hooked : Hooked ws A pages Edge n first seen s) (same : ∀ u v, seen' u v → seen u v) :
    Hooked ws A pages Edge n first seen' s := by
  obtain ⟨label, stores, labelling, unchanged, changed⟩ := hooked.labels
  refine ⟨hooked.serves, label, stores, labelling, fun still => ?_, changed⟩
  obtain ⟨equal, settled⟩ := unchanged still
  exact ⟨equal, fun u v member => settled u v (same u v member)⟩

theorem edge (flat : Flat (Finset.range n) first) (small : n ≤ 2 ^ 32) (hooked : Hooked ws A pages Edge n first seen s)
    {u v : Nat} (source : u < n) (destination : v < n) (edge : Edge u v) {e : WeightedEdge W} (idx : e.idx = (v : Int)) :
    ∃ s', hookEdge u s e = .ok s' ∧ s'.loopCount = s.loopCount ∧
      Hooked ws A pages Edge n first (fun x y => seen x y ∨ x = u ∧ y = v) s' := by
  obtain ⟨label, stores, labelling, unchanged, changed⟩ := hooked.labels
  have below : label u < n := (labelling.le u).trans_lt source
  have below' : label v < n := (labelling.le v).trans_lt destination
  have high := ite_eq_max (label u) (label v)
  have inside : max (label u) (label v) < n := max_lt below below'
  have low := lowComp_eq (below.trans_le small) (below'.trans_le small)
  rw [hookEdge, stores.get source, ok_bind, idx, index_natCast, ok_bind, stores.get destination, ok_bind]
  by_cases same : label u = label v
  · rw [if_pos same]
    refine ⟨s, rfl, rfl, hooked.serves, label, stores, labelling, fun still => ?_, changed⟩
    obtain ⟨equal, settled⟩ := unchanged still
    refine ⟨equal, fun x y member => ?_⟩
    rcases member with before | ⟨rfl, rfl⟩
    · exact settled x y before
    · rwa [equal] at same
  · rw [if_neg same]
    dsimp only
    rw [high, stores.get inside, ok_bind]
    by_cases root : max (label u) (label v) = label (max (label u) (label v))
    · obtain ⟨comp, stored, stores'⟩ := stores.set inside (min (label u) (label v))
      rw [if_pos root, low, stored, ok_bind]
      have fewer := Labelling.roots_hook (Finset.mem_range.mpr inside) root.symm (min_lt_max.mpr same).ne
      refine ⟨_, rfl, rfl, hooked.serves, _, stores', labelling.hook edge, fun still => ?_, fun _ => ?_⟩
      · cases still
      cases before : s.change with
      | false => rwa [← (unchanged before).1]
      | true => exact fewer.trans (changed before)
    · rw [if_neg root]
      refine ⟨s, rfl, rfl, hooked.serves, label, stores, labelling, fun still => ?_, changed⟩
      obtain ⟨rfl, -⟩ := unchanged still
      -- flat labels are their own labels
      apply absurd _ root
      rcases max_choice (label u) (label v) with here | there
      · rw [here, flat u (Finset.mem_range.mpr source)]
      · rw [there, flat v (Finset.mem_range.mpr destination)]

theorem vertex (answers : Answers ws A pages adj) (flat : Flat (Finset.range n) first) (small : n ≤ 2 ^ 32)
    (size : A.ids.length ≤ n) (hooked : Hooked ws A pages (SeenEdge ws A adj n) n first seen s) {u : Nat}
    (source : u < n)
    (known : ∀ k, SORT.position ws.sum A.ids u = some k → k < A.ids.length) :
    ∃ s', hookVertex s u = .ok s' ∧ s'.loopCount = s.loopCount ∧
      Hooked ws A pages (SeenEdge ws A adj n) n first (fun x y => seen x y ∨ x = u ∧ SeenEdge ws A adj n u y) s' := by
  obtain ⟨g, looked, serves⟩ := hooked.serves.lookup u
  rw [hookVertex, looked, ok_bind]
  cases found : SORT.position ws.sum A.ids u with
  | none =>
      refine ⟨{ s with g }, rfl, rfl, congr ⟨serves, hooked.labels⟩ ?_⟩
      rintro x y (before | ⟨rfl, -, k, place, -⟩)
      · exact before
      · rw [found] at place
        cases place
  | some k =>
      have inside := known k found
      obtain ⟨g', read, serves'⟩ := serves.neighboursOf inside
      dsimp only
      rw [read, ok_bind, answers.present k inside]
      have step (done : List (WeightedEdge W)) (e : WeightedEdge W) (t : Components W) (earlier : done ++ [e] <+: adj k)
          (before : t.loopCount = s.loopCount ∧ Hooked ws A pages (SeenEdge ws A adj n) n first
            (fun x y => seen x y ∨ x = u ∧ ∃ e ∈ done, e.idx = (y : Int)) t) :
          ∃ t', hookEdge u t e = .ok t' ∧ t'.loopCount = s.loopCount ∧ Hooked ws A pages (SeenEdge ws A adj n) n first
            (fun x y => seen x y ∨ x = u ∧ ∃ e' ∈ done ++ [e], e'.idx = (y : Int)) t' := by
        have member : e ∈ adj k := earlier.subset (by simp)
        obtain ⟨v, below, idx⟩ := answers.closed k e member
        obtain ⟨t', ran, count, hooked'⟩ := before.2.edge flat small source (below.trans_le size)
          (⟨source, k, found, e, member, idx⟩ : SeenEdge ws A adj n u v) idx
        refine ⟨t', ran, count.trans before.1, hooked'.congr ?_⟩
        rintro x y (old | ⟨rfl, e', inside', idx'⟩)
        · exact .inl (.inl old)
        rcases List.mem_append.mp inside' with old | new
        · exact .inl (.inr ⟨rfl, e', old, idx'⟩)
        · rw [List.mem_singleton.mp new, idx, Int.natCast_inj] at idx'
          exact .inr ⟨rfl, idx'.symm⟩
      obtain ⟨s', looped, count, hooked'⟩ := foldlM_invariant (adj k)
        (fun done (t : Components W) => t.loopCount = s.loopCount ∧ Hooked ws A pages (SeenEdge ws A adj n) n first
          (fun x y => seen x y ∨ x = u ∧ ∃ e ∈ done, e.idx = (y : Int)) t) step (s := { s with g := g' })
        ⟨rfl, congr ⟨serves', hooked.labels⟩ (by simp)⟩
      refine ⟨s', looped, count, hooked'.congr ?_⟩
      rintro x y (before | ⟨rfl, -, k', place, e, member, idx⟩)
      · exact .inl before
      · obtain rfl := Option.some.inj (found.symm.trans place)
        exact .inr ⟨rfl, e, member, idx⟩

end Hooked

theorem hookLoop (answers : Answers ws A pages adj) (loops : Loops) {n : Nat} {first : Nat → Nat}
    (flat : Flat (Finset.range n) first) (small : n ≤ 2 ^ 32) (size : A.ids.length ≤ n)
    (known : ∀ u < n, ∀ k, SORT.position ws.sum A.ids u = some k → k < A.ids.length) {s : Components W}
    (serves : Serves ws A pages s.g) (stores : s.comp.Stores n first)
    (labelling : Labelling (SeenEdge ws A adj n) first) :
    ∃ s', (loops.order s.loopCount (List.range n)).foldlM hookVertex { s with change := false } = .ok s' ∧
      s'.loopCount = s.loopCount ∧
      Hooked ws A pages (SeenEdge ws A adj n) n first (SeenEdge ws A adj n) s' := by
  have perm := loops.order_perm s.loopCount (List.range n)
  have step (done : List Nat) (u : Nat) (t : Components W)
      (earlier : done ++ [u] <+: loops.order s.loopCount (List.range n))
      (before : t.loopCount = s.loopCount ∧
        Hooked ws A pages (SeenEdge ws A adj n) n first (fun x y => x ∈ done ∧ SeenEdge ws A adj n x y) t) :
      ∃ t', hookVertex t u = .ok t' ∧ t'.loopCount = s.loopCount ∧
        Hooked ws A pages (SeenEdge ws A adj n) n first (fun x y => x ∈ done ++ [u] ∧ SeenEdge ws A adj n x y) t' := by
    have source : u < n := List.mem_range.mp (perm.subset (earlier.subset (by simp)))
    obtain ⟨t', ran, count, hooked⟩ := before.2.vertex answers flat small size source (known u source)
    refine ⟨t', ran, count.trans before.1, hooked.congr ?_⟩
    rintro x y ⟨member, edge⟩
    rcases List.mem_append.mp member with old | new
    · exact .inl ⟨old, edge⟩
    · obtain rfl := List.mem_singleton.mp new
      exact .inr ⟨rfl, edge⟩
  obtain ⟨s', looped, count, hooked⟩ := foldlM_invariant _
    (fun done (t : Components W) => t.loopCount = s.loopCount ∧
      Hooked ws A pages (SeenEdge ws A adj n) n first (fun x y => x ∈ done ∧ SeenEdge ws A adj n x y) t) step
    (s := { s with change := false })
    ⟨rfl, serves, first, stores, labelling, fun _ => ⟨rfl, fun x y seen => by simp at seen⟩,
      fun changed => by cases changed⟩
  refine ⟨s', looped, count, hooked.congr ?_⟩
  intro x y edge
  exact ⟨perm.symm.subset (List.mem_range.mpr edge.1), edge⟩

/-! ## Jumping -/

omit [Zero W] [DecidableEq W] in
theorem jump_spec {Edge : Nat → Nat → Prop} {n i : Nat} (inside : i < n) (limit : Nat) :
    ∀ {comp : PVector NodeID} {label : Nat → Nat}, comp.Stores n label → Labelling Edge label → label i < limit →
      ∃ comp' label', jump limit comp i = .ok comp' ∧ comp'.Stores n label' ∧ Labelling Edge label' ∧
        roots (Finset.range n) label' = roots (Finset.range n) label ∧ label' (label' i) = label' i ∧
        (∀ j ≠ i, label' j = label j) ∧ (label (label i) = label i → label' i = label i) := by
  induction limit with
  | zero =>
      intro comp label _ _ more
      exact absurd more (Nat.not_lt_zero _)
  | succ limit ih =>
      intro comp label stores labelling more
      have below : label i < n := (labelling.le i).trans_lt inside
      rw [jump, stores.get inside, ok_bind, stores.get below, ok_bind]
      by_cases flat : label i = label (label i)
      · rw [if_pos flat]
        exact ⟨comp, label, rfl, stores, labelling, rfl, flat.symm, fun _ _ => rfl, fun _ => rfl⟩
      · obtain ⟨comp', stored, stores'⟩ := stores.set inside (label (label i))
        have lower : label (label i) < label i := lt_of_le_of_ne (labelling.le (label i)) (Ne.symm flat)
        obtain ⟨comp'', label'', ran, stores'', labelling'', count, flat'', kept, -⟩ := ih stores' (labelling.jump i)
          (by rw [Function.update_self]; omega)
        rw [if_neg flat, stored, ok_bind]
        refine ⟨comp'', label'', ran, stores'', labelling'', count.trans (labelling.roots_jump flat), flat'',
          fun j other => ?_, fun equal => absurd equal.symm flat⟩
        rw [kept j other, Function.update_of_ne other]

theorem jump_more {limit : Nat} (more : Nat) {comp comp' : PVector NodeID} {i : Nat}
    (ran : jump limit comp i = .ok comp') :
    jump (limit + more) comp i = .ok comp' := by
  induction limit generalizing comp with
  | zero => cases ran
  | succ limit ih =>
      rw [jump, bind_eq_ok] at ran
      obtain ⟨label, read, ran⟩ := ran
      obtain ⟨next, read', ran⟩ := bind_eq_ok.mp ran
      rw [Nat.succ_add, jump, read, ok_bind, read', ok_bind]
      split at ran
      · rename_i flat
        rwa [if_pos flat]
      · rename_i past
        obtain ⟨comp'', stored, rest⟩ := bind_eq_ok.mp ran
        rw [if_neg past, stored, ok_bind, ih rest]

theorem jumpLoop (loops : Loops) (t : Nat) {Edge : Nat → Nat → Prop} {n : Nat} {comp : PVector NodeID}
    {label : Nat → Nat}
    (stores : comp.Stores n label) (labelling : Labelling Edge label) :
    ∃ comp' label', (∀ limit, n ≤ limit → (loops.order t (List.range n)).foldlM (jump limit) comp = .ok comp') ∧
      comp'.Stores n label' ∧
      Labelling Edge label' ∧ roots (Finset.range n) label' = roots (Finset.range n) label ∧
      Flat (Finset.range n) label' ∧ ∀ j < n, label (label j) = label j → label' j = label j := by
  have perm := loops.order_perm t (List.range n)
  have step (done : List Nat) (i : Nat) (c : PVector NodeID) (earlier : done ++ [i] <+: loops.order t (List.range n))
      (before : ∃ label', c.Stores n label' ∧ Labelling Edge label' ∧
        roots (Finset.range n) label' = roots (Finset.range n) label ∧ (∀ j ∈ done, label' (label' j) = label' j) ∧
        ∀ j < n, label (label j) = label j → label' j = label j) :
      ∃ c', jump n c i = .ok c' ∧ ∃ label', c'.Stores n label' ∧ Labelling Edge label' ∧
        roots (Finset.range n) label' = roots (Finset.range n) label ∧
        (∀ j ∈ done ++ [i], label' (label' j) = label' j) ∧
        ∀ j < n, label (label j) = label j → label' j = label j := by
    obtain ⟨mid, stores, labelling', count, flat, still⟩ := before
    have inside : i < n := List.mem_range.mp (perm.subset (earlier.subset (by simp)))
    obtain ⟨c', label', ran, stores', labelling'', count', flat', kept, same⟩ := jump_spec inside n stores labelling'
      ((labelling'.le i).trans_lt inside)
    -- a vertex whose label is flat keeps it
    have keeps (j : Nat) (here : mid (mid j) = mid j) : label' j = mid j := by
      by_cases equal : j = i
      · subst equal
        exact same here
      · exact kept j equal
    refine ⟨c', ran, label', stores', labelling'', count'.trans count, fun j member => ?_, fun j below here => ?_⟩
    · rcases List.mem_append.mp member with old | new
      · have here := flat j old
        rw [keeps j here, keeps (mid j) (by rw [here, here]), here]
      · rwa [List.mem_singleton.mp new]
    · have equal := still j below here
      have below' : label j < n := (labelling.le j).trans_lt below
      have equal' := still (label j) below' (by rw [here, here])
      rw [keeps j (by rw [equal, equal', here]), equal]
  obtain ⟨comp', looped, label', stores', labelling', count, flat, still⟩ := foldlM_invariant _
    (fun done (c : PVector NodeID) => ∃ label', c.Stores n label' ∧ Labelling Edge label' ∧
      roots (Finset.range n) label' = roots (Finset.range n) label ∧ (∀ j ∈ done, label' (label' j) = label' j) ∧
      ∀ j < n, label (label j) = label j → label' j = label j) step
    ⟨label, stores, labelling, rfl, by simp, fun _ _ _ => rfl⟩
  refine ⟨comp', label', fun limit enough => ?_, stores', labelling', count, fun j member => ?_, still⟩
  · obtain ⟨more, rfl⟩ := Nat.exists_eq_add_of_le enough
    exact foldlM_mono (fun c i c' ran => jump_more more ran) looped
  · exact flat j (perm.symm.subset (List.mem_range.mpr (Finset.mem_range.mp member)))

/-! ## The rounds -/

theorem rounds_end (answers : Answers ws A pages adj) (loops : Loops) {n : Nat} (small : n ≤ 2 ^ 32)
    (size : A.ids.length ≤ n) (known : ∀ u < n, ∀ k, SORT.position ws.sum A.ids u = some k → k < A.ids.length)
    (m : Nat) :
    ∀ {s : Components W} {label : Nat → Nat}, Serves ws A pages s.g → s.comp.Stores n label →
      Labelling (SeenEdge ws A adj n) label → Flat (Finset.range n) label → roots (Finset.range n) label < m →
      ∃ s' label', (∀ fuel limit, n ≤ limit → s.rounds loops n limit (fuel + m) = .ok s') ∧ s'.comp.Stores n label' ∧
        Labelling (SeenEdge ws A adj n) label' ∧ ∀ u v, SeenEdge ws A adj n u v → label' u = label' v := by
  induction m with
  | zero =>
      intro s label _ _ _ _ few
      exact absurd few (Nat.not_lt_zero _)
  | succ m ih =>
      intro s first serves stores labelling flat few
      obtain ⟨t, hooks, count, hooked⟩ := hookLoop answers loops flat small size known serves stores labelling
      obtain ⟨label, stores', labelling', unchanged, changed⟩ := hooked.labels
      obtain ⟨comp, label', jumps, stores'', labelling'', roots', flat', still⟩ :=
        jumpLoop loops (s.loopCount + 1) stores' labelling'
      have ran (fuel limit : Nat) (enough : n ≤ limit) : s.rounds loops n limit (fuel + m + 1) =
          if t.change then Components.rounds loops n limit (fuel + m) { t with comp, loopCount := t.loopCount + 2 }
          else .ok { t with comp, loopCount := t.loopCount + 2 } := by
        rw [Components.rounds, hooks, ok_bind]
        dsimp only
        rw [count, jumps limit enough, ok_bind]
      cases change : t.change with
      | false =>
          obtain ⟨rfl, settled⟩ := unchanged change
          refine ⟨{ t with comp, loopCount := t.loopCount + 2 }, label', fun fuel limit enough => ?_, stores'', labelling'',
            fun u v edge => ?_⟩
          · rw [← Nat.add_assoc, ran fuel limit enough, if_neg (by simp [change])]
          · obtain ⟨k, -, listed⟩ := edge.2
            have below := (answers.edge_lt listed).trans_le size
            rw [still u edge.1 (flat u (Finset.mem_range.mpr edge.1)), still v below (flat v (Finset.mem_range.mpr below))]
            exact settled u v edge
      | true =>
          obtain ⟨s', label'', ran', final⟩ := ih (s := { t with comp, loopCount := t.loopCount + 2 }) hooked.serves stores''
            labelling'' flat' (by have := changed change; omega)
          refine ⟨s', label'', fun fuel limit enough => ?_, final⟩
          rw [← Nat.add_assoc, ran fuel limit enough, if_pos change]
          exact ran' fuel limit enough

/-! ## The labels as a whole -/

theorem labels_built {order : List NodeID} {inserted : List (NodeID × NodeID × W)} {g : RadixGraph W}
    (built : BuiltBy ws order inserted g A) (known : ∀ u v w, (u, v, w) ∈ inserted → u ∈ order) {top : NodeID}
    (largest : top ∈ order ∧ ∀ id ∈ order, id ≤ top) (small : top + 1 < 2 ^ 32) (loops : Loops) :
    ∃ s, (∀ fuel, top + 2 ≤ fuel → shiloachVishkin loops fuel g (top + 1) = .ok s) ∧
      Separates (MixedEdge order inserted) order s.comp := by
  have inRange := built.inRange
  have distinct := inRange.distinct
  obtain rfl := built.ids
  have size : A.ids.length ≤ top + 1 := by
    have within : A.ids ⊆ List.range (top + 1) := fun id member =>
      List.mem_range.mpr (Nat.lt_succ_of_le (largest.2 id member))
    simpa using (List.subperm_of_subset distinct within).length_le
  obtain ⟨pages, serves, answers, -, edges⟩ := answers_of_built built (size.trans (Nat.le_of_lt_succ small))
  have place {u k : Nat} (below : u < top + 1) (found : SORT.position ws.sum A.ids u = some k) : A.ids[k]? = some u :=
    SORT.position_some_inRange inRange.ids ((Nat.lt_succ_iff.mp below).trans_lt (inRange.ids top largest.1)) found
  have same (u v : Nat) : SeenEdge ws A g.adjacency (top + 1) u v ↔ MixedEdge A.ids inserted u v := by
    constructor
    · rintro ⟨below, k, found, listed⟩
      obtain ⟨a, b, w, here, there, edge⟩ := (edges k v).mp listed
      obtain rfl := Option.some.inj (here.symm.trans (place below found))
      exact ⟨b, w, edge, there⟩
    · rintro ⟨b, w, edge, there⟩
      have member := known u b w edge
      obtain ⟨k, found, here⟩ := inRange.position_of_mem member
      exact ⟨Nat.lt_succ_of_le (largest.2 u member), k, found, (edges k v).mpr ⟨u, b, w, here, there, edge⟩⟩
  have equal : SeenEdge ws A g.adjacency (top + 1) = MixedEdge A.ids inserted := by
    funext u v
    exact propext (same u v)
  obtain ⟨comp, initialised, stores⟩ := PVector.init_loop (fun i => i) (loops.order_perm 0 (List.range (top + 1)))
  have few : roots (Finset.range (top + 1)) (fun v => v) < top + 2 := by
    apply Nat.lt_succ_of_le
    exact (Finset.card_filter_le _ _).trans (Finset.card_range _).le
  obtain ⟨s, label, ran, stores', labelling, settled⟩ := rounds_end answers loops small.le size
    (fun u below k found => (List.getElem?_eq_some_iff.mp (place below found)).1) (top + 2)
    (s := { g, comp, change := true, loopCount := 1 }) serves stores (.start _) (fun _ _ => rfl) few
  refine ⟨s, fun fuel enough => ?_, fun a member b member' => ?_⟩
  · obtain ⟨more, rfl⟩ := Nat.exists_eq_add_of_le' enough
    rw [shiloachVishkin, initialised, ok_bind]
    exact ran more _ (by omega)
  · have below := Nat.lt_succ_of_le (largest.2 a member)
    have below' := Nat.lt_succ_of_le (largest.2 b member')
    exact ⟨label a, label b, stores'.get below, stores'.get below', equal ▸ labelling.same_iff settled a b⟩

omit [DecidableEq W] in
theorem Separates.iff {Edge Edge' : NodeID → NodeID → Prop} {ids : List NodeID} {comp : PVector NodeID}
    (separates : Separates Edge ids comp) : Separates Edge' ids comp ↔
      ∀ a ∈ ids, ∀ b ∈ ids, (Relation.EqvGen Edge a b ↔ Relation.EqvGen Edge' a b) := by
  constructor
  · intro other a member b member'
    obtain ⟨x, y, read_a, read_b, same⟩ := separates a member b member'
    obtain ⟨x', y', again_a, again_b, same'⟩ := other a member b member'
    obtain rfl := Except.ok.inj (read_a.symm.trans again_a)
    obtain rfl := Except.ok.inj (read_b.symm.trans again_b)
    rw [← same, ← same']
  · intro agree a member b member'
    obtain ⟨x, y, read_a, read_b, same⟩ := separates a member b member'
    exact ⟨x, y, read_a, read_b, same.trans (agree a member b member')⟩

omit [Zero W] [DecidableEq W] in
theorem mixedEdge_of_ascending {inserted : List (NodeID × NodeID × W)} {n : Nat}
    (known : ∀ u v w, (u, v, w) ∈ inserted → v ∈ List.range n) :
    MixedEdge (List.range n) inserted = ExternalEdge inserted := by
  funext a i
  apply propext
  constructor
  · rintro ⟨b, w, edge, there⟩
    obtain ⟨inside, rfl⟩ := List.getElem?_eq_some_iff.mp there
    rw [List.getElem_range] at edge
    exact ⟨w, edge⟩
  · rintro ⟨w, edge⟩
    exact ⟨i, w, edge, List.getElem?_range (List.mem_range.mp (known a i w edge))⟩

/-- The labels tell the components of the graph just if the mixed edges join the same vertices as the edges do. -/
theorem shiloachVishkin_iff (P : Platform W) (global : GlobalInfo) {index : SORT W}
    (constructed : SORT.Constructed index ws) {L : Nat} (positive : 0 < L) {acts : List (Action W)}
    (builds : ∀ action ∈ acts, action.Builds) (small : ∀ action ∈ acts, ∀ id ∈ action.ids, id < 2 ^ ws.sum)
    {top : NodeID} (largest : top ∈ vertexOrder acts ∧ ∀ id ∈ vertexOrder acts, id ≤ top) (fits : top + 1 < 2 ^ 32)
    (loops : Loops) :
    ∃ g s, actions P (construct global index L positive) acts = .ok g ∧
      (∀ fuel, top + 2 ≤ fuel → shiloachVishkin loops fuel g (top + 1) = .ok s) ∧
      (Separates (ExternalEdge (insertedEdges acts)) (vertexOrder acts) s.comp ↔
        ∀ a ∈ vertexOrder acts, ∀ b ∈ vertexOrder acts,
          (Relation.EqvGen (MixedEdge (vertexOrder acts) (insertedEdges acts)) a b ↔
            Relation.EqvGen (ExternalEdge (insertedEdges acts)) a b)) := by
  obtain ⟨g, A, ran, built⟩ := builds_built P global constructed positive builds small
  obtain ⟨s, labelled, separates⟩ := labels_built built (fun u v w edge => (mem_vertexOrder_of_edge edge).1) largest fits
    loops
  exact ⟨g, s, ran, labelled, separates.iff⟩

/-- Two edges inserted in the order of their ends. -/
theorem shiloachVishkin_iff_ascending : ∃ (g : RadixGraph Nat) (s : Components Nat),
    actions Platform.exact (construct ⟨0, true⟩ (.ofVector [2]) 1 (by decide))
        [.op (.insertEdge 0 1 1), .op (.insertEdge 2 3 1)] = .ok g ∧
      shiloachVishkin .forward 5 g 4 = .ok s ∧
      Separates (ExternalEdge [(0, 1, 1), (2, 3, 1)]) [0, 1, 2, 3] s.comp := by
  have four : vertexOrder [(.op (.insertEdge 0 1 1) : Action Nat), .op (.insertEdge 2 3 1)] = List.range 4 := by decide
  obtain ⟨g, s, ran, labelled, separates⟩ := shiloachVishkin_iff Platform.exact ⟨0, true⟩
    (show SORT.Constructed (SORT.ofVector [2] : SORT Nat) [2] from .vector (by decide)) (show 0 < 1 by decide)
    (show ∀ action ∈ [.op (.insertEdge 0 1 1), .op (.insertEdge 2 3 1)], Action.Builds action by simp [Action.Builds])
    (by decide) (show 3 ∈ vertexOrder _ ∧ ∀ id ∈ vertexOrder _, id ≤ 3 by rw [four]; decide) (by decide) .forward
  rw [four] at separates
  refine ⟨g, s, ran, labelled 5 (by decide), separates.mpr fun a _ b _ => ?_⟩
  have same : MixedEdge (List.range 4) (insertedEdges [.op (.insertEdge 0 1 1), .op (.insertEdge 2 3 1)]) =
      ExternalEdge (insertedEdges [.op (.insertEdge 0 1 (1 : Nat)), .op (.insertEdge 2 3 1)]) :=
    mixedEdge_of_ascending fun u v w edge => four ▸ (mem_vertexOrder_of_edge edge).2
  exact iff_of_eq (congrFun (congrFun (congrArg Relation.EqvGen same) a) b)

/-- Two edges that are not joined, inserted in the order 3, 2, 1, 0: the label of 3 is that of 1, and not that of 2. -/
theorem shiloachVishkin_misled : ∃ (g : RadixGraph Nat) (s : Components Nat),
    actions Platform.exact (construct ⟨0, true⟩ (.ofVector [2]) 1 (by decide))
        [.op (.insertEdge 3 2 1), .op (.insertEdge 1 0 1)] = .ok g ∧
      shiloachVishkin .forward 5 g 4 = .ok s ∧ s.comp.get 3 = s.comp.get 1 ∧ s.comp.get 3 ≠ s.comp.get 2 ∧
      ¬ Separates (ExternalEdge [(3, 2, 1), (1, 0, 1)]) [3, 2, 1, 0] s.comp := by
  have misled : (do
      let g ← actions Platform.exact (construct ⟨0, true⟩ (.ofVector [2]) 1 (by decide))
        [.op (.insertEdge 3 2 (1 : Nat)), .op (.insertEdge 1 0 1)]
      let s ← shiloachVishkin .forward 5 g 4
      .ok (s.comp.get 3, s.comp.get 1, s.comp.get 2) : Result _) = .ok (.ok 1, .ok 1, .ok 2) := by decide +kernel
  obtain ⟨g, ran, rest⟩ := bind_eq_ok.mp misled
  obtain ⟨s, labelled, read⟩ := bind_eq_ok.mp rest
  obtain ⟨three, read⟩ := Prod.mk.inj (Except.ok.inj read)
  obtain ⟨one, two⟩ := Prod.mk.inj read
  refine ⟨g, s, ran, labelled, by rw [three, one], by rw [three, two]; decide, fun separates => ?_⟩
  obtain ⟨x, y, here, there, same⟩ := separates 3 (by decide) 2 (by decide)
  rw [three, Except.ok.injEq] at here
  rw [two, Except.ok.injEq] at there
  have equal := same.mpr (.rel 3 2 ⟨1, by decide⟩)
  rw [← here, ← there] at equal
  cases equal

end Radix.Analytics
