import Radix.Sort.Calls

/-!
# Rebuilding the tree with other digit widths

`Transform` collects the leaves with their ids, takes over the new widths and puts the leaves back.
-/

namespace Radix

open Lib

variable {W : Type} [Zero W]

namespace SORT

def withWidths (t : SORT W) (ws : List Nat) : SORT W :=
  { t with numBits := ws, sumBits := sums 0 ws }

structure Adopting (t₀ : SORT W) (newBits : List Nat) (i : Nat) (t : SORT W) : Prop where
  numBits : t.numBits = newBits.take i ++ t₀.numBits.drop i
  sumBits : ∃ rest, t.sumBits = sums 0 (newBits.take i) ++ rest ∧ i + rest.length = t₀.depth
  others : t = { t₀ with numBits := t.numBits, sumBits := t.sumBits }

theorem sums_append (before : Nat) (ws more : List Nat) :
    sums before (ws ++ more) = sums before ws ++ sums (before + ws.sum) more := by
  induction ws generalizing before with
  | nil => rfl
  | cons w ws ih => simp [sums, ih, Nat.add_assoc]

theorem sumBefore_prefix (ws rest : List Nat) :
    sumBefore (sums 0 ws ++ rest) ws.length = ws.sum := by
  cases ws.eq_nil_or_concat' with
  | inl none => simp [none, sumBefore]
  | inr some =>
      obtain ⟨init, last, rfl⟩ := some
      have inside : init.length < (init ++ [last]).length := by simp
      have total := sums_getD 0 (init ++ [last]) inside
      rw [List.getD_eq_getElem?_getD] at total
      rw [sumBefore, if_pos (by simp), List.getD_eq_getElem?_getD,
        List.getElem?_append_left (by simp [sums_length])]
      simpa using total

theorem Adopting.start {t : SORT W} {ws : List Nat} (shaped : t.Shaped ws) (newBits : List Nat) :
    Adopting t newBits 0 t :=
  ⟨by simp, ⟨t.sumBits, by simp [sums], by simp [shaped.sumBits, shaped.depth, sums_length]⟩, rfl⟩

theorem Adopting.step {t₀ t : SORT W} {ws newBits : List Nat} (shaped : t₀.Shaped ws)
    (length : newBits.length = ws.length) {i : Nat} (inside : i < ws.length)
    (adopting : Adopting t₀ newBits i t) :
    ∃ t', adopt newBits t i = .ok t' ∧ Adopting t₀ newBits (i + 1) t' := by
  obtain ⟨numBits, ⟨rest, sumBits, count⟩, others⟩ := adopting
  have here : i < newBits.length := length ▸ inside
  have taken : (newBits.take i).length = i := List.length_take_of_le here.le
  have next : newBits.take (i + 1) = newBits.take i ++ [newBits[i]] := by
    rw [List.take_add_one, List.getElem?_eq_getElem here]
    rfl
  have before : sumBefore t.sumBits i = (newBits.take i).sum := by
    rw [sumBits]
    simpa only [taken] using sumBefore_prefix (newBits.take i) rest
  obtain ⟨old, rest, rfl⟩ := List.exists_cons_of_length_pos (show 0 < rest.length by
    rw [shaped.depth] at count
    omega)
  refine ⟨_, by rw [adopt, List.getElem?_eq_getElem here], ?_, ⟨rest, ?_, ?_⟩, ?_⟩
  · have drop : t₀.numBits.drop i = ws[i] :: t₀.numBits.drop (i + 1) := by
      rw [shaped.numBits, List.drop_eq_getElem_cons inside]
    simp only [numBits, next, drop]
    rw [List.set_append_right _ _ taken.le, taken, Nat.sub_self, List.set_cons_zero, List.append_assoc]
    rfl
  · change t.sumBits.set i (sumBefore t.sumBits i + newBits[i]) = _
    rw [before, sumBits, next, sums_append, Nat.zero_add,
      List.set_append_right _ _ (by rw [sums_length, taken]), sums_length, taken, Nat.sub_self,
      List.set_cons_zero, List.append_assoc]
    rfl
  · simp only [List.length_cons] at count
    omega
  · rw [others]

theorem Adopting.done {t₀ t : SORT W} {ws newBits : List Nat} (shaped : t₀.Shaped ws)
    (length : newBits.length = ws.length) (adopting : Adopting t₀ newBits ws.length t) :
    t = t₀.withWidths newBits := by
  obtain ⟨numBits, ⟨rest, sumBits, count⟩, others⟩ := adopting
  obtain rfl : rest = [] := by
    rw [← List.length_eq_zero_iff]
    rw [shaped.depth] at count
    omega
  rw [others, numBits, sumBits, shaped.numBits, withWidths]
  simp [← length]

theorem withWidths_shaped {t : SORT W} {ws newBits : List Nat} (shaped : t.Shaped ws)
    (length : newBits.length = ws.length) : (t.withWidths newBits).Shaped newBits :=
  ⟨rfl, rfl, shaped.depth.trans length.symm⟩

theorem adoptAll_spec {t : SORT W} {ws newBits : List Nat} (shaped : t.Shaped ws)
    (length : newBits.length = ws.length) :
    (List.range t.depth).foldlM (adopt newBits) t = .ok (t.withWidths newBits) := by
  obtain ⟨t', looped, adopting⟩ := foldlM_range ws.length (Adopting t newBits)
    (fun i inside s held => held.step shaped length inside) (.start shaped newBits)
  rw [shaped.depth, looped, adopting.done shaped length]

/-! ## The search -/

/-- The frontier on the level behind the digits `before`: what the tree holds there, with the id
that its digits spell. -/
def Reached (root : Ptr) (before : List Nat) (frontiers : Frontier) : Prop :=
  ∀ u, u ∈ frontiers ↔
    ∃ ds, Fit before ds ∧ root.find ds = u.1 ∧ u.1 ≠ .empty ∧ u.2 = join 0 before ds

theorem child_inside (c : Nat → Ptr) {bits j : Nat} (inside : j ∈ List.range (2 ^ bits)) :
    Ptr.child (.node c) bits j = .ok (c j) := if_pos (List.mem_range.mp inside)

theorem successors_spec (bits : Nat) (c : Nat → Ptr) (key : Nat) :
    successors bits (.node c, key) = .ok (((List.range (2 ^ bits)).filter fun j => !(c j).isNull).map
      fun j => (c j, key * 2 ^ bits + j)) := by
  have := foldlM_collect Ptr.isNull (fun child j => (child, key * 2 ^ bits + j))
    (List.range (2 ^ bits)) (fun j inside => child_inside c inside) []
  simpa [successors] using this

theorem search_level {root : Ptr} {before rest : List Nat} (w : Nat)
    (fits : root.Fits (before.length + (rest.length + 1))) {frontiers : Frontier}
    (reached : Reached root before frontiers) :
    ∃ next, frontiers.foldlM (fun next u => do
        let found ← successors w u
        .ok (next ++ found)) [] = .ok next ∧ Reached root (before ++ [w]) next := by
  have node : ∀ u ∈ frontiers, ∃ c, u.1 = .node c := by
    intro u member
    obtain ⟨ds, fit, found, stored, -⟩ := (reached u).mp member
    rw [fit.length_eq] at fits
    rcases (Trie.Fits.find ds fits).cases_succ with none | ⟨c, here, -⟩
    · exact absurd (found ▸ none) stored
    · exact ⟨c, found ▸ here⟩
  let found (u : Ptr × Nat) : Frontier := ((List.range (2 ^ w)).filter fun j =>
    !Ptr.isNull (u.1.find [j])).map fun j => (u.1.find [j], u.2 * 2 ^ w + j)
  have each : ∀ u ∈ frontiers, successors w u = .ok (found u) := by
    rintro ⟨ptr, key⟩ member
    obtain ⟨c, rfl⟩ := node _ member
    simpa [found] using successors_spec w c key
  refine ⟨_, foldlM_flatMap each [], fun u => ?_⟩
  simp only [List.nil_append, List.mem_flatMap, found, List.mem_map, List.mem_filter, List.mem_range,
    Bool.not_eq_true', Bool.eq_false_iff, ne_eq, Ptr.isNull_iff]
  constructor
  · rintro ⟨⟨ptr, key⟩, member, j, ⟨digit, stored⟩, rfl⟩
    obtain ⟨ds, fit, rfl, -, rfl⟩ := (reached _).mp member
    exact ⟨ds ++ [j], fit_snoc.mpr ⟨ds, j, rfl, fit, digit⟩, Trie.find_append _ _ _, stored,
      (join_snoc fit 0 w j).symm⟩
  · rintro ⟨es, fit, here, stored, key⟩
    obtain ⟨ds, d, rfl, fit, digit⟩ := fit_snoc.mp fit
    rw [Trie.find_append] at here
    have parent : root.find ds ≠ .empty := by
      intro none
      rw [none, Trie.find_empty] at here
      exact stored here.symm
    refine ⟨(root.find ds, join 0 before ds), (reached _).mpr ⟨ds, fit, rfl, parent, rfl⟩, d,
      ⟨digit, by rwa [here]⟩, ?_⟩
    rw [here, ← join_snoc fit, ← key]

theorem search_spec {t : SORT W} {ws newBits : List Nat} (shaped : t.Shaped ws)
    (length : newBits.length = ws.length) (node : ∃ c, t.root = .node c) (fits : t.root.Fits ws.length) :
    ∃ frontiers, (List.range t.depth).foldlM (searchLevel newBits) (t, [(t.root, 0)]) =
        .ok (t.withWidths newBits, frontiers) ∧ Reached t.root ws frontiers := by
  have start : Reached t.root [] [(t.root, 0)] := by
    obtain ⟨c, node⟩ := node
    intro u
    constructor
    · intro member
      obtain rfl := List.mem_singleton.mp member
      exact ⟨[], .nil, by simp, by simp [node], rfl⟩
    · rintro ⟨ds, fit, here, -, key⟩
      obtain _ | _ := fit
      rw [List.mem_singleton]
      exact Prod.ext (by simpa using here.symm) key
  let holds (i : Nat) (state : SORT W × Frontier) : Prop :=
    Adopting t newBits i state.1 ∧ Reached t.root (ws.take i) state.2
  have level : ∀ i < ws.length, ∀ state, holds i state →
      ∃ state', searchLevel newBits state i = .ok state' ∧ holds (i + 1) state' := by
    rintro i inside ⟨t', frontiers⟩ ⟨adopting, reached⟩
    have next : ws.take (i + 1) = ws.take i ++ [ws[i]] := by
      rw [List.take_add_one, List.getElem?_eq_getElem inside]
      rfl
    have split : ws.length = (ws.take i).length + ((ws.drop (i + 1)).length + 1) := by
      rw [List.length_take_of_le inside.le, List.length_drop]
      omega
    have width : t'.numBits.getD i 0 = ws[i] := by
      rw [adopting.numBits, shaped.numBits, List.getD_eq_getElem?_getD, List.getElem?_append_right
        (by simp), List.length_take_of_le (by omega), Nat.sub_self, List.getElem?_drop]
      simp [inside]
    obtain ⟨found, searched, reached'⟩ := search_level ws[i] (split ▸ fits) reached
    obtain ⟨final, adopted, adopting'⟩ := adopting.step shaped length inside
    refine ⟨(final, found), ?_, adopting', next ▸ reached'⟩
    simp only [searchLevel, width, searched, ok_bind, adopted]
  have begun : holds 0 (t, [(t.root, 0)]) := ⟨.start shaped newBits, by simpa using start⟩
  obtain ⟨⟨t', frontiers⟩, looped, adopting, reached⟩ := foldlM_range ws.length holds level begun
  refine ⟨frontiers, ?_, by simpa using reached⟩
  obtain rfl : t' = t.withWidths newBits := adopting.done shaped length
  rw [shaped.depth, looped]

theorem Reached.mem_iff {root : Ptr} {ws : List Nat} {frontiers : Frontier}
    (reached : Reached root ws frontiers) (u : Ptr × Nat) :
    u ∈ frontiers ↔ u.2 < 2 ^ ws.sum ∧ root.find (cut ws u.2) = u.1 ∧ u.1 ≠ .empty := by
  rw [reached u]
  constructor
  · rintro ⟨ds, fit, here, stored, key⟩
    have bound := join_lt fit 0
    rw [Nat.zero_add, Nat.one_mul] at bound
    rw [key, cut_join fit]
    exact ⟨bound, here, stored⟩
  · rintro ⟨bound, here, stored⟩
    refine ⟨_, cut_fit ws u.2, here, stored, ?_⟩
    rw [join_cut, Nat.zero_mul, Nat.zero_add, Nat.mod_eq_of_lt bound]

/-! ## The rebuilt tree -/

theorem place_spec (u : Ptr × Nat) {t : SORT W} (before : List Nat) {w : Nat} {rest : List Nat}
    (shaped : t.Shaped (before ++ w :: rest)) {c : Nat → Ptr}
    (fits : Trie.Fits (rest.length + 1) (.node c)) :
    place t u (rest.length + 1) (.node c) =
      .ok (if Ptr.isNull (Trie.find (.node c) (cut (w :: rest) u.2)) then
        Trie.put u.1 (cut (w :: rest) u.2) (.node c) else .node c) := by
  induction rest generalizing before w c with
  | nil =>
      obtain ⟨level, bits, digit⟩ := shaped.level u.2
      rw [place, level, bits, digit, child_digit, ok_bind, cut_cons, cut_nil, Trie.find_node,
        Trie.find_nil, if_neg (by simp), Trie.put_node, Trie.put_nil, Ptr.setChild]
  | cons w' rest ih =>
      obtain ⟨level, bits, digit⟩ := shaped.level u.2
      rw [place, level, bits, digit, child_digit, ok_bind, cut_cons w (w' :: rest), Trie.find_node,
        if_pos (by simp), Trie.put_node]
      generalize u.2 / 2 ^ (w' :: rest).sum % 2 ^ w = d
      rcases (fits d).cases_succ with none | ⟨c', node, below⟩
      · have placed := ih (before ++ [w]) (c := fun _ => .empty) (by simpa using shaped) (fun _ => by simp)
        simp only [none, Ptr.isNull_empty, if_true, List.length_cons, Ptr.newNode, Trie.bare, placed,
          ok_bind, cut_cons, Trie.find_node, Trie.find_empty, Ptr.setChild, Trie.put_node]
        rfl
      · have placed := ih (before ++ [w]) (by simpa using shaped) below
        have unchanged : Function.update c d (.node c') = c := by rw [← node, Function.update_eq_self]
        simp only [node, Ptr.isNull_node, Bool.false_eq_true, if_false, List.length_cons, placed, ok_bind]
        split
        · rfl
        · rw [Ptr.setChild, unchanged]

def firstEntry (B : Nat) (frontiers : Frontier) (id : Nat) : Ptr :=
  ((frontiers.find? fun u => u.2 % 2 ^ B = id % 2 ^ B).map Prod.fst).getD .empty

structure Rebuilt (ws : List Nat) (frontiers : Frontier) (root : Ptr) : Prop where
  node : ∃ c, root = .node c
  fits : root.Fits ws.length
  found : ∀ id, root.find (cut ws id) = firstEntry ws.sum frontiers id
  rooted : (∀ u ∈ frontiers, ∃ k, u.1 = Ptr.vertex k) → root.Rooted ws

theorem Reached.firstEntry {root : Ptr} {ws : List Nat} {frontiers : Frontier} (reached : Reached root ws frontiers)
    (id : NodeID) : SORT.firstEntry ws.sum frontiers id = root.find (cut ws id) := by
  rw [SORT.firstEntry]
  cases first : frontiers.find? fun u => u.2 % 2 ^ ws.sum = id % 2 ^ ws.sum with
  | none =>
      rw [List.find?_eq_none] at first
      by_contra stored
      have low : id % 2 ^ ws.sum < 2 ^ ws.sum := Nat.mod_lt _ (Nat.two_pow_pos _)
      have same : cut ws (id % 2 ^ ws.sum) = cut ws id := (cut_eq_iff ws _ _).mpr (Nat.mod_modEq _ _)
      apply first (root.find (cut ws id), id % 2 ^ ws.sum)
      · exact (reached.mem_iff _).mpr ⟨low, by rw [same], fun none => stored none.symm⟩
      · simp
  | some u =>
      have same : u.2 ≡ id [MOD 2 ^ ws.sum] := by
        simpa [Nat.ModEq] using List.find?_some first
      obtain ⟨-, here, -⟩ := (reached.mem_iff u).mp (List.mem_of_find?_eq_some first)
      rw [← (cut_eq_iff ws _ _).mpr same, here]
      rfl

theorem firstEntry_snoc (B : Nat) (frontiers : Frontier) (u : Ptr × Nat) (id : Nat)
    (stored : ∀ v ∈ frontiers, v.1 ≠ .empty) :
    firstEntry B (frontiers ++ [u]) id =
      if Ptr.isNull (firstEntry B frontiers id) ∧ u.2 ≡ id [MOD 2 ^ B] then u.1
      else firstEntry B frontiers id := by
  rw [firstEntry, List.find?_append, firstEntry]
  cases found : frontiers.find? fun u => u.2 % 2 ^ B = id % 2 ^ B with
  | none => by_cases same : u.2 % 2 ^ B = id % 2 ^ B <;> simp [Nat.ModEq, same]
  | some v =>
      have := stored v (List.mem_of_find?_eq_some found)
      simp [Ptr.isNull_iff, this]

theorem rebuild_spec {t : SORT W} {ws : List Nat} (shaped : t.Shaped ws) (levels : ws ≠ [])
    (frontiers : Frontier) (stored : ∀ u ∈ frontiers, u.1 ≠ .empty) :
    ∃ root, frontiers.foldlM (fun now u => t.place u t.depth now) Ptr.newNode = .ok root ∧
      Rebuilt ws frontiers root := by
  obtain ⟨w, rest, rfl⟩ := List.exists_cons_of_ne_nil levels
  refine foldlM_invariant frontiers (Rebuilt (w :: rest)) (fun done u now earlier rebuilt => ?_)
    ⟨⟨_, rfl⟩, fun _ => by simp, fun id => by simp [Trie.bare, firstEntry],
      fun _ => Trie.bare_rooted w rest⟩
  obtain ⟨⟨c, rfl⟩, fits, found, rooted⟩ := rebuilt
  have kept : ∀ v ∈ done, v.1 ≠ .empty := fun v member =>
    stored v (earlier.subset (List.mem_append_left [u] member))
  have placed := place_spec u [] shaped fits
  rw [show rest.length + 1 = t.depth from shaped.depth.symm, found] at placed
  refine ⟨_, placed, ?_⟩
  by_cases free : Ptr.isNull (firstEntry (w :: rest).sum done u.2)
  · rw [if_pos free]
    refine ⟨⟨_, rfl⟩, ?_, fun id => ?_, fun leaves => ?_⟩
    · simpa using Trie.put_fits u.1 (cut (w :: rest) u.2) (t := .node c) (by simpa using fits)
    · rw [firstEntry_snoc _ _ _ _ kept]
      by_cases same : u.2 ≡ id [MOD 2 ^ (w :: rest).sum]
      · have alike : firstEntry (w :: rest).sum done id = firstEntry (w :: rest).sum done u.2 := by
          rw [firstEntry, firstEntry, show u.2 % _ = id % _ from same]
        rw [← (cut_eq_iff _ u.2 id).mpr same, Trie.find_put_same, alike, if_pos ⟨free, same⟩]
      · rw [Trie.find_put_other _ (by simp) (fun equal => same ((cut_eq_iff _ _ _).mp equal.symm))
          (by simpa using fits), found, if_neg fun both => same both.2]
    · obtain ⟨k, leaf⟩ := leaves u (by simp)
      rw [leaf]
      exact Trie.put_rooted k (cut_fit _ u.2) (rooted fun v member => leaves v (by simp [member]))
  · rw [if_neg free]
    refine ⟨⟨c, rfl⟩, fits, fun id => ?_, fun leaves => rooted fun v member => leaves v (by simp [member])⟩
    rw [firstEntry_snoc _ _ _ _ kept, found, if_neg]
    rintro ⟨null, same⟩
    refine free ?_
    rwa [firstEntry, show u.2 % _ = id % _ from same]

/-! ## Transform by tree search -/

theorem Dictionary.transform_search {t : SORT W} {ws newBits : List Nat} {ids : List NodeID}
    (dict : t.Dictionary ws ids) (root : t.root ≠ .empty) (length : newBits.length = ws.length)
    (sum : newBits.sum = ws.sum) :
    ∃ t', t.transform t.depth newBits [] = .ok t' ∧ t'.Dictionary newBits ids ∧
      t'.root.Rooted newBits := by
  have rooted := dict.root.resolve_left fun none => root none.1
  have levels : newBits ≠ [] := List.ne_nil_of_length_pos (by
    rw [length]
    exact List.length_pos_iff.mpr dict.levels)
  have shaped := withWidths_shaped dict.shaped length
  obtain ⟨frontiers, searched, reached⟩ := search_spec dict.shaped length (rooted.isNode dict.levels) rooted.fits
  obtain ⟨root', placed, rebuilt⟩ := rebuild_spec shaped levels
    frontiers fun u member => ((reached.mem_iff u).mp member).2.2
  have leaves : ∀ u ∈ frontiers, ∃ k, u.1 = Ptr.vertex k := by
    intro u member
    obtain ⟨-, here, stored⟩ := (reached.mem_iff u).mp member
    rw [dict.found] at here
    cases found : position ws.sum ids u.2 with
    | none => exact absurd (by rw [← here, found]; rfl) stored
    | some k => exact ⟨k, by rw [← here, found]; rfl⟩
  refine ⟨{ t.withWidths newBits with root := root' }, ?_, ⟨⟨rfl, rfl, shaped.depth⟩, levels,
    .inr (rebuilt.rooted leaves), fun id => ?_, by simpa [sum] using dict.distinct, dict.cnt,
    dict.table⟩, rebuilt.rooted leaves⟩
  · rw [transform, if_neg (by simp), frontier, if_pos rfl, searched, ok_bind]
    exact congrArg (· >>= _) placed
  · rw [rebuilt.found, sum, reached.firstEntry, dict.found]

def shape (t : SORT W) : Trie Unit := t.root.map fun _ => ()

theorem Dictionary.shape_eq {V : Type} [Zero V] {t : SORT W} {s : SORT V} {ws : List Nat}
    {ids ids' : List NodeID} (dict : t.Dictionary ws ids) (dict' : s.Dictionary ws ids')
    (root : t.root ≠ .empty) (root' : s.root ≠ .empty)
    (same : ∀ id, position ws.sum ids id = none ↔ position ws.sum ids' id = none) :
    t.shape = s.shape := by
  have rooted := dict.root.resolve_left fun none => root none.1
  have rooted' := dict'.root.resolve_left fun none => root' none.1
  refine Trie.Rooted.ext (rooted.map _) (rooted'.map _) fun ds fit => ?_
  have agree := same (join 0 ws ds)
  rw [shape, shape, Trie.find_map, Trie.find_map, ← cut_join fit 0, dict.found, dict'.found]
  cases left : position ws.sum ids (join 0 ws ds) <;>
    cases right : position ws.sum ids' (join 0 ws ds) <;> simp_all [record, Trie.map]

/-! ## Size -/

theorem sum_map_filter {α : Type} (keep : α → Bool) (g : α → Nat) (as : List α)
    (dropped : ∀ a ∈ as, keep a = false → g a = 0) :
    ((as.filter keep).map g).sum = (as.map g).sum := by
  induction as with
  | nil => rfl
  | cons a as ih =>
      have rest := ih fun b member => dropped b (List.mem_cons_of_mem a member)
      cases kept : keep a with
      | false => simp [kept, rest, dropped a List.mem_cons_self kept]
      | true => simp [kept, rest]

/-- What the node of a queue entry adds to the queue: together with the node itself it weighs as
much as the entry. -/
theorem queued_spec {t : SORT W} {before rest : List Nat} {w : Nat}
    (shaped : t.Shaped (before ++ w :: rest)) {u : Ptr} (rooted : u.Rooted (w :: rest)) :
    ∃ more, t.queued u before.length = .ok more ∧
      (∀ v ∈ more, v.2 = before.length + 1 ∧ rest ≠ [] ∧ v.1.Rooted rest) ∧
      ∀ f, f w + (more.map fun v => Trie.weigh f rest v.1).sum = Trie.weigh f (w :: rest) u := by
  obtain ⟨c, rfl, all⟩ := rooted
  obtain ⟨level, bits, -⟩ := shaped.level 0
  have depth : t.depth = before.length + (rest.length + 1) := by simp [shaped.depth]
  cases rest with
  | nil =>
      refine ⟨[], ?_, by simp, fun f => by simp⟩
      rw [queued, if_neg (by simp [depth])]
  | cons w' rest =>
      have collected := foldlM_collect Ptr.isNull
        (fun child _ => (child, before.length + 1)) (List.range (2 ^ w)) (fun j inside => child_inside c inside) []
      refine ⟨_, Eq.trans ?_ collected, ?_, fun f => ?_⟩
      · rw [queued, if_pos (by simp [depth]), bits]
      · simp only [List.nil_append, List.mem_map, List.mem_filter, Bool.not_eq_true']
        rintro v ⟨j, ⟨-, stored⟩, rfl⟩
        refine ⟨rfl, by simp, ?_⟩
        rcases all j with none | ⟨-, grown⟩
        · simp [none] at stored
        · exact grown.rooted
      · rw [List.nil_append, List.map_map, Trie.weigh_node]
        refine congrArg (f w + ·) (sum_map_filter _ _ _ fun j _ null => ?_)
        have : c j = .empty := by simpa [Ptr.isNull_iff] using null
        simp [this]

theorem sizeLoop_spec {t : SORT W} {ws : List Nat} (shaped : t.Shaped ws) (rounds : Nat)
    (queue : List (Ptr × Nat))
    (rooted : ∀ v ∈ queue, v.2 < ws.length ∧ v.1.Rooted (ws.drop v.2))
    (enough : (queue.map fun v => Trie.weigh (fun _ => 1) (ws.drop v.2) v.1).sum ≤ rounds) (sz : Nat) :
    t.sizeLoop rounds queue sz =
      .ok (sz + (queue.map fun v => Trie.weigh (2 ^ ·) (ws.drop v.2) v.1).sum) := by
  induction rounds generalizing queue sz with
  | zero =>
      cases queue with
      | nil => simp [sizeLoop]
      | cons v queue =>
          obtain ⟨inside, here⟩ := rooted v (by simp)
          rw [List.drop_eq_getElem_cons inside] at here
          obtain ⟨c, node⟩ := here.node
          rw [List.map_cons, List.sum_cons, List.drop_eq_getElem_cons inside, node,
            Trie.weigh_node] at enough
          omega
  | succ rounds ih =>
      cases queue with
      | nil => simp [sizeLoop]
      | cons v queue =>
          obtain ⟨u, d⟩ := v
          obtain ⟨inside, here⟩ := rooted (u, d) (by simp)
          have split : ws = ws.take d ++ ws[d] :: ws.drop (d + 1) := by
            rw [← List.drop_eq_getElem_cons inside, List.take_append_drop]
          have taken : (ws.take d).length = d := List.length_take_of_le (by omega)
          rw [List.drop_eq_getElem_cons inside] at here
          obtain ⟨more, pushed, below, weighs⟩ := queued_spec (split ▸ shaped) here
          rw [taken] at pushed below
          have weight (f : Nat → Nat) :
              f ws[d] + (more.map fun v => Trie.weigh f (ws.drop v.2) v.1).sum =
                Trie.weigh f (ws.drop d) u := by
            rw [List.drop_eq_getElem_cons inside, ← weighs f]
            refine congrArg (f ws[d] + ·) (congrArg List.sum (List.map_congr_left fun v member => ?_))
            rw [(below v member).1]
          have width : t.numBits.getD d 0 = ws[d] := by
            rw [shaped.numBits, List.getD_eq_getElem?_getD, List.getElem?_eq_getElem inside, Option.getD_some]
          have step := ih (queue ++ more) (fun v member => ?_) ?_ (sz + 2 ^ ws[d])
          · rw [sizeLoop, if_pos (by rwa [shaped.depth]), pushed, ok_bind, width, step]
            have slots := weight (2 ^ ·)
            rw [List.map_append, List.sum_append, List.map_cons, List.sum_cons]
            dsimp only at slots ⊢
            rw [← slots]
            congr 1
            omega
          · rcases List.mem_append.mp member with old | new
            · exact rooted v (by simp [old])
            · obtain ⟨level, some, rooted⟩ := below v new
              rw [level]
              exact ⟨by simpa using some, rooted⟩
          · have nodes := weight fun _ => 1
            rw [List.map_cons, List.sum_cons] at enough
            rw [List.map_append, List.sum_append]
            dsimp only at nodes enough
            omega

theorem size_spec {t : SORT W} {ws : List Nat} (shaped : t.Shaped ws) (levels : ws ≠ [])
    (rooted : t.root.Rooted ws) {rounds : Nat}
    (enough : Trie.weigh (fun _ => 1) ws t.shape ≤ rounds) :
    t.size rounds = .ok (Trie.weigh (2 ^ ·) ws t.shape) := by
  rw [shape, Trie.weigh_map] at enough ⊢
  have looped := sizeLoop_spec shaped rounds [(t.root, 0)]
    (fun v member => by
      obtain rfl := List.mem_singleton.mp member
      exact ⟨List.length_pos_iff.mpr levels, rooted⟩) (by simpa using enough) 0
  simpa [size] using looped

/-- Transforming by tree search keeps every answer, and the new tree is the one that inserting the
ids afresh gives: it has the shape and the `Size` of any tree with the new widths whose root exists
and into which the same ids were inserted. -/
theorem transform_search_canonical {t₀ t : SORT W} {ws : List Nat} (fresh : Constructed t₀ ws)
    {calls : List (GlobalInfo × Call)} (inRange : ∀ c ∈ calls, c.2.id < 2 ^ ws.sum)
    {answers : List Answer} (ran : t₀.runCalls calls = .ok (answers, t)) (root : t.root ≠ .empty)
    {newBits : List Nat} (length : newBits.length = t.depth) (sum : newBits.sum = ws.sum) :
    ∃ t', t.transform t.depth newBits [] = .ok t' ∧
      (∀ info id, id < 2 ^ ws.sum → t'.fetch info id = t.fetch info id) ∧
      ∀ (others : List (GlobalInfo × Call)) (answers' : List Answer) (s : SORT W),
        (∀ c ∈ others, c.2.id < 2 ^ ws.sum) →
        (∀ id, id ∈ insertions others ↔ id ∈ insertions calls) →
        (ofFanout newBits).runCalls others = .ok (answers', s) → s.root ≠ .empty →
        t'.shape = s.shape ∧
          ∃ n enough, ∀ rounds ≥ enough, t'.size rounds = .ok n ∧ s.size rounds = .ok n := by
  obtain ⟨_, _, ran', dict, -⟩ := fresh.dictionary.runCalls calls
  obtain ⟨rfl, rfl⟩ := Prod.mk.inj (Except.ok.inj (ran'.symm.trans ran))
  obtain ⟨t', transformed, dict', rooted⟩ :=
    dict.transform_search root (length.trans dict.shaped.depth) sum
  refine ⟨t', transformed, fun info id _ => ?_, fun others answers' s inRange' same ranOthers root' => ?_⟩
  · rw [dict'.fetch, dict.fetch, sum]
  · obtain ⟨_, _, ran'', dictOthers, -⟩ :=
      (ofFanout_dictionary (W := W) dict'.levels).runCalls others
    obtain ⟨rfl, rfl⟩ := Prod.mk.inj (Except.ok.inj (ran''.symm.trans ranOthers))
    have stored : t'.root ≠ .empty := by
      obtain ⟨w, rest, rfl⟩ := List.exists_cons_of_ne_nil dict'.levels
      obtain ⟨c, node⟩ := rooted.node
      simp [node]
    have shapes := dict'.shape_eq dictOthers stored root' fun id => by
      have low : id % 2 ^ ws.sum < 2 ^ ws.sum := Nat.mod_lt _ (Nat.two_pow_pos _)
      rw [sum, enteredBy_inRange inRange, enteredBy_inRange inRange',
        ← position_congr (Nat.mod_modEq id (2 ^ ws.sum)), ← position_congr (Nat.mod_modEq id (2 ^ ws.sum)),
        position_none_inRange (firstInserted_inRange inRange) low,
        position_none_inRange (firstInserted_inRange inRange') low, firstInserted, firstInserted,
        List.mem_eraseDups, List.mem_eraseDups, same]
    have rooted' := dictOthers.root.resolve_left fun none => root' none.1
    refine ⟨shapes, _, _, fun rounds enough => ⟨size_spec dict'.shaped dict'.levels rooted enough, ?_⟩⟩
    rw [shapes] at enough ⊢
    exact size_spec dictOthers.shaped dictOthers.levels rooted' enough

/-- A tree with two ids, made coarser, beside a new tree of the new widths with the same ids in the other order. -/
theorem transform_search_canonical_pair : ∃ t t' s : SORT Nat,
    (ofVector [1, 1]).runCalls [(⟨0, false⟩, .retrieveVertex 2 true), (⟨0, false⟩, .retrieveVertex 1 true)] =
      .ok ([.vertex (Ptr.vertex 0), .vertex (Ptr.vertex 1)], t) ∧
    t.transform 2 [2, 0] [] = .ok t' ∧ t'.fetch ⟨0, false⟩ 1 = t.fetch ⟨0, false⟩ 1 ∧
    (ofFanout [2, 0]).runCalls [(⟨0, false⟩, .retrieveVertex 1 true), (⟨0, false⟩, .retrieveVertex 2 true)] =
      .ok ([.vertex (Ptr.vertex 0), .vertex (Ptr.vertex 1)], s) ∧
    t'.shape = s.shape ∧ ∃ n enough, ∀ rounds ≥ enough, t'.size rounds = .ok n ∧ s.size rounds = .ok n := by
  have fresh : Constructed (ofVector [1, 1] : SORT Nat) [1, 1] := .vector (by decide)
  have inRange : ∀ c ∈ ([(⟨0, false⟩, .retrieveVertex 2 true), (⟨0, false⟩, .retrieveVertex 1 true)] :
      List (GlobalInfo × Call)), c.2.id < 2 ^ [1, 1].sum := by decide
  obtain ⟨t', transformed, fetched, canonical⟩ := transform_search_canonical fresh inRange rfl
    (fun null => by cases null) (show [2, 0].length = _ from rfl) rfl
  obtain ⟨shapes, sizes⟩ := canonical
    [(⟨0, false⟩, .retrieveVertex 1 true), (⟨0, false⟩, .retrieveVertex 2 true)] _ _ (by decide)
    (fun id => by simp [insertions, or_comm]) rfl (fun null => by cases null)
  exact ⟨_, t', _, rfl, transformed, fetched _ 1 (by decide), rfl, shapes, sizes⟩

/-- Without an insertion the root of the fresh tree is not made, and `Size` fails on it. -/
theorem transform_search_without_insertion :
    insertions [(⟨0, false⟩, .retrieveVertex 0 false)] = insertions [] ∧
    (do
      let (_, t) ← (ofVector [1, 1] : SORT Nat).runCalls [(⟨0, false⟩, .retrieveVertex 0 false)]
      let t ← t.transform 2 [1, 1] []
      let n ← t.size 1
      .ok (t.root.isNull, n)) = .ok (false, 2) ∧
    (ofFanout [1, 1] : SORT Nat).root.isNull = true ∧
    ∀ rounds, (ofFanout [1, 1] : SORT Nat).size (rounds + 1) = .error .nullPointer :=
  ⟨rfl, rfl, rfl, fun _ => rfl⟩

/-! ## Transform with a vertex set -/

theorem locate_spec (u : Nat) {t : SORT W} (before : List Nat) {w : Nat} {rest : List Nat}
    (shaped : t.Shaped (before ++ w :: rest)) {c : Nat → Ptr}
    (fits : Trie.Fits (rest.length + 1) (.node c))
    (stored : Trie.find (.node c) (cut (w :: rest) u) ≠ .empty) :
    locate t u (rest.length + 1) (.node c) = .ok (Trie.find (.node c) (cut (w :: rest) u)) := by
  induction rest generalizing before w c with
  | nil =>
      obtain ⟨level, bits, digit⟩ := shaped.level u
      rw [locate, level, bits, digit, child_digit, ok_bind, cut_cons, cut_nil, Trie.find_node,
        Trie.find_nil]
      rfl
  | cons w' rest ih =>
      obtain ⟨level, bits, digit⟩ := shaped.level u
      rw [cut_cons w (w' :: rest), Trie.find_node] at stored
      rw [locate, level, bits, digit, child_digit, ok_bind, cut_cons w (w' :: rest), Trie.find_node]
      rcases (fits (u / 2 ^ (w' :: rest).sum % 2 ^ w)).cases_succ with none | ⟨c', node, below⟩
      · rw [none, Trie.find_empty] at stored
        exact absurd rfl stored
      · rw [node] at stored ⊢
        exact ih (before ++ [w]) (by simpa using shaped) below stored

theorem Rebuilt.fetch {t : SORT W} {ws : List Nat} {frontiers : Frontier} (shaped : t.Shaped ws)
    (levels : ws ≠ []) (rebuilt : Rebuilt ws frontiers t.root) (info : GlobalInfo) (id : NodeID) :
    t.fetch info id = .ok (firstEntry ws.sum frontiers id) := by
  obtain ⟨w, rest, rfl⟩ := List.exists_cons_of_ne_nil levels
  obtain ⟨⟨c, node⟩, fits, found, -⟩ := rebuilt
  rw [node] at fits found
  have retrieved := retrieveFrom_spec info id false [] shaped fits
  rw [show rest.length + 1 = t.depth from shaped.depth.symm, found] at retrieved
  rw [SORT.fetch, retrieveVertex, SORT.ensureRoot, node, Ptr.isNull_node, if_neg (by simp), ok_bind]
  simp only [node, retrieved, ok_bind]
  simp

theorem Dictionary.transform_vertexSet {t : SORT W} {ws newBits : List Nat} {ids : List NodeID}
    (dict : t.Dictionary ws ids) (some : ids ≠ []) (length : newBits.length = ws.length)
    (sum : newBits.sum = ws.sum) {vertexSet : List Nat} (nonempty : vertexSet ≠ [])
    (known : ∀ u ∈ vertexSet, position ws.sum ids u ≠ none) :
    ∃ t', t.transform t.depth newBits vertexSet = .ok t' ∧ ∀ info id, t'.fetch info id =
      .ok (firstEntry newBits.sum
        ((t.root, 0) :: vertexSet.map fun u => (record (position ws.sum ids u), u)) id) := by
  have rooted := dict.root.resolve_left fun none => some none.2
  have shaped := withWidths_shaped dict.shaped length
  have levels : newBits ≠ [] := List.ne_nil_of_length_pos (by
    rw [length]
    exact List.length_pos_iff.mpr dict.levels)
  have stored {u : Nat} (member : u ∈ vertexSet) : record (position ws.sum ids u) ≠ .empty := by
    obtain ⟨k, found⟩ := Option.ne_none_iff_exists'.mp (known u member)
    simp [found, record]
  have node : ∃ c, t.root = .node c := by
    obtain ⟨w, rest, rfl⟩ := List.exists_cons_of_ne_nil dict.levels
    exact rooted.node
  have located : vertexSet.foldlM (fun frontiers u => do
      let slot ← t.locate u t.depth t.root
      .ok (frontiers ++ [(slot, u)])) [(t.root, 0)] =
        (.ok ((t.root, 0) :: vertexSet.map fun u => (record (position ws.sum ids u), u)) :
          Result Frontier) := by
    have each : ∀ u ∈ vertexSet, t.locate u t.depth t.root = .ok (record (position ws.sum ids u)) := by
      intro u member
      obtain ⟨c, node⟩ := node
      obtain ⟨w, rest, rfl⟩ := List.exists_cons_of_ne_nil dict.levels
      have here := dict.found u
      rw [node] at here rooted
      have walked := locate_spec u [] dict.shaped rooted.fits (here ▸ stored member)
      rwa [here, show rest.length + 1 = t.depth from dict.shaped.depth.symm, ← node] at walked
    have collected := foldlM_collect (fun _ => false) (fun slot u => (slot, u)) vertexSet each [(t.root, 0)]
    simpa using collected
  obtain ⟨root', placed, rebuilt⟩ := rebuild_spec shaped levels
    ((t.root, 0) :: vertexSet.map fun u => (record (position ws.sum ids u), u)) (by
      obtain ⟨c, node⟩ := node
      intro u member
      rcases List.mem_cons.mp member with rfl | member
      · simp [node]
      · obtain ⟨u, inside, rfl⟩ := List.mem_map.mp member
        exact stored inside)
  refine ⟨{ t.withWidths newBits with root := root' }, ?_, fun info id => ?_⟩
  · rw [transform, if_neg (by simp), frontier, if_neg nonempty, located, ok_bind,
      adoptAll_spec dict.shaped length, ok_bind]
    simp only [ok_bind, placed]
  · exact Rebuilt.fetch (t := { t.withWidths newBits with root := root' })
      ⟨rfl, rfl, shaped.depth⟩ levels rebuilt info id

theorem firstEntry_cons (B : Nat) (u : Ptr × Nat) (frontiers : Frontier) (id : Nat) :
    firstEntry B (u :: frontiers) id =
      if u.2 ≡ id [MOD 2 ^ B] then u.1 else firstEntry B frontiers id := by
  rw [firstEntry, List.find?_cons]
  by_cases same : u.2 % 2 ^ B = id % 2 ^ B <;> simp [Nat.ModEq, same, firstEntry]

theorem firstEntry_map {B : Nat} (f : Nat → Ptr) {vertexSet : List Nat}
    (bounded : ∀ u ∈ vertexSet, u < 2 ^ B) {id : Nat} (inRange : id < 2 ^ B) :
    firstEntry B (vertexSet.map fun u => (f u, u)) id = if id ∈ vertexSet then f id else .empty := by
  induction vertexSet with
  | nil => rfl
  | cons u vertexSet ih =>
      rw [List.map_cons, firstEntry_cons, ih fun v member => bounded v (List.mem_cons_of_mem u member)]
      by_cases same : u ≡ id [MOD 2 ^ B]
      · rw [if_pos same]
        obtain rfl := same.eq_of_lt_of_lt (bounded u List.mem_cons_self) inRange
        simp
      · have different : id ≠ u := fun equal => same (by rw [equal])
        simp [same, different]

/-- Transforming with the set of the inserted ids keeps the answer of an id exactly when the id is
not 0: the leaf slot of 0 gets the old root, which still heads the list of the entries. -/
theorem transform_vertexSet_iff {t₀ t : SORT W} {ws : List Nat} (fresh : Constructed t₀ ws)
    {calls : List (GlobalInfo × Call)} (inRange : ∀ c ∈ calls, c.2.id < 2 ^ ws.sum)
    {answers : List Answer} (ran : t₀.runCalls calls = .ok (answers, t))
    (some : insertions calls ≠ []) {vertexSet : List Nat}
    (same : ∀ u, u ∈ vertexSet ↔ u ∈ insertions calls) {newBits : List Nat}
    (length : newBits.length = t.depth) (sum : newBits.sum = ws.sum) :
    ∃ t', t.transform t.depth newBits vertexSet = .ok t' ∧
      ∀ info id, id < 2 ^ ws.sum →
        ((t'.fetch info id = if id ∈ insertions calls then t.fetch info id else .ok .empty) ↔
          id ≠ 0) := by
  obtain ⟨_, _, ran', dict, -⟩ := fresh.dictionary.runCalls calls
  obtain ⟨rfl, rfl⟩ := Prod.mk.inj (Except.ok.inj (ran'.symm.trans ran))
  rw [enteredBy_inRange inRange] at dict
  have bounded := firstInserted_inRange inRange
  have member (u : Nat) : u ∈ firstInserted calls ↔ u ∈ vertexSet := by
    rw [firstInserted, List.mem_eraseDups, same]
  obtain ⟨a, first⟩ := List.exists_mem_of_ne_nil _ some
  have known : ∀ u ∈ vertexSet, position ws.sum (firstInserted calls) u ≠ none := by
    intro u inside
    rw [← member] at inside
    rw [ne_eq, position_none_inRange bounded (bounded u inside)]
    exact fun absent => absent inside
  obtain ⟨t', transformed, fetched⟩ := dict.transform_vertexSet
    (List.ne_nil_of_mem ((member a).mpr ((same a).mpr first))) (length.trans dict.shaped.depth) sum
    (List.ne_nil_of_mem ((same a).mpr first)) known
  refine ⟨t', transformed, fun info id here => ?_⟩
  rw [fetched, sum, firstEntry_cons, firstEntry_map (fun u => record (position ws.sum _ u))
    (fun u inside => bounded u ((member u).mpr inside)) here, dict.fetch]
  by_cases zero : id = 0
  · subst zero
    obtain ⟨w, rest, rfl⟩ := List.exists_cons_of_ne_nil dict.levels
    have rooted := dict.root.resolve_left fun none =>
      List.ne_nil_of_mem ((member a).mpr ((same a).mpr first)) none.2
    obtain ⟨c, node⟩ := rooted.node
    rw [if_pos (Nat.ModEq.refl 0), node]
    cases position (w :: rest).sum (firstInserted calls) 0 <;> simp only [record] <;>
      split <;> simp
  · have other : ¬ 0 ≡ id [MOD 2 ^ ws.sum] := fun equal =>
      zero (equal.eq_of_lt_of_lt (Nat.two_pow_pos _) here).symm
    rw [if_neg other]
    by_cases inside : id ∈ vertexSet
    · simp [inside, (same id).mp inside, zero]
    · have absent : id ∉ insertions calls := fun stored => inside ((same id).mpr stored)
      simp [inside, absent, zero]

theorem transform_vertexSet_iff_pair : ∃ t t' : SORT Nat,
    (ofVector [1, 1]).runCalls [(⟨0, false⟩, .retrieveVertex 2 true), (⟨0, false⟩, .retrieveVertex 1 true)] =
      .ok ([.vertex (Ptr.vertex 0), .vertex (Ptr.vertex 1)], t) ∧
    t.transform 2 [2, 0] [1, 2] = .ok t' ∧ t'.fetch ⟨0, false⟩ 2 = t.fetch ⟨0, false⟩ 2 ∧
    t'.fetch ⟨0, false⟩ 1 = t.fetch ⟨0, false⟩ 1 ∧ t'.fetch ⟨0, false⟩ 3 = .ok .empty ∧
    t'.fetch ⟨0, false⟩ 0 ≠ .ok .empty := by
  have fresh : Constructed (ofVector [1, 1] : SORT Nat) [1, 1] := .vector (by decide)
  have inRange : ∀ c ∈ ([(⟨0, false⟩, .retrieveVertex 2 true), (⟨0, false⟩, .retrieveVertex 1 true)] :
      List (GlobalInfo × Call)), c.2.id < 2 ^ [1, 1].sum := by decide
  have same : ∀ u, u ∈ [1, 2] ↔
      u ∈ insertions [(⟨0, false⟩, .retrieveVertex 2 true), (⟨0, false⟩, .retrieveVertex 1 true)] := by
    simp [insertions, or_comm]
  obtain ⟨t', transformed, fetched⟩ := transform_vertexSet_iff fresh inRange rfl (by decide) same
    (show [2, 0].length = _ from rfl) rfl
  refine ⟨_, t', rfl, transformed, ((fetched _ 2 (by decide)).mpr (by decide)).trans (if_pos (by decide)),
    ((fetched _ 1 (by decide)).mpr (by decide)).trans (if_pos (by decide)),
    ((fetched _ 3 (by decide)).mpr (by decide)).trans (if_neg (by decide)), fun missing => ?_⟩
  exact (fetched ⟨0, false⟩ 0 (by decide)).mp (missing.trans (if_neg (by decide)).symm) rfl

/-- The id 0, never inserted, is found after the call. -/
theorem transform_vertexSet_zero :
    (do
      let (_, t) ← (ofVector [1, 1] : SORT Nat).runCalls [(⟨0, false⟩, .retrieveVertex 1 true)]
      let before ← t.fetch ⟨0, false⟩ 0
      let t ← t.transform 2 [1, 1] [1]
      let after ← t.fetch ⟨0, false⟩ 0
      .ok (before.isNull, after.isNull)) = .ok (true, false) := rfl

end SORT

end Radix
