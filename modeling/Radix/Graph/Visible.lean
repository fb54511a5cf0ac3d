import Radix.Graph.Lossless
import Radix.Graph.Readers

/-!
# Finished writes and later reads

The entry of a call that has returned stands in its slot or in the snapshots taken since, and a read
of a version that starts later finds it if the number of finished writes that it loads lies above the
slot.
-/

namespace Radix

open Lib Lib.LastWrite

variable {W : Type} [Zero W] [DecidableEq W]

namespace OneVertex

variable {setting : Setting W} {calls : Nat → Request W} {pcs : Nat → Pc W} {o o' : Origin W}
  {s s' : Source W} {cur arr arr' : WeightedEdgeArray W} {first a r t p k : Nat} {pc pc' : Pc W}

/-! ## What becomes of the entry -/

structure Bears (calls : Nat → Request W) (a : Nat) (pcs : Nat → Pc W) (o : Origin W) : Prop where
  sole : ∀ e ∈ o.snap ++ o.entries calls, e.idx = (calls a).entry.idx → e = (calls a).entry
  stays : (pcs a).finished = true → a ∈ o.claims ∨ (calls a).entry ∈ o.snap

omit [DecidableEq W] in
theorem Origin.mem_entries (member : t ∈ o.claims) : (calls t).entry ∈ o.entries calls :=
  List.mem_append_right _ (List.mem_map_of_mem member)

theorem mem_of_mem_compacted {snap log : List (WeightedEdge W)} {e : WeightedEdge W}
    (member : e ∈ compacted arr snap log) : e ∈ snap ++ log := by
  unfold compacted at member
  split at member
  · exact member
  · exact List.mem_append.mpr (mem_of_mem_scan member)

theorem Bears.compacted (bears : Bears calls a pcs o) (alive : (calls a).entry.live)
    (member : (calls a).entry ∈ o.snap ++ o.entries calls) :
    (calls a).entry ∈ compacted arr o.snap (o.entries calls) := by
  unfold Radix.compacted
  split
  · exact member
  · refine mem_scan.mpr ⟨alive, ?_⟩
    cases found : (o.entries calls).reverse.find? fun d => d.idx = (calls a).entry.idx with
    | none =>
        have absent : (calls a).entry.idx ∉ (o.entries calls).map WeightedEdge.idx := by
          intro again
          obtain ⟨d, inside, same⟩ := List.mem_map.mp again
          simpa [same] using List.find?_eq_none.mp found d (List.mem_reverse.mpr inside)
        refine .inr ⟨absent, (List.mem_append.mp member).resolve_right fun inside => ?_⟩
        exact absent (List.mem_map_of_mem inside)
    | some d =>
        have inside : d ∈ o.entries calls := List.mem_reverse.mp (List.mem_of_find?_eq_some found)
        have same : d.idx = (calls a).entry.idx := by simpa using List.find?_some found
        rw [bears.sole d (List.mem_append_right _ inside) same]
        exact .inl rfl

theorem Bears.step (bears : Bears calls a pcs o) (sound : Sound calls pcs o s cur first)
    (alive : (calls a).entry.live) (storing : Storing (pcs t) pc') (evolves : Evolves calls t o cur o')
    (other : t ≠ a → t ∈ o'.claims → (calls t).entry.idx ≠ (calls a).entry.idx) :
    Bears calls a (Function.update pcs t pc') o' := by
  have done (finished : (Function.update pcs t pc' a).finished = true) :
      a ∈ o.claims ∨ (calls a).entry ∈ o.snap :=
    (finished_move sound storing finished).elim bears.stays .inl
  cases evolves with
  | same _ snap log _ claims =>
      constructor
      · rw [Origin.entries, snap, log, claims]
        exact bears.sole
      · rw [snap, claims]
        exact done
  | drawn _ snap log _ claims _ =>
      constructor
      · intro e member same
        rw [Origin.entries, snap, log, claims, List.map_append, ← List.append_assoc, ← List.append_assoc] at member
        cases List.mem_append.mp member with
        | inl old =>
            rw [List.append_assoc] at old
            exact bears.sole e old same
        | inr new =>
            obtain rfl : e = (calls t).entry := by simpa using new
            by_cases here : t = a
            · rw [here]
            · exact absurd same (other here (by simp [claims]))
      · intro finished
        rw [snap, claims]
        exact (done finished).imp_left (List.mem_append_left _)
  | replaced _ full snap log _ none =>
      have entries : o'.entries calls = [] := by
        rw [Origin.entries, log, none]
        rfl
      constructor
      · intro e member same
        rw [entries, List.append_nil, snap] at member
        exact bears.sole e (mem_of_mem_compacted member) same
      · intro finished
        rw [snap]
        refine .inr (bears.compacted alive ?_)
        cases done finished with
        | inl claimed => exact List.mem_append_right _ (Origin.mem_entries claimed)
        | inr old => exact List.mem_append_left _ old

/-! ## Where the entry stands -/

structure Shows (e : WeightedEdge W) (arr : WeightedEdgeArray W) : Prop where
  sole : ∀ edges, arr.edge = some edges → ∀ d ∈ edges, d.idx = e.idx → d = e
  counted : arr.snapshotDeg ≤ arr.physicalSize
  dated : ∀ ts, arr.timestamp = some ts → ∀ x, some x ∈ ts → x ≤ maxTimestamp

structure Stands (calls : Nat → Request W) (a : Nat) (pcs : Nat → Pc W) (s : Source W) (p k : Nat)
    (arr : WeightedEdgeArray W) : Prop where
  there : s.memory[p]? = some arr
  shows : Shows (calls a).entry arr
  slot : ∃ edges, arr.edge = some edges ∧ edges[k]? = some (calls a).entry
  place : k < arr.snapshotDeg ∨ pcs a = .inserted p k

omit [DecidableEq W] in
theorem inserted_of_finished {i : Nat} (finished : pc.finished = true) (place : pc.place = some (p, i)) :
    pc = .inserted p i := by
  cases pc <;> cases finished
  cases place
  rfl

theorem Sound.shows (sound : Sound calls pcs o s cur first) (bears : Bears calls a pcs o)
    (nonneg : 0 ≤ (calls a).entry.idx) : Shows (calls a).entry cur where
  sole edges present d member same := by
    rw [sound.layout.edge] at present
    cases present
    have blank (none : d = {}) : d = (calls a).entry := by
      subst none
      change -1 = _ at same
      omega
    rcases List.mem_append.mp member with shown | free
    · rcases List.mem_append.mp shown with old | drawn
      · refine bears.sole d ?_ same
        rw [Origin.entries, ← List.append_assoc]
        exact List.mem_append_left _ old
      · obtain ⟨u, claimed, rfl⟩ := List.mem_map.mp drawn
        rw [shownEntry] at same blank ⊢
        split at same
        · rename_i written
          rw [if_pos written]
          exact bears.sole _ (List.mem_append_right _ (Origin.mem_entries claimed)) same
        · rename_i unwritten
          rw [if_neg unwritten] at blank ⊢
          exact blank rfl
    · exact blank (List.eq_of_mem_replicate free)
  counted := by
    rw [sound.layout.snapshotDeg, sound.layout.physicalSize, Origin.base]
    omega
  dated ts present x member := by
    rw [sound.layout.timestamp] at present
    obtain ⟨old, stamps, rfl⟩ := Option.map_eq_some_iff.mp present
    rcases List.mem_append.mp member with shown | free
    · rcases List.mem_append.mp shown with before | drawn
      · obtain ⟨y, inside, same⟩ := List.mem_map.mp before
        exact Option.some.inj same ▸ sound.layout.dated.stamps old stamps y inside
      · obtain ⟨u, -, same⟩ := List.mem_map.mp drawn
        rw [shownStamp] at same
        split at same
        · exact Option.some.inj same ▸ sound.layout.dated.stamp u
        · cases same
    · cases List.eq_of_mem_replicate free

theorem Sound.stands (sound : Sound calls pcs o s cur first) (bears : Bears calls a pcs o)
    (nonneg : 0 ≤ (calls a).entry.idx) (finished : (pcs a).finished = true) :
    ∃ k, Stands calls a pcs s o.head k cur := by
  have edge := sound.layout.edge
  cases bears.stays finished with
  | inl claimed =>
      obtain ⟨k, at_k⟩ := List.mem_iff_getElem?.mp claimed
      refine ⟨o.base + k, sound.current, sound.shows bears nonneg, ⟨_, edge, ?_⟩,
        .inr (inserted_of_finished finished (sound.layout.placed k a at_k))⟩
      have front : (o.snap ++ o.log).length = o.base := List.length_append
      have inside := (List.getElem?_eq_some_iff.mp at_k).1
      rw [List.append_assoc, List.getElem?_append_right (by omega), front, Nat.add_sub_cancel_left,
        List.getElem?_append_left (by simpa using inside), List.getElem?_map, at_k, Option.map_some,
        shownEntry, if_pos (Layout.stamped_of_finished finished).2.2]
  | inr old =>
      obtain ⟨k, at_k⟩ := List.mem_iff_getElem?.mp old
      have inside := (List.getElem?_eq_some_iff.mp at_k).1
      refine ⟨k, sound.current, sound.shows bears nonneg, ⟨_, edge, ?_⟩,
        .inl (sound.layout.snapshotDeg ▸ inside)⟩
      simp only [List.append_assoc]
      rw [List.getElem?_append_left inside, at_k]

omit [DecidableEq W] in
theorem Shows.congr {e : WeightedEdge W} (shows : Shows e arr) (edge : arr'.edge = arr.edge)
    (timestamp : arr'.timestamp = arr.timestamp) (snapshotDeg : arr'.snapshotDeg = arr.snapshotDeg)
    (more : arr.physicalSize ≤ arr'.physicalSize) : Shows e arr' where
  sole := edge ▸ shows.sole
  counted := snapshotDeg ▸ shows.counted.trans more
  dated := timestamp ▸ shows.dated

theorem Stands.apart (stands : Stands calls a pcs s p k arr) (sound : Sound calls pcs o s cur first)
    (finished : (pcs a).finished = true) {i : Nat} (here : pcs t = .writeSlot p i) : i ≠ k := by
  have slot := sound.knows t
  rw [here] at slot
  obtain ⟨rfl, j, at_j, rfl⟩ := slot
  obtain rfl : cur = arr := Option.some.inj (sound.current.symm.trans stands.there)
  cases stands.place with
  | inl old =>
      rw [sound.layout.snapshotDeg] at old
      rw [Origin.base]
      omega
  | inr returned =>
      have placed : (pcs a).place = some (o.head, k) := by
        rw [returned]
        rfl
      rintro rfl
      cases sound.written_slot (Layout.stamped_of_finished finished).2.2 placed with
      | inl older => exact older.false
      | inr owns =>
          obtain ⟨-, j', at_j', same⟩ := owns
          obtain rfl : j = j' := Nat.add_left_cancel same
          obtain rfl : t = a := Option.some.inj (at_j.symm.trans at_j')
          rw [here] at finished
          cases finished

theorem Stands.step (stands : Stands calls a pcs s p k arr) (sound : Sound calls pcs o s cur first)
    (counted : Counted pcs s) (finished : (pcs a).finished = true)
    (other : t ≠ a → (calls t).inserting = true → (calls t).entry.idx ≠ (calls a).entry.idx)
    (reads : (pcs r).reads = some p) (staying : r = t → ∀ n, pcs t ≠ .leave p n)
    (taken : next setting t (calls t) s (pcs t) = some (s', pc')) :
    ∃ arr', Stands calls a (Function.update pcs t pc') s' p k arr' := by
  obtain ⟨there, shows, ⟨edges, present, at_k⟩, place⟩ := id stands
  have moved : a ≠ t := by
    rintro rfl
    rw [next_unfinished taken] at finished
    cases finished
  obtain ⟨arr', there', effect⟩ := next_effect taken there
  have place' : k < arr.snapshotDeg ∨ Function.update pcs t pc' a = .inserted p k := by
    rwa [Function.update_of_ne moved]
  refine ⟨arr', ?_⟩
  cases effect with
  | kept edge timestamp snapshotDeg more _ =>
      exact ⟨there', shows.congr edge timestamp snapshotDeg more, ⟨edges, edge ▸ present, at_k⟩,
        snapshotDeg ▸ place'⟩
  | acquired _ result =>
      subst result
      exact ⟨there', shows.congr rfl rfl rfl le_rfl, ⟨edges, present, at_k⟩, place'⟩
  | released _ _ result =>
      subst result
      exact ⟨there', shows.congr rfl rfl rfl le_rfl, ⟨edges, present, at_k⟩, place'⟩
  | freed _ unread =>
      have positive := counted.read reads there
      omega
  | deleted gone => exact absurd gone (counted.undeleted reads staying)
  | stored i edges' here present' result =>
      subst result
      obtain rfl : edges = edges' := Option.some.inj (present.symm.trans present')
      have inserting : (calls t).inserting = true := by
        rw [← sound.kinds, here]
        rfl
      refine ⟨there', ⟨fun after same d member equal => ?_, shows.counted, shows.dated⟩, ⟨_, rfl, ?_⟩, place'⟩
      · cases same
        cases List.mem_or_eq_of_mem_set member with
        | inl old => exact shows.sole edges present d old equal
        | inr new => exact absurd (new ▸ equal) (other moved.symm inserting)
      · rw [List.getElem?_set_ne (stands.apart sound finished here), at_k]
  | stamped i x ts here present' result =>
      subst result
      have known := sound.knows t
      rw [here] at known
      refine ⟨there', ⟨shows.sole, shows.counted, fun after same y member => ?_⟩, ⟨edges, present, at_k⟩,
        place'⟩
      cases same
      cases List.mem_or_eq_of_mem_set member with
      | inl old => exact shows.dated ts present' y old
      | inr new => exact Option.some.inj new ▸ known.2

/-! ## What a reader sees -/

/-- A reader that has begun after the call `a` has returned has the entry before it, or has it already;
where it has loaded a count of slots, the entry lies below. -/
def Sees (calls : Nat → Request W) (a : Nat) (pcs : Nat → Pc W) (s : Source W) : Pc W → Prop
  | .enter | .select => True
  | .unlockRead p | .loadCount p => ∃ k arr, Stands calls a pcs s p k arr
  | .copySnapshot p cnt => ∃ k arr, Stands calls a pcs s p k arr ∧ k < cnt
  | .cut p i => ∃ k arr, Stands calls a pcs s p k arr ∧ k ≤ i
  | .scan p _ i _ neighbours marks => ∃ k arr, Stands calls a pcs s p k arr ∧
      ((calls a).entry ∈ neighbours ∨ k < i ∧ marks.getBit (calls a).entry.idx.toNat = false)
  | .clear _ _ neighbours _ | .lockLeave _ neighbours | .leave _ neighbours | .unlockLeave neighbours =>
      (calls a).entry ∈ neighbours
  | .returned found neighbours => found = true ∧ (calls a).entry ∈ neighbours
  | _ => False

theorem copyOut_copied {i n : Nat} {neighbours copied : List (WeightedEdge W)}
    (ran : copyOut arr i n neighbours = .ok copied) (room : i + n ≤ neighbours.length) :
    (∀ j < i, copied[j]? = neighbours[j]?) ∧
      ∀ j e, i ≤ j → j < i + n → arr.read j = .ok e → copied[j]? = some e := by
  induction n generalizing i neighbours with
  | zero =>
      cases ran
      exact ⟨fun _ _ => rfl, fun j e from_i below _ => by omega⟩
  | succ n ih =>
      obtain ⟨d, here, ran⟩ := bind_eq_ok.mp ran
      obtain ⟨before, after⟩ := ih ran (by rw [List.length_set]; omega)
      refine ⟨fun j below => ?_, fun j e from_i below read => ?_⟩
      · rw [before j (by omega), List.getElem?_set_ne (by omega)]
      · by_cases first : j = i
        · subst first
          obtain rfl : d = e := Except.ok.inj (here.symm.trans read)
          rw [before j (by omega), List.getElem?_set_self (by omega)]
        · exact after j e (by omega) (by omega) read

theorem copySnapshot_mem {n : Nat} {copied : List (WeightedEdge W)} {e : WeightedEdge W}
    (ran : copySnapshot arr n [] = .ok copied) (below : k < n) (read : arr.read k = .ok e) : e ∈ copied := by
  have room : 0 + n ≤ (resize ([] : List (WeightedEdge W)) n).length := by rw [resize_length, Nat.zero_add]
  exact List.mem_of_getElem? ((copyOut_copied ran room).2 k e (Nat.zero_le k) (by omega) read)

omit [DecidableEq W] in
theorem Stands.read (stands : Stands calls a pcs s p k arr) : arr.read k = .ok (calls a).entry := by
  obtain ⟨edges, present, at_k⟩ := stands.slot
  simp only [WeightedEdgeArray.read, present, at_k]

omit [DecidableEq W] in
theorem mem_of_read {i : Nat} {d : WeightedEdge W} {edges : List (WeightedEdge W)}
    (present : arr.edge = some edges) (read : arr.read i = .ok d) : d ∈ edges := by
  simp only [WeightedEdgeArray.read, present] at read
  split at read
  · cases read
  · rename_i at_i
    cases read
    exact List.mem_of_getElem? at_i

theorem Stands.scanSlot (stands : Stands calls a pcs s p k arr) (alive : (calls a).entry.live)
    (nonneg : 0 ≤ (calls a).entry.idx) {cnt i retryCount : Nat} {neighbours : List (WeightedEdge W)}
    {marks : SegmentedBitmap}
    (held : (calls a).entry ∈ neighbours ∨
      k < i + 1 ∧ marks.getBit (calls a).entry.idx.toNat = false)
    (scanned : scanSlot arr p cnt i retryCount neighbours marks = .ok pc') : Sees calls a pcs s pc' := by
  obtain ⟨edges, present, -⟩ := stands.slot
  simp only [OneVertex.scanSlot, bind_eq_ok] at scanned
  obtain ⟨d, here, scanned⟩ := scanned
  have different (other : d ≠ (calls a).entry) : d.idx ≠ (calls a).entry.idx := fun same =>
    other (stands.shows.sole edges present d (mem_of_read present here) same)
  -- the slot of the entry is not passed over
  have lower (other : d ≠ (calls a).entry) : (calls a).entry ∈ neighbours ∨
      k < i ∧ marks.getBit (calls a).entry.idx.toNat = false := by
    refine held.imp_right fun unseen => ⟨?_, unseen.2⟩
    have elsewhere : k ≠ i := by
      rintro rfl
      exact other (Except.ok.inj (here.symm.trans stands.read))
    omega
  split at scanned
  · rename_i unset
    have other : d ≠ (calls a).entry := by
      rintro rfl
      omega
    split at scanned
    · cases scanned
      exact ⟨k, arr, stands, held⟩
    · cases scanned
      exact ⟨k, arr, stands, lower other⟩
  · obtain ⟨bit, at_bit, scanned⟩ := bind_eq_ok.mp scanned
    unfold WeightedEdge.bit at at_bit
    split at at_bit
    · cases at_bit
      split at scanned
      · rename_i marked
        cases scanned
        refine ⟨k, arr, stands, ?_⟩
        by_cases same : d = (calls a).entry
        · refine .inl (held.resolve_right fun unseen => ?_)
          rw [same, unseen.2] at marked
          cases marked
        · exact lower same
      · cases scanned
        refine ⟨k, arr, stands, ?_⟩
        by_cases same : d = (calls a).entry
        · left
          rw [same, if_pos alive]
          exact List.mem_append_right _ (List.mem_singleton_self _)
        · refine (lower same).imp (fun found => ?_) fun unseen => ⟨unseen.1, ?_⟩
          · split
            · exact List.mem_append_left _ found
            · exact found
          · split
            · have apart : (calls a).entry.idx.toNat ≠ d.idx.toNat := by
                have := different same
                omega
              rw [SegmentedBitmap.getBit_setBit, unseen.2]
              simpa using apart
            · exact unseen.2
    · cases at_bit

omit [DecidableEq W] in
theorem Stands.quiet (stands : Stands calls a pcs s p k arr) (memory : s'.memory = s.memory)
    (moved : a ≠ t) : Stands calls a (Function.update pcs t pc') s' p k arr where
  there := memory ▸ stands.there
  shows := stands.shows
  slot := stands.slot
  place := by
    rw [Function.update_of_ne moved]
    exact stands.place

theorem Sees.others (sees : Sees calls a pcs s (pcs r)) (sound : Sound calls pcs o s cur first)
    (counted : Counted pcs s) (finished : (pcs a).finished = true)
    (alone : t ≠ a → (calls t).inserting = true → (calls t).entry.idx ≠ (calls a).entry.idx)
    (apart : r ≠ t) (taken : next setting t (calls t) s (pcs t) = some (s', pc')) :
    Sees calls a (Function.update pcs t pc') s' (pcs r) := by
  have moves {p k : Nat} {arr : WeightedEdgeArray W} (stands : Stands calls a pcs s p k arr)
      (reads : (pcs r).reads = some p) : ∃ arr', Stands calls a (Function.update pcs t pc') s' p k arr' :=
    stands.step sound counted finished alone reads (fun same => absurd same apart) taken
  generalize pcs r = pc at sees moves
  cases pc with
  | unlockRead p | loadCount p =>
      obtain ⟨k, arr, stands⟩ := sees
      exact ⟨k, moves stands rfl⟩
  | copySnapshot p cnt | cut p i | scan p cnt i retryCount neighbours marks =>
      obtain ⟨k, arr, stands, seen⟩ := sees
      obtain ⟨arr', stands'⟩ := moves stands rfl
      exact ⟨k, arr', stands', seen⟩
  | _ => exact sees

theorem Sees.select (sound : Sound calls pcs o s cur first) (bears : Bears calls a pcs o)
    (nonneg : 0 ≤ (calls a).entry.idx) (finished : (pcs a).finished = true) (moved : a ≠ t)
    (latest : (calls t).timestamp = maxTimestamp)
    (taken : next setting t (calls t) s .select = some (s', pc')) :
    Sees calls a (Function.update pcs t pc') s' pc' := by
  obtain ⟨k, stands⟩ := sound.stands bears nonneg finished
  have readable : cur.readableAt (calls t).timestamp = true := by
    rw [latest, WeightedEdgeArray.readableAt, sound.layout.edge]
    simpa using sound.layout.dated.snapshotTimestamp
  have found : (s.chain.find? fun p => s.memory[p]?.any (·.readableAt (calls t).timestamp)) = some o.head := by
    rw [sound.chain, List.find?_cons_of_pos (by rwa [sound.current, Option.any_some])]
  simp only [next, found] at taken
  cases taken
  obtain ⟨there, shows, slot, place⟩ := stands
  refine ⟨k, cur.acquire, modify_at there, shows.congr rfl rfl rfl le_rfl, slot, ?_⟩
  rwa [Function.update_of_ne moved]

omit [DecidableEq W] in
theorem Stands.cut (stands : Stands calls a pcs s p k arr)
    (small : ∀ p i, setting.unwritten p i ≤ maxTimestamp) {i j : Nat} {stamp : Int}
    (read : (match arr.stamp j with
      | .error .uninitialized => some (setting.unwritten p i)
      | .error _ => none
      | .ok stamp => some stamp) = some stamp) : stamp ≤ maxTimestamp := by
  split at read
  · exact Option.some.inj read ▸ small p i
  · cases read
  · rename_i x at_j
    unfold WeightedEdgeArray.stamp at at_j
    split at at_j
    · cases at_j
    · rename_i ts present
      split at at_j
      · cases at_j
      · cases at_j
      · rename_i y found
        cases at_j
        exact Option.some.inj read ▸ stands.shows.dated ts present _ (List.mem_of_getElem? found)

theorem Sees.own (proper : Proper setting calls) (small : ∀ p i, setting.unwritten p i ≤ maxTimestamp)
    (sees : Sees calls a pcs s (pcs r)) (sound : Sound calls pcs o s cur first)
    (bears : Bears calls a pcs o) (alive : (calls a).entry.live) (nonneg : 0 ≤ (calls a).entry.idx)
    (finished : (pcs a).finished = true) (latest : (calls r).timestamp = maxTimestamp)
    (covered : ∀ p i arr, pcs r = .loadCount p → pcs a = .inserted p i → s.memory[p]? = some arr →
      i < arr.physicalSize)
    (taken : next setting r (calls r) s (pcs r) = some (s', pc')) :
    Sees calls a (Function.update pcs r pc') s' pc' := by
  have moved : a ≠ r := by
    rintro rfl
    rw [next_unfinished taken] at finished
    cases finished
  generalize here : pcs r = pc at sees taken
  cases pc with
  | enter =>
      simp only [next] at taken
      split at taken
      · cases taken
        trivial
      · contradiction
  | select => exact Sees.select sound bears nonneg finished moved latest taken
  | unlockRead p =>
      obtain ⟨k, arr, stands⟩ := sees
      cases taken
      exact ⟨k, arr, stands.quiet rfl moved⟩
  | loadCount p =>
      obtain ⟨k, arr, stands⟩ := sees
      obtain ⟨arr₁, there, ⟨⟩⟩ := Option.map_eq_some_iff.mp taken
      obtain rfl : arr = arr₁ := Option.some.inj (stands.there.symm.trans there)
      have below : k < arr.physicalSize := by
        cases stands.place with
        | inl old => exact old.trans_le stands.shows.counted
        | inr returned => exact covered p k arr here returned there
      split
      · split
        · exact ⟨k, arr, stands.quiet rfl moved, .inr ⟨below, proper.clean r _⟩⟩
        · exact ⟨k, arr, stands.quiet rfl moved, Nat.le_sub_one_of_lt below⟩
      · exact ⟨k, arr, stands.quiet rfl moved, below⟩
  | copySnapshot p cnt =>
      obtain ⟨k, arr, stands, below⟩ := sees
      obtain ⟨arr₁, there, taken⟩ := Option.bind_eq_some_iff.mp taken
      obtain rfl : arr = arr₁ := Option.some.inj (stands.there.symm.trans there)
      obtain ⟨neighbours, copied, ⟨⟩⟩ := Option.map_eq_some_iff.mp taken
      exact copySnapshot_mem (toOption_eq_some.mp copied) below stands.read
  | cut p i =>
      obtain ⟨k, arr, stands, le⟩ := sees
      obtain ⟨arr₁, there, taken⟩ := Option.bind_eq_some_iff.mp taken
      obtain rfl : arr = arr₁ := Option.some.inj (stands.there.symm.trans there)
      obtain ⟨stamp, read, taken⟩ := Option.bind_eq_some_iff.mp taken
      have early : stamp ≤ (calls r).timestamp := latest ▸ stands.cut small read
      rw [if_pos early] at taken
      cases taken
      exact ⟨k, arr, stands.quiet rfl moved, .inr ⟨Nat.lt_succ_of_le le, proper.clean r _⟩⟩
  | scan p cnt i retryCount neighbours marks =>
      obtain ⟨k, arr, stands, held⟩ := sees
      cases i with
      | zero =>
          cases taken
          exact held.resolve_right fun unseen => Nat.not_lt_zero k unseen.1
      | succ i =>
          obtain ⟨arr₁, there, taken⟩ := Option.bind_eq_some_iff.mp taken
          obtain rfl : arr = arr₁ := Option.some.inj (stands.there.symm.trans there)
          obtain ⟨pc, scanned, ⟨⟩⟩ := Option.map_eq_some_iff.mp taken
          exact (stands.quiet rfl moved).scanSlot alive nonneg held (toOption_eq_some.mp scanned)
  | clear p cnt neighbours marks =>
      obtain ⟨_, -, taken⟩ := Option.bind_eq_some_iff.mp taken
      obtain ⟨_, -, ⟨⟩⟩ := Option.map_eq_some_iff.mp taken
      exact sees
  | lockLeave p neighbours =>
      simp only [next] at taken
      split at taken
      · contradiction
      · cases taken
        exact sees
  | leave p neighbours =>
      cases taken
      exact sees
  | unlockLeave neighbours =>
      cases taken
      exact ⟨rfl, sees⟩
  | returned => contradiction
  | _ => exact sees.elim

/-! ## Runs -/

structure Known (calls : Nat → Request W) (first a : Nat) (o : Origin W) (cur : WeightedEdgeArray W)
    (c : State W) : Prop where
  sound : Sound calls c.local' o c.shared cur first
  locks : Locks c.local' c.shared
  counted : Counted c.local' c.shared
  bears : Bears calls a c.local' o

def misses (a r : Nat) (c : State W) (t : Nat) : Bool :=
  t = r && match c.local' r, c.local' a with
    | .loadCount p, .inserted q i =>
        p = q && c.shared.memory[p]?.any fun arr => arr.physicalSize ≤ i
    | _, _ => false

variable {c c' : State W} {schedule : List Nat} {v : Vertex W} {info : GlobalInfo}

theorem Known.step (known : Known calls first a o cur c) (proper : Proper setting calls)
    (alive : (calls a).entry.live)
    (alone : t ≠ a → (calls t).inserting = true → (calls t).entry.idx ≠ (calls a).entry.idx)
    (unused : NoUser c t) (taken : Threads.step (nextOf setting calls) c t = some c') :
    ∃ o' cur', Known calls first a o' cur' c' := by
  obtain ⟨s', pc', moved, rfl⟩ := Threads.step_eq_some.mp taken
  obtain ⟨⟨o', cur', sound', evolves⟩, locks'⟩ :=
    next_arrives proper known.sound known.locks unused moved
  exact ⟨o', cur', sound', locks', known.counted.step moved,
    known.bears.step known.sound alive (next_storing moved) evolves fun other claimed =>
      alone other (Sound.claims_inserting (c := ⟨s', Function.update c.local' t pc'⟩) sound' claimed)⟩

theorem initial_known {head : WeightedEdgeArray W} {snap log : List (WeightedEdge W)}
    {stamps : Option (List Int)} (stored : Stored v.next head snap log stamps)
    (recent : head.snapshotTimestamp ≤ maxTimestamp)
    (dated : ∀ ts, stamps = some ts → ∀ x ∈ ts, x ≤ maxTimestamp)
    (absent : ∀ e ∈ snap ++ log, e.idx ≠ (calls a).entry.idx) :
    ∃ o cur, Known calls (v.next.length - 1) a o cur (initial calls v info) := by
  have outside (t : Nat) : (calls t).start.reads = none ∧ (calls t).start.finished = false := by
    cases calls t <;> exact ⟨rfl, rfl⟩
  refine ⟨_, _, initial_sound stored recent dated calls info, initial_locks calls v info,
    ⟨fun p arr _ => ⟨[], List.nodup_nil, fun r reads => ?_, Nat.zero_le _⟩, fun r p reads => ?_⟩,
    ⟨fun e member same => ?_, fun finished => ?_⟩⟩
  · cases (outside r).1.symm.trans reads
  · cases (outside r).1.symm.trans reads
  · simp only [Origin.entries, List.map_nil, List.append_nil] at member
    exact absurd same (absent e member)
  · cases (outside a).2.symm.trans finished

theorem run_known (start : ∃ o cur, Known calls first a o cur c) (proper : Proper setting calls)
    (alive : (calls a).entry.live)
    (alone : ∀ t ∈ schedule, t ≠ a → (calls t).inserting = true →
      (calls t).entry.idx ≠ (calls a).entry.idx)
    (meets : Threads.Meets (nextOf setting calls) NoUser c schedule)
    (ran : Threads.run (nextOf setting calls) c schedule = some c') :
    ∃ o cur, Known calls first a o cur c' := by
  have keeps (c : State W) (t : Nat) (c' : State W) (held : ∃ o cur, Known calls first a o cur c)
      (allowed : NoUser c t ∧ t ∈ schedule)
      (taken : Threads.step (nextOf setting calls) c t = some c') :
      ∃ o cur, Known calls first a o cur c' := by
    obtain ⟨o, cur, known⟩ := held
    exact known.step proper alive (alone t allowed.2) allowed.1 taken
  exact Threads.run_invariant keeps (meets.within fun _ member => member) ran start

omit [DecidableEq W] in
theorem covered_of_misses (enough : misses a r c r = false) {i : Nat} (reading : c.local' r = .loadCount p)
    (returned : c.local' a = .inserted p i) (there : c.shared.memory[p]? = some arr) :
    i < arr.physicalSize := by
  simpa [misses, reading, returned, there] using enough

theorem Known.sees (known : Known calls first a o cur c) (proper : Proper setting calls)
    (small : ∀ p i, setting.unwritten p i ≤ maxTimestamp) (alive : (calls a).entry.live)
    (nonneg : 0 ≤ (calls a).entry.idx) (latest : (calls r).timestamp = maxTimestamp)
    (alone : t ≠ a → (calls t).inserting = true → (calls t).entry.idx ≠ (calls a).entry.idx)
    (finished : (c.local' a).finished = true) (enough : misses a r c t = false)
    (sees : Sees calls a c.local' c.shared (c.local' r))
    (taken : Threads.step (nextOf setting calls) c t = some c') :
    (c'.local' a).finished = true ∧ Sees calls a c'.local' c'.shared (c'.local' r) := by
  obtain ⟨s', pc', moved, rfl⟩ := Threads.step_eq_some.mp taken
  have other : a ≠ t := by
    rintro rfl
    rw [next_unfinished moved] at finished
    cases finished
  refine ⟨?_, ?_⟩
  · change (Function.update c.local' t pc' a).finished = true
    rwa [Function.update_of_ne other]
  · change Sees calls a (Function.update c.local' t pc') s' (Function.update c.local' t pc' r)
    by_cases here : t = r
    · subst here
      rw [Function.update_self]
      exact sees.own proper small known.sound known.bears alive nonneg finished latest
        (fun p i arr => covered_of_misses enough) moved
    · rw [Function.update_of_ne (Ne.symm here)]
      exact sees.others known.sound known.counted finished alone (Ne.symm here) moved

theorem run_sees (known : ∃ o cur, Known calls first a o cur c) (proper : Proper setting calls)
    (small : ∀ p i, setting.unwritten p i ≤ maxTimestamp) (alive : (calls a).entry.live)
    (nonneg : 0 ≤ (calls a).entry.idx) (latest : (calls r).timestamp = maxTimestamp)
    (alone : ∀ t ∈ schedule, t ≠ a → (calls t).inserting = true →
      (calls t).entry.idx ≠ (calls a).entry.idx)
    (finished : (c.local' a).finished = true) (sees : Sees calls a c.local' c.shared (c.local' r))
    (meets : Threads.Meets (nextOf setting calls) (fun c t => NoUser c t ∧ misses a r c t = false) c schedule)
    (ran : Threads.run (nextOf setting calls) c schedule = some c') :
    Sees calls a c'.local' c'.shared (c'.local' r) := by
  have keeps (c : State W) (t : Nat) (c' : State W)
      (held : (∃ o cur, Known calls first a o cur c) ∧ (c.local' a).finished = true ∧
        Sees calls a c.local' c.shared (c.local' r))
      (allowed : (NoUser c t ∧ misses a r c t = false) ∧ t ∈ schedule)
      (taken : Threads.step (nextOf setting calls) c t = some c') :
      (∃ o cur, Known calls first a o cur c') ∧ (c'.local' a).finished = true ∧
        Sees calls a c'.local' c'.shared (c'.local' r) := by
    obtain ⟨⟨o, cur, known⟩, finished, sees⟩ := held
    obtain ⟨⟨unused, enough⟩, inside⟩ := allowed
    exact ⟨known.step proper alive (alone t inside) unused taken,
      known.sees proper small alive nonneg latest (alone t inside) finished enough sees taken⟩
  exact (Threads.run_invariant keeps (meets.within fun _ member => member) ran
    ⟨known, finished, sees⟩).2.2

open RadixGraph

/-- A finished write is seen by every read of the latest state that starts after it, if the count of
slots that the read loads covers its slot and no version is deleted that a call still draws from. -/
theorem finished_write_visible (P : Platform W) (global : GlobalInfo) {index : SORT W} {ws : List Nat}
    (constructed : SORT.Constructed index ws) {L : Nat} (positive : 0 < L) {acts : List (Action W)}
    {g : RadixGraph W} (reached : actions P (construct global index L positive) acts = .ok g) {k : Nat}
    (at_k : g.vertexIndex.vertexTable[k]? = some v) (info : GlobalInfo) (proper : Proper setting calls)
    (small : ∀ p i, setting.unwritten p i ≤ maxTimestamp)
    (writer : (calls a).inserting = true) (weight : (calls a).entry.weight ≠ 0)
    (reader : calls r = .getNeighbours maxTimestamp)
    (absent : ∀ head older, v.next = head :: older → ∀ e ∈ head.slots head.physicalSize,
      e.idx ≠ (calls a).entry.idx)
    {before rest : List Nat} (alone : ∀ t ∈ before ++ rest, t ≠ a → (calls t).inserting = true →
      (calls t).entry.idx ≠ (calls a).entry.idx)
    (meets : Threads.Meets (nextOf setting calls) (fun c t => NoUser c t ∧ misses a r c t = false)
      (initial calls v info) (before ++ rest))
    (written : Threads.run (nextOf setting calls) (initial calls v info) before = some c)
    {p i : Nat} (returned : c.local' a = .inserted p i) (unbegun : r ∉ before)
    (ran : Threads.run (nextOf setting calls) c rest = some c') {found : Bool}
    {neighbours : List (WeightedEdge W)} (ended : c'.local' r = .returned found neighbours) :
    found = true ∧ (calls a).entry ∈ neighbours := by
  obtain ⟨g', A, reached', holds, -⟩ :=
    actions_holds P (construct_holds .lax global constructed positive) acts
  obtain rfl : g = g' := Except.ok.inj (reached.symm.trans reached')
  obtain ⟨-, head, snap, log, stamps, past, stored, -, carries⟩ := holds.kept k v.revived (by
    simp [revived, SORT.revived, at_k])
  obtain ⟨older, chain, -⟩ := stored.chain
  have absent := absent head older chain
  rw [stored.laid.slots.2] at absent
  have alive : (calls a).entry.live := decide_eq_true weight
  obtain ⟨first, later⟩ := meets.append written
  have known := run_known (initial_known stored carries.shown.1 carries.shown.2 absent) proper alive
    (fun t inside => alone t (List.mem_append_left _ inside)) (first.mono fun _ _ => And.left) written
  have finished : (c.local' a).finished = true := by
    rw [returned]
    rfl
  have start : Sees calls a c.local' c.shared (c.local' r) := by
    rw [Threads.run_local_absent unbegun written]
    change Sees calls a c.local' c.shared (calls r).start
    rw [reader]
    trivial
  have sees := run_sees known proper small alive (proper.nonneg a writer) (by rw [reader]; rfl)
    (fun t inside => alone t (List.mem_append_right _ inside)) finished start later ran
  rwa [ended] at sees

def writersAndReader (t : Nat) : Request Nat :=
  if t = 2 then .getNeighbours maxTimestamp else .insert (t + 2) 1 1

theorem writersAndReader_proper : Proper reusing writersAndReader where
  rate := by norm_num [reusing]
  clean _ := SegmentedBitmap.new_clean _ _
  nonneg t inserting := by
    rw [writersAndReader] at inserting ⊢
    split at inserting
    · cases inserting
    · rename_i other
      rw [if_neg other]
      change (0 : Int) ≤ t + 2
      omega

def fourVertices : List (Action Nat) := [.op (.insertEdge 0 1 1), .op (.insertEdge 2 3 1)]

def Pc.answer : Pc W → Option (Bool × List (WeightedEdge W))
  | .returned found neighbours => some (found, neighbours)
  | _ => none

omit [DecidableEq W] in
theorem returned_of_answer {found : Bool} {neighbours : List (WeightedEdge W)}
    (answer : pc.answer = some (found, neighbours)) : pc = .returned found neighbours := by
  cases pc <;> cases answer
  rfl

/-- The first call has drawn the lower slot, and finishes first. -/
theorem finished_write_visible_both : ∃ g v c c' found neighbours,
    actions .exact (construct ⟨0, true⟩ (.ofVector [4]) 1 (by decide)) fourVertices = .ok g ∧
      g.vertexIndex.vertexTable[1]? = some v ∧
      Threads.run (nextOf reusing writersAndReader) (initial writersAndReader v g.global)
        ([0, 1, 0, 1, 1, 0] ++ List.replicate 5 0 ++ List.replicate 5 1) = some c ∧
      c.local' 1 = .inserted 0 1 ∧
      Threads.run (nextOf reusing writersAndReader) c (List.replicate 12 2) = some c' ∧
      c'.local' 2 = .returned found neighbours ∧ found = true ∧
      (writersAndReader 1).entry ∈ neighbours := by
  generalize at_before : [0, 1, 0, 1, 1, 0] ++ List.replicate 5 0 ++ List.replicate 5 1 = before
  generalize at_rest : List.replicate 12 2 = rest
  have evaluated : (do
      let g ← (actions .exact (construct ⟨0, true⟩ (.ofVector [4]) 1 (by decide)) fourVertices).toOption
      let v ← g.vertexIndex.vertexTable[1]?
      let c ← Threads.run (nextOf reusing writersAndReader) (initial writersAndReader v g.global) before
      let c' ← Threads.run (nextOf reusing writersAndReader) c rest
      let answer ← (c'.local' 2).answer
      some (v.next.head?.map fun head => (head.slots head.physicalSize).length,
        ((c.local' 1).finished, (c.local' 1).place),
        Threads.trace (nextOf reusing writersAndReader) (fun c t =>
          if deletes c.shared (c.local' t) = none ∧ misses 1 2 c t = false then none else some t)
          (initial writersAndReader v g.global) (before ++ rest))) =
        some (some 0, (true, some (0, 1)), []) := by
    subst at_before at_rest
    decide +kernel
  obtain ⟨g, reached, evaluated⟩ := Option.bind_eq_some_iff.mp evaluated
  obtain ⟨v, at_k, evaluated⟩ := Option.bind_eq_some_iff.mp evaluated
  obtain ⟨c, written, evaluated⟩ := Option.bind_eq_some_iff.mp evaluated
  obtain ⟨c', ran, evaluated⟩ := Option.bind_eq_some_iff.mp evaluated
  obtain ⟨⟨found, neighbours⟩, answer, evaluated⟩ := Option.bind_eq_some_iff.mp evaluated
  obtain ⟨slots, ⟨finished, place⟩, never⟩ := by
    simpa only [Option.some.injEq, Prod.mk.injEq] using evaluated
  have reached := toOption_eq_some.mp reached
  have returned := inserted_of_finished finished place
  have ended := returned_of_answer answer
  have meets : Threads.Meets (nextOf reusing writersAndReader)
      (fun c t => NoUser c t ∧ misses 1 2 c t = false) (initial writersAndReader v g.global)
      (before ++ rest) := by
    refine .of_trace (fun c t none => ?_) never
    split at none
    · rename_i quiet
      refine ⟨fun dead doomed => ?_, quiet.2⟩
      rw [quiet.1] at doomed
      cases doomed
    · cases none
  have absent (head : WeightedEdgeArray Nat) (older : List (WeightedEdgeArray Nat))
      (chain : v.next = head :: older) (e : WeightedEdge Nat)
      (member : e ∈ head.slots head.physicalSize) : e.idx ≠ (writersAndReader 1).entry.idx := by
    rw [chain, List.head?_cons, Option.map_some, Option.some.injEq] at slots
    rw [List.length_eq_zero_iff.mp slots] at member
    cases member
  have alone (t : Nat) (_ : t ∈ before ++ rest) (other : t ≠ 1)
      (inserting : (writersAndReader t).inserting = true) :
      (writersAndReader t).entry.idx ≠ (writersAndReader 1).entry.idx := by
    rw [writersAndReader] at inserting ⊢
    split at inserting
    · cases inserting
    · rename_i writing
      rw [if_neg writing]
      change (t : Int) + 2 ≠ 3
      omega
  have unbegun : 2 ∉ before := by
    subst at_before
    decide
  exact ⟨g, v, c, c', found, neighbours, reached, at_k, written, returned, ran, ended,
    finished_write_visible .exact ⟨0, true⟩ (.vector (by decide)) (by decide) reached at_k g.global
      writersAndReader_proper (fun _ _ => by simp [reusing, maxTimestamp]) rfl (by decide) rfl absent alone
      meets written returned unbegun ran ended⟩

/-- The first call draws slot 0 and stalls, the second writes slot 1 and returns. The read after it
counts one written slot, finds the entry of the first call there, which is stored meanwhile, and misses
the other. -/
theorem finished_write_missed : (do
    let g ← (actions .exact (construct ⟨0, true⟩ (.ofVector [4]) 1 (by decide)) fourVertices).toOption
    let v ← g.vertexIndex.vertexTable[1]?
    let c ← Threads.run (nextOf reusing writersAndReader) (initial writersAndReader v g.global)
      ([0, 0, 0] ++ List.replicate 8 1)
    let c' ← Threads.run (nextOf reusing writersAndReader) c
      (List.replicate 5 2 ++ List.replicate 5 0 ++ List.replicate 6 2)
    let answer ← (c'.local' 2).answer
    some ((c.local' 1).finished, answer.1, answer.2.map WeightedEdge.idx)) = some (true, true, [2]) := by
  decide +kernel

end OneVertex

end Radix
