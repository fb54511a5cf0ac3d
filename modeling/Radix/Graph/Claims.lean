import Radix.Graph.Slots

/-!
# The array under the stores of its calls
-/

namespace Radix

open Lib

variable {W : Type} [Zero W]

namespace OneVertex

variable {calls : Nat → Request W} {pcs : Nat → Pc W} {o : Origin W} {cur cur' : WeightedEdgeArray W}
  {t k : Nat} {pc' : Pc W}

structure Alike (cur cur' : WeightedEdgeArray W) : Prop where
  cap : cur'.cap = cur.cap
  size : min cur'.size cur'.cap = min cur.size cur.cap
  snapshotDeg : cur'.snapshotDeg = cur.snapshotDeg
  physicalSize : cur'.physicalSize = cur.physicalSize
  deg : cur'.deg = cur.deg
  edge : cur'.edge = cur.edge
  timestamp : cur'.timestamp = cur.timestamp
  snapshotTimestamp : cur'.snapshotTimestamp = cur.snapshotTimestamp

structure Unmoved (o : Origin W) (pc pc' : Pc W) : Prop where
  place : pc'.place = pc.place
  stamped : o.stamps = none ∨ pc'.stamped = pc.stamped
  counted : pc'.counted = pc.counted
  written : pc'.written = pc.written
  finished : pc'.finished = pc.finished

namespace Layout

theorem room (layout : Layout calls pcs o cur) : o.base + o.claims.length ≤ cur.cap :=
  layout.size ▸ min_le_right _ _

theorem alike (layout : Layout calls pcs o cur) (same : Alike cur cur') :
    Layout calls pcs o cur' where
  nodup := layout.nodup
  placed := layout.placed
  size := layout.size.trans same.size.symm
  snapshotDeg := same.snapshotDeg.trans layout.snapshotDeg
  physicalSize := same.physicalSize.trans layout.physicalSize
  deg := same.deg.trans layout.deg
  edge := by
    rw [same.edge, same.cap]
    exact layout.edge
  timestamp := by
    rw [same.timestamp, same.cap]
    exact layout.timestamp
  aligned := layout.aligned
  indexed := layout.indexed
  dated := ⟨same.snapshotTimestamp ▸ layout.dated.snapshotTimestamp, layout.dated.stamps,
    layout.dated.stamp⟩

theorem move (layout : Layout calls pcs o cur) (unmoved : t ∈ o.claims → Unmoved o (pcs t) pc') :
    Layout calls (Function.update pcs t pc') o cur := by
  by_cases member : t ∈ o.claims
  · have unmoved := unmoved member
    refine ⟨layout.nodup, fun k u at_k => ?_, layout.size, layout.snapshotDeg, ?_, ?_, ?_, ?_,
      layout.aligned, layout.indexed, layout.dated⟩
    · by_cases here : u = t
      · subst here
        rw [Function.update_self, unmoved.place]
        exact layout.placed k u at_k
      · rw [Function.update_of_ne here]
        exact layout.placed k u at_k
    · rw [Roster.countP_move_same Pc.finished unmoved.finished]
      exact layout.physicalSize
    · rw [Roster.map_move_same (shownDelta calls)
        (by rw [shownDelta, unmoved.counted, shownDelta])]
      exact layout.deg
    · rw [Roster.map_move_same (shownEntry calls)
        (by rw [shownEntry, unmoved.written, shownEntry])]
      exact layout.edge
    · cases unmoved.stamped with
      | inl none =>
          rw [layout.timestamp, none, Option.map_none, Option.map_none]
      | inr same =>
          rw [Roster.map_move_same (shownStamp o.stamp) (by rw [shownStamp, same, shownStamp])]
          exact layout.timestamp
  · have others (u : Nat) (inside : u ∈ o.claims) : Function.update pcs t pc' u = pcs u :=
      Function.update_of_ne (fun (same : u = t) => member (same ▸ inside)) pc' pcs
    refine ⟨layout.nodup, fun k u at_k => ?_, layout.size, layout.snapshotDeg, ?_, ?_, ?_, ?_,
      layout.aligned, layout.indexed, layout.dated⟩
    · rw [others u (List.mem_of_getElem? at_k)]
      exact layout.placed k u at_k
    · rw [List.countP_congr fun u inside => by rw [others u inside]]
      exact layout.physicalSize
    · rw [Roster.map_move_absent (shownDelta calls) member]
      exact layout.deg
    · rw [Roster.map_move_absent (shownEntry calls) member]
      exact layout.edge
    · rw [Roster.map_move_absent (shownStamp o.stamp) member]
      exact layout.timestamp

theorem free_slots (layout : Layout calls pcs o cur) (room : cur.size < cur.cap) :
    cur.size = o.base + o.claims.length ∧
      cur.cap - (o.base + o.claims.length) = cur.cap - (o.base + (o.claims.length + 1)) + 1 := by
  have size := layout.size
  rw [Nat.min_eq_left room.le] at size
  omega

theorem claim (layout : Layout calls pcs o cur) (room : cur.size < cur.cap) (fresh : t ∉ o.claims)
    (nonneg : 0 ≤ (calls t).entry.idx) (place : pc'.place = some (o.head, cur.size))
    (unwritten : pc'.written = false) (unstamped : pc'.stamped = false)
    (uncounted : pc'.counted = false) (unfinished : pc'.finished = false) :
    Layout calls (Function.update pcs t pc') { o with claims := o.claims ++ [t] } cur.claim := by
  obtain ⟨size, free⟩ := layout.free_slots room
  have others (u : Nat) (inside : u ∈ o.claims) : Function.update pcs t pc' u = pcs u :=
    Function.update_of_ne (fun (same : u = t) => fresh (same ▸ inside)) pc' pcs
  constructor
  · exact List.nodup_append.mpr ⟨layout.nodup, List.nodup_singleton t, by
      rintro u inside _ new rfl
      exact fresh (List.mem_singleton.mp new ▸ inside)⟩
  · intro k u at_k
    change (o.claims ++ [t])[k]? = some u at at_k
    rw [List.getElem?_append] at at_k
    split at at_k
    · rw [others u (List.mem_of_getElem? at_k)]
      exact layout.placed k u at_k
    · obtain ⟨last, rfl⟩ := List.getElem?_eq_some_iff.mp at_k
      simp only [List.length_singleton] at last
      have last : k = o.claims.length := by omega
      simp only [last, Nat.sub_self, List.getElem_cons_zero, Function.update_self, place, size]
      rfl
  · have full : min (cur.size + 1) cur.cap = cur.size + 1 := Nat.min_eq_left room
    change o.base + (o.claims ++ [t]).length = min (cur.size + 1) cur.cap
    rw [full, List.length_append, size]
    rfl
  · exact layout.snapshotDeg
  · change cur.physicalSize = o.base + (o.claims ++ [t]).countP _
    rw [List.countP_append, List.countP_congr fun u inside => by rw [others u inside]]
    simp [unfinished, layout.physicalSize]
  · change cur.deg = o.deg + ((o.claims ++ [t]).map _).sum
    rw [List.map_append, Roster.map_move_absent (shownDelta calls) fresh, layout.deg]
    simp [shownDelta, uncounted]
  · change cur.edge = some (_ ++ (o.claims ++ [t]).map _ ++
      List.replicate (cur.cap - (o.base + (o.claims ++ [t]).length)) _)
    rw [List.map_append, Roster.map_move_absent (shownEntry calls) fresh, layout.edge,
      List.length_append, free, List.replicate_succ]
    simp [shownEntry, unwritten]
  · change cur.timestamp = o.stamps.map fun ts => ts.map some ++ (o.claims ++ [t]).map _ ++
      List.replicate (cur.cap - (o.base + (o.claims ++ [t]).length)) none
    rw [List.map_append, Roster.map_move_absent (shownStamp o.stamp) fresh, layout.timestamp,
      List.length_append, free, List.replicate_succ]
    simp [shownStamp, unstamped]
  · exact layout.aligned
  · intro e member
    simp only [Origin.entries, List.map_append, ← List.append_assoc] at member
    cases List.mem_append.mp member with
    | inl old =>
        apply layout.indexed e
        simpa only [Origin.entries, List.append_assoc] using old
    | inr new =>
        obtain rfl : e = (calls t).entry := by simpa using new
        exact nonneg
  · exact ⟨layout.dated.snapshotTimestamp, layout.dated.stamps, layout.dated.stamp⟩

theorem claimed_lt (layout : Layout calls pcs o cur) (at_k : o.claims[k]? = some t) :
    k < o.claims.length ∧ o.base + k < cur.cap := by
  have inside := (List.getElem?_eq_some_iff.mp at_k).1
  have room := layout.room
  exact ⟨inside, by omega⟩

theorem placed_move (layout : Layout calls pcs o cur) (place : pc'.place = (pcs t).place) :
    ∀ k u, o.claims[k]? = some u → (Function.update pcs t pc' u).place = some (o.head, o.base + k) := by
  intro k u at_k
  by_cases here : u = t
  · subst here
    rw [Function.update_self, place]
    exact layout.placed k u at_k
  · rw [Function.update_of_ne here]
    exact layout.placed k u at_k

theorem write (layout : Layout calls pcs o cur) (pc' : Pc W) (at_k : o.claims[k]? = some t)
    (stored : cur.store (o.base + k) (calls t).entry = .ok cur')
    (place : pc'.place = (pcs t).place) (stamped : pc'.stamped = (pcs t).stamped)
    (counted : pc'.counted = (pcs t).counted) (finished : pc'.finished = (pcs t).finished)
    (written : pc'.written = true) :
    Layout calls (Function.update pcs t pc') o cur' ∧
      ∃ edge, cur' = { cur with edge := edge } := by
  have inside := (layout.claimed_lt at_k).1
  simp only [WeightedEdgeArray.store, layout.edge] at stored
  split at stored
  case isFalse => contradiction
  case isTrue room =>
    cases stored
    refine ⟨⟨layout.nodup, layout.placed_move place, layout.size, layout.snapshotDeg, ?_, ?_, ?_, ?_,
      layout.aligned, layout.indexed, layout.dated⟩, _, rfl⟩
    · rw [Roster.countP_move_same Pc.finished finished]
      exact layout.physicalSize
    · rw [Roster.map_move_same (shownDelta calls) (by rw [shownDelta, counted, shownDelta])]
      exact layout.deg
    · rw [Roster.map_move (shownEntry calls) layout.nodup at_k, shownEntry, if_pos written]
      have front : (o.snap ++ o.log).length = o.base := List.length_append
      rw [← front, Roster.set_middle _ _ _ (by simpa using inside)]
    · rw [Roster.map_move_same (shownStamp o.stamp) (by rw [shownStamp, stamped, shownStamp])]
      exact layout.timestamp

theorem stamp (layout : Layout calls pcs o cur) (pc' : Pc W) (at_k : o.claims[k]? = some t) {x : Int}
    (stored : cur.storeStamp (o.base + k - cur.snapshotDeg) x = .ok cur')
    (place : pc'.place = (pcs t).place) (written : pc'.written = (pcs t).written)
    (counted : pc'.counted = (pcs t).counted) (finished : pc'.finished = (pcs t).finished)
    (before : (pcs t).stamped = false)
    (after : pc'.stamped = true) (small : x ≤ maxTimestamp) :
    Layout calls (Function.update pcs t pc') { o with stamp := Function.update o.stamp t x } cur' ∧
      ∃ timestamp, cur' = { cur with timestamp := timestamp } := by
  have inside := (layout.claimed_lt at_k).1
  cases stamps : o.stamps with
  | none => simp [WeightedEdgeArray.storeStamp, layout.timestamp, stamps] at stored
  | some ts =>
      simp only [WeightedEdgeArray.storeStamp, layout.timestamp, stamps, Option.map_some] at stored
      split at stored
      case isFalse => contradiction
      case isTrue room =>
        cases stored
        refine ⟨⟨layout.nodup, layout.placed_move place, layout.size, layout.snapshotDeg, ?_, ?_, ?_,
          ?_, stamps ▸ layout.aligned, layout.indexed, ?_⟩, _, rfl⟩
        · rw [Roster.countP_move_same Pc.finished finished]
          exact layout.physicalSize
        · rw [Roster.map_move_same (shownDelta calls) (by rw [shownDelta, counted, shownDelta])]
          exact layout.deg
        · rw [Roster.map_move_same (shownEntry calls) (by rw [shownEntry, written, shownEntry])]
          exact layout.edge
        · have others : o.claims.map (fun u => shownStamp (Function.update o.stamp t x) (pcs u) u) =
              o.claims.map fun u => shownStamp o.stamp (pcs u) u := by
            apply List.map_congr_left
            intro u _
            by_cases here : u = t
            · subst here
              simp [shownStamp, before]
            · rw [shownStamp, Function.update_of_ne here, shownStamp]
          have front : (ts.map some).length = o.log.length := by
            rw [List.length_map, layout.aligned ts stamps]
          have index : o.base + k - cur.snapshotDeg = (ts.map some).length + k := by
            rw [layout.snapshotDeg, front, Origin.base]
            omega
          change _ = Option.map _ (some ts)
          rw [Option.map_some,
            Roster.map_move (shownStamp (Function.update o.stamp t x)) layout.nodup at_k, others,
            shownStamp, if_pos after, Function.update_self, index,
            Roster.set_middle _ _ _ (by simpa using inside)]
          rfl
        · refine ⟨layout.dated.snapshotTimestamp, stamps ▸ layout.dated.stamps, fun u => ?_⟩
          change Function.update o.stamp t x u ≤ maxTimestamp
          by_cases here : u = t
          · subst here
            rwa [Function.update_self]
          · rw [Function.update_of_ne here]
            exact layout.dated.stamp u

theorem count (layout : Layout calls pcs o cur) (pc' : Pc W) (at_k : o.claims[k]? = some t)
    (place : pc'.place = (pcs t).place) (stamped : pc'.stamped = (pcs t).stamped)
    (written : pc'.written = (pcs t).written) (finished : pc'.finished = (pcs t).finished)
    (before : (pcs t).counted = false) (after : pc'.counted = true) :
    Layout calls (Function.update pcs t pc') o { cur with deg := cur.deg + (calls t).deltaDeg } := by
  refine ⟨layout.nodup, layout.placed_move place, layout.size, layout.snapshotDeg, ?_, ?_, ?_, ?_,
    layout.aligned, layout.indexed, layout.dated⟩
  · rw [Roster.countP_move_same Pc.finished finished]
    exact layout.physicalSize
  · change cur.deg + (calls t).deltaDeg = _
    rw [Roster.sum_move (shownDelta calls) layout.nodup (List.mem_of_getElem? at_k), layout.deg,
      shownDelta, if_pos after, shownDelta, if_neg (by rw [before]; simp)]
    omega
  · rw [Roster.map_move_same (shownEntry calls) (by rw [shownEntry, written, shownEntry])]
    exact layout.edge
  · rw [Roster.map_move_same (shownStamp o.stamp) (by rw [shownStamp, stamped, shownStamp])]
    exact layout.timestamp

theorem finish (layout : Layout calls pcs o cur) (pc' : Pc W) (at_k : o.claims[k]? = some t)
    (place : pc'.place = (pcs t).place) (stamped : pc'.stamped = (pcs t).stamped)
    (counted : pc'.counted = (pcs t).counted) (written : pc'.written = (pcs t).written)
    (before : (pcs t).finished = false) (after : pc'.finished = true) :
    Layout calls (Function.update pcs t pc') o { cur with physicalSize := cur.physicalSize + 1 } := by
  refine ⟨layout.nodup, layout.placed_move place, layout.size, layout.snapshotDeg, ?_, ?_, ?_, ?_,
    layout.aligned, layout.indexed, layout.dated⟩
  · rw [Roster.countP_move Pc.finished layout.nodup (List.mem_of_getElem? at_k) before after,
      layout.physicalSize]
    rfl
  · rw [Roster.map_move_same (shownDelta calls) (by rw [shownDelta, counted, shownDelta])]
    exact layout.deg
  · rw [Roster.map_move_same (shownEntry calls) (by rw [shownEntry, written, shownEntry])]
    exact layout.edge
  · rw [Roster.map_move_same (shownStamp o.stamp) (by rw [shownStamp, stamped, shownStamp])]
    exact layout.timestamp

theorem full (layout : Layout calls pcs o cur) (full : Full cur) :
    o.base + o.claims.length = cur.cap ∧ cur.cap ≤ cur.size ∧ ∀ t ∈ o.claims, (pcs t).finished = true := by
  have count := layout.physicalSize
  have room := layout.room
  have size := layout.size
  have most := List.countP_le_length (p := fun t => (pcs t).finished) (l := o.claims)
  rw [Full] at full
  have all : (o.claims.countP fun t => (pcs t).finished) = o.claims.length := by omega
  exact ⟨by omega, by omega, List.countP_eq_length.mp all⟩

theorem stamped_of_finished {pc : Pc W} (finished : pc.finished = true) :
    pc.stamped = true ∧ pc.counted = true ∧ pc.written = true := by
  cases pc <;> first | exact ⟨rfl, rfl, rfl⟩ | cases finished

theorem deg_of_finished (layout : Layout calls pcs o cur)
    (done : ∀ t ∈ o.claims, (pcs t).finished = true) :
    cur.deg = o.deg + (o.claims.map fun t => (calls t).deltaDeg).sum := by
  rw [layout.deg]
  congr 2
  apply List.map_congr_left
  intro t member
  rw [shownDelta, if_pos (stamped_of_finished (done t member)).2.1]

theorem laid (layout : Layout calls pcs o cur) (done : ∀ t ∈ o.claims, (pcs t).finished = true) :
    Laid cur o.snap (o.entries calls) (o.stamps.map (· ++ o.claims.map o.stamp)) := by
  have length : (o.entries calls).length = o.log.length + o.claims.length := by simp [Origin.entries]
  have count : (o.claims.countP fun t => (pcs t).finished) = o.claims.length :=
    List.countP_eq_length.mpr done
  have entries : o.claims.map (fun t => shownEntry calls (pcs t) t) =
      o.claims.map fun t => (calls t).entry := by
    apply List.map_congr_left
    intro t member
    rw [shownEntry, if_pos (stamped_of_finished (done t member)).2.2]
  have stamps : o.claims.map (fun t => shownStamp o.stamp (pcs t) t) =
      o.claims.map fun t => some (o.stamp t) := by
    apply List.map_congr_left
    intro t member
    rw [shownStamp, if_pos (stamped_of_finished (done t member)).1]
  constructor
  · rw [length, ← Nat.add_assoc]
    exact layout.room
  · rw [layout.edge, entries, length, ← Nat.add_assoc]
    simp [Origin.entries, Origin.base]
  · rw [layout.physicalSize, count, length, ← Nat.add_assoc]
    rfl
  · exact layout.snapshotDeg
  · exact layout.indexed
  · rw [layout.timestamp, stamps, length, ← Nat.add_assoc]
    cases o.stamps <;> simp [Origin.base]
  · intro ts present
    obtain ⟨old, found, rfl⟩ := Option.map_eq_some_iff.mp present
    simp [length, layout.aligned old found]

end Layout

end OneVertex

end Radix
