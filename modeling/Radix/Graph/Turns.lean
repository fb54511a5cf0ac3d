import Radix.Graph.Retirement

/-!
# Where a step leads and what it leaves of an array

A step changes one array at most, and only the calls with a slot of the current version store to it. So a replaced
version stays as it was, but for its counters and the memory that is freed.
-/

namespace Radix

open Lib

variable {W : Type} [Zero W]

namespace OneVertex

inductive Flows (setting : Setting W) (s : Source W) : Pc W → Pc W → Prop
  | loadNext {p : Nat} : s.chain.head? = some p → Flows setting s .loadNext (.claim p)
  | claim {p : Nat} (i : Nat) : Flows setting s (.claim p) (.checkCap p i)
  | inside {p i : Nat} : Flows setting s (.checkCap p i) (.drawStamp p i)
  | beyond {p i : Nat} {arr : WeightedEdgeArray W} : s.memory[p]? = some arr → arr.cap ≤ i →
      Flows setting s (.checkCap p i) (.lock p)
  | lock {p : Nat} : Flows setting s (.lock p) (.compareNext p)
  | current {p q : Nat} : s.chain.head? = some q → setting.address p = setting.address q →
      Flows setting s (.compareNext p) (.waitFull q)
  | replaced {p q : Nat} : s.chain.head? = some q → setting.address p ≠ setting.address q →
      Flows setting s (.compareNext p) .reload
  | full {p : Nat} : Flows setting s (.waitFull p) (.allocate p)
  | allocate {p : Nat} (newArray : WeightedEdgeArray W) : Flows setting s (.allocate p) (.compact p newArray)
  | compact {p : Nat} {newArray : WeightedEdgeArray W} (compacted : WeightedEdgeArray W) :
      Flows setting s (.compact p newArray) (.publish p compacted)
  | publish {p : Nat} {newArray : WeightedEdgeArray W} : Flows setting s (.publish p newArray) (.retire p)
  | retire {p : Nat} : Flows setting s (.retire p) .reload
  | reload {p : Nat} : s.chain.head? = some p → Flows setting s .reload (.reclaim p)
  | reclaim {p : Nat} (i : Nat) : Flows setting s (.reclaim p) (.unlock p i)
  | unlock {p i : Nat} : Flows setting s (.unlock p i) (.checkCap p i)
  | unstamped {p i : Nat} : Flows setting s (.drawStamp p i) (.bumpDeg p i)
  | stamped {p i : Nat} (x : Int) : Flows setting s (.drawStamp p i) (.storeStamp p i x)
  | storeStamp {p i : Nat} {x : Int} : Flows setting s (.storeStamp p i x) (.bumpDeg p i)
  | bumpDeg {p i : Nat} : Flows setting s (.bumpDeg p i) (.writeSlot p i)
  | writeSlot {p i : Nat} : Flows setting s (.writeSlot p i) (.bumpPhysical p i)
  | bumpPhysical {p i : Nat} : Flows setting s (.bumpPhysical p i) (.inserted p i)
  | enter : Flows setting s .enter .select
  | absent : Flows setting s .select .unlockNone
  | found {p : Nat} : Flows setting s .select (.unlockRead p)
  | unlockRead {p : Nat} : Flows setting s (.unlockRead p) (.loadCount p)
  | unlockNone : Flows setting s .unlockNone (.returned false [])
  | loadScan {p : Nat} {arr : WeightedEdgeArray W} (marks : SegmentedBitmap) : s.memory[p]? = some arr →
      Flows setting s (.loadCount p) (.scan p arr.physicalSize arr.physicalSize 0 [] marks)
  | loadCut {p : Nat} {arr : WeightedEdgeArray W} : s.memory[p]? = some arr → arr.snapshotDeg < arr.physicalSize →
      Flows setting s (.loadCount p) (.cut p (arr.physicalSize - 1))
  | loadSnapshot {p : Nat} (cnt : Nat) : Flows setting s (.loadCount p) (.copySnapshot p cnt)
  | copySnapshot {p cnt : Nat} (n : List (WeightedEdge W)) : Flows setting s (.copySnapshot p cnt) (.lockLeave p n)
  | cutHere {p i : Nat} (marks : SegmentedBitmap) : Flows setting s (.cut p i) (.scan p (i + 1) (i + 1) 0 [] marks)
  | cutAll {p i : Nat} (n : List (WeightedEdge W)) (marks : SegmentedBitmap) :
      Flows setting s (.cut p i) (.scan p 0 0 0 n marks)
  | cutBelow {p i : Nat} {arr : WeightedEdgeArray W} : s.memory[p]? = some arr → i ≠ arr.snapshotDeg →
      Flows setting s (.cut p i) (.cut p (i - 1))
  | scanned {p cnt r : Nat} {n : List (WeightedEdge W)} {marks : SegmentedBitmap} :
      Flows setting s (.scan p cnt 0 r n marks) (.clear p cnt n marks)
  | scan {p cnt i r : Nat} {n : List (WeightedEdge W)} {marks : SegmentedBitmap} (n' : List (WeightedEdge W))
      (marks' : SegmentedBitmap) : Flows setting s (.scan p cnt (i + 1) r n marks) (.scan p cnt i 0 n' marks')
  | retry {p cnt i r : Nat} {n : List (WeightedEdge W)} {marks : SegmentedBitmap} : r < 10000 →
      Flows setting s (.scan p cnt (i + 1) r n marks) (.scan p cnt (i + 1) (r + 1) n marks)
  | clear {p cnt : Nat} {n : List (WeightedEdge W)} {marks : SegmentedBitmap} :
      Flows setting s (.clear p cnt n marks) (.lockLeave p n)
  | lockLeave {p : Nat} {n : List (WeightedEdge W)} : Flows setting s (.lockLeave p n) (.leave p n)
  | leave {p : Nat} {n : List (WeightedEdge W)} : Flows setting s (.leave p n) (.unlockLeave n)
  | unlockLeave {n : List (WeightedEdge W)} : Flows setting s (.unlockLeave n) (.returned true n)

inductive Turns (request : Request W) (pc : Pc W) (p : Nat) (arr : WeightedEdgeArray W) :
    WeightedEdgeArray W → Prop
  | same : Turns request pc p arr arr
  | claimed : Turns request pc p arr arr.claim
  | stamped (i : Nat) (x : Int) (ts : List (Option Int)) : pc = .storeStamp p i x → arr.timestamp = some ts →
      Turns request pc p arr { arr with timestamp := some (ts.set (i - arr.snapshotDeg) (some x)) }
  | counted (i : Nat) : pc = .bumpDeg p i → Turns request pc p arr { arr with deg := arr.deg + request.deltaDeg }
  | written (i : Nat) (edges : List (WeightedEdge W)) : pc = .writeSlot p i → arr.edge = some edges →
      Turns request pc p arr { arr with edge := some (edges.set i request.entry) }
  | finished (i : Nat) : pc = .bumpPhysical p i →
      Turns request pc p arr { arr with physicalSize := arr.physicalSize + 1 }
  | acquired : Turns request pc p arr arr.acquire
  | released : Turns request pc p arr arr.release
  | freed : pc = .retire p → arr.threadsRead = 0 → Turns request pc p arr { arr with edge := none, timestamp := none }

inductive Publishing (s : Source W) : Pc W → Source W → Prop
  | published (p : Nat) {s' : Source W} (newArray : WeightedEdgeArray W) : s'.memory = s.memory ++ [newArray] →
      s'.chain = s.memory.length :: s.chain → Publishing s (.publish p newArray) s'
  | kept {pc : Pc W} {s' : Source W} : s'.memory.length = s.memory.length → Publishing s pc s'

variable {setting : Setting W} {calls : Nat → Request W} {request : Request W} {pcs : Nat → Pc W} {o : Origin W}
  {s s' : Source W} {cur arr arr' : WeightedEdgeArray W} {first t p : Nat} {pc pc' : Pc W}

/-! ## Every step -/

theorem modify_turns {q : Nat} (change : WeightedEdgeArray W → WeightedEdgeArray W) (there : s.memory[p]? = some arr)
    (turns : p = q → Turns request pc p arr (change arr)) :
    ∃ arr', (s.modify q change).memory[p]? = some arr' ∧ Turns request pc p arr arr' := by
  by_cases here : p = q
  · subst here
    exact ⟨change arr, modify_at there, turns rfl⟩
  · exact ⟨arr, (modify_other (Ne.symm here) change).trans there, .same⟩

theorem unchanged (memory : s'.memory = s.memory) (there : s.memory[p]? = some arr) :
    ∃ arr', s'.memory[p]? = some arr' ∧ Turns request pc p arr arr' := ⟨arr, by rw [memory, there], .same⟩

theorem retire_turns {q : Nat} (there : s.memory[p]? = some arr) (spared : s.doomed q ≠ some p) :
    ∃ arr', (s.retire setting q).memory[p]? = some arr' ∧ Turns request (.retire q) p arr arr' := by
  unfold Source.retire
  split
  case isFalse => exact ⟨arr, there, .same⟩
  case isTrue unread =>
    have freed (here : p = q) : Turns request (.retire q) p arr { arr with edge := none, timestamp := none } := by
      subst here
      rw [Source.unread, there, Option.any_some] at unread
      exact .freed rfl (of_decide_eq_true unread)
    obtain ⟨arr', there', turns⟩ :=
      modify_turns (fun arr => { arr with edge := none, timestamp := none }) there freed
    refine ⟨arr', ?_, turns⟩
    cases doomed : s.doomed q with
    | none => exact there'
    | some dead =>
        have other : dead ≠ p := fun same => spared (same ▸ doomed)
        exact (List.getElem?_set_ne other).trans there'

theorem leave_turns {q : Nat} {n : List (WeightedEdge W)} (there : s.memory[p]? = some arr)
    (spared : deletes s (.leave q n) ≠ some p) :
    ∃ arr', (s.leave setting q).memory[p]? = some arr' ∧ Turns request (.leave q n) p arr arr' := by
  have released (_ : p = q) : Turns request (.leave q n) p arr arr.release := .released
  obtain ⟨arr', there', turns⟩ := modify_turns .release there released
  refine ⟨arr', ?_, turns⟩
  unfold Source.leave
  split
  case isFalse => exact there'
  case isTrue abandoned =>
    have other : q ≠ p := by
      rintro rfl
      rw [deletes, if_pos abandoned] at spared
      exact spared rfl
    exact (List.getElem?_set_ne other).trans there'

variable [DecidableEq W]

theorem logCompaction_mixed {info : GlobalInfo} {bitmap : SegmentedBitmap} {oldArr newArr : WeightedEdgeArray W}
    {result : WeightedEdgeArray W × SegmentedBitmap × GlobalInfo}
    (ran : logCompaction info bitmap oldArr newArr = .ok result) :
    result.2.2.isMixedWorkloads = info.isMixedWorkloads := by
  obtain ⟨_, -, ⟨⟩⟩ := bind_eq_ok.mp ran
  rfl

theorem scanSlot_flows {cnt i r : Nat} {n : List (WeightedEdge W)} {marks : SegmentedBitmap}
    (scanned : scanSlot arr p cnt i r n marks = .ok pc') : Flows setting s (.scan p cnt (i + 1) r n marks) pc' := by
  simp only [scanSlot, bind_eq_ok] at scanned
  obtain ⟨e, -, scanned⟩ := scanned
  split at scanned
  · split at scanned
    · rename_i few
      cases scanned
      exact .retry few
    · cases scanned
      exact .scan n marks
  · obtain ⟨bit, -, scanned⟩ := bind_eq_ok.mp scanned
    split at scanned
    all_goals
      cases scanned
      exact .scan _ _

theorem next_flows (taken : next setting t request s pc = some (s', pc')) : Flows setting s pc pc' := by
  cases pc with
  | loadNext =>
      obtain ⟨p, head, ⟨⟩⟩ := Option.map_eq_some_iff.mp taken
      exact .loadNext head
  | claim p =>
      obtain ⟨arr, -, ⟨⟩⟩ := Option.map_eq_some_iff.mp taken
      exact .claim _
  | checkCap p i =>
      obtain ⟨arr, there, ⟨⟩⟩ := Option.map_eq_some_iff.mp taken
      split
      · rename_i above
        exact .beyond there above
      · exact .inside
  | lock p =>
      simp only [next] at taken
      split at taken <;> cases taken
      exact .lock
  | compareNext p =>
      obtain ⟨q, head, ⟨⟩⟩ := Option.map_eq_some_iff.mp taken
      split
      · rename_i same
        exact .current head same
      · rename_i other
        exact .replaced head other
  | waitFull p =>
      obtain ⟨_, -, taken⟩ := Option.bind_eq_some_iff.mp taken
      split at taken <;> cases taken
      exact .full
  | allocate p =>
      obtain ⟨_, -, ⟨⟩⟩ := Option.map_eq_some_iff.mp taken
      exact .allocate _
  | compact p newArray =>
      obtain ⟨_, -, taken⟩ := Option.bind_eq_some_iff.mp taken
      obtain ⟨_, -, ⟨⟩⟩ := Option.map_eq_some_iff.mp taken
      exact .compact _
  | publish p newArray =>
      cases taken
      exact .publish
  | retire p =>
      cases taken
      exact .retire
  | reload =>
      obtain ⟨p, head, ⟨⟩⟩ := Option.map_eq_some_iff.mp taken
      exact .reload head
  | reclaim p =>
      obtain ⟨_, -, ⟨⟩⟩ := Option.map_eq_some_iff.mp taken
      exact .reclaim _
  | unlock p i =>
      cases taken
      exact .unlock
  | drawStamp p i =>
      obtain ⟨_, -, taken⟩ := Option.map_eq_some_iff.mp taken
      split at taken <;> cases taken
      · exact .unstamped
      · exact .stamped _
  | storeStamp p i x =>
      obtain ⟨_, -, taken⟩ := Option.bind_eq_some_iff.mp taken
      split at taken
      · contradiction
      · obtain ⟨_, -, ⟨⟩⟩ := Option.map_eq_some_iff.mp taken
        exact .storeStamp
  | bumpDeg p i =>
      cases taken
      exact .bumpDeg
  | writeSlot p i =>
      obtain ⟨_, -, taken⟩ := Option.bind_eq_some_iff.mp taken
      obtain ⟨_, -, ⟨⟩⟩ := Option.map_eq_some_iff.mp taken
      exact .writeSlot
  | bumpPhysical p i =>
      cases taken
      exact .bumpPhysical
  | enter =>
      simp only [next] at taken
      split at taken <;> cases taken
      exact .enter
  | select =>
      simp only [next] at taken
      split at taken <;> cases taken
      · exact .absent
      · exact .found
  | unlockRead p =>
      cases taken
      exact .unlockRead
  | unlockNone =>
      cases taken
      exact .unlockNone
  | loadCount p =>
      obtain ⟨arr, there, ⟨⟩⟩ := Option.map_eq_some_iff.mp taken
      split
      · rename_i longer
        split
        · exact .loadScan _ there
        · exact .loadCut there longer
      · exact .loadSnapshot _
  | copySnapshot p cnt =>
      obtain ⟨_, -, taken⟩ := Option.bind_eq_some_iff.mp taken
      obtain ⟨n, -, ⟨⟩⟩ := Option.map_eq_some_iff.mp taken
      exact .copySnapshot n
  | cut p i =>
      obtain ⟨arr, there, taken⟩ := Option.bind_eq_some_iff.mp taken
      obtain ⟨_, -, taken⟩ := Option.bind_eq_some_iff.mp taken
      split at taken
      · cases taken
        exact .cutHere _
      · split at taken
        · obtain ⟨n, -, ⟨⟩⟩ := Option.map_eq_some_iff.mp taken
          exact .cutAll n _
        · rename_i other
          cases taken
          exact .cutBelow there other
  | scan p cnt i r n marks =>
      cases i with
      | zero =>
          cases taken
          exact .scanned
      | succ i =>
          obtain ⟨arr, -, taken⟩ := Option.bind_eq_some_iff.mp taken
          obtain ⟨_, scanned, ⟨⟩⟩ := Option.map_eq_some_iff.mp taken
          exact scanSlot_flows (toOption_eq_some.mp scanned)
  | clear p cnt n marks =>
      obtain ⟨_, -, taken⟩ := Option.bind_eq_some_iff.mp taken
      obtain ⟨_, -, ⟨⟩⟩ := Option.map_eq_some_iff.mp taken
      exact .clear
  | lockLeave p n =>
      simp only [next] at taken
      split at taken <;> cases taken
      exact .lockLeave
  | leave p n =>
      cases taken
      exact .leave
  | unlockLeave n =>
      cases taken
      exact .unlockLeave
  | inserted | returned => contradiction

theorem next_turns (taken : next setting t request s pc = some (s', pc')) :
    s'.info.isMixedWorkloads = s.info.isMixedWorkloads ∧ Publishing s pc s' ∧
      ∀ p arr, s.memory[p]? = some arr → deletes s pc ≠ some p →
        ∃ arr', s'.memory[p]? = some arr' ∧ Turns request pc p arr arr' := by
  cases pc with
  | loadNext | checkCap | compareNext | allocate | reload | loadCount =>
      obtain ⟨_, -, ⟨⟩⟩ := Option.map_eq_some_iff.mp taken
      exact ⟨rfl, .kept rfl, fun _ _ there _ => unchanged rfl there⟩
  | claim | reclaim =>
      obtain ⟨_, -, ⟨⟩⟩ := Option.map_eq_some_iff.mp taken
      exact ⟨rfl, .kept (List.length_modify ..), fun _ _ there _ => modify_turns .claim there fun _ => .claimed⟩
  | lock | lockLeave | enter =>
      simp only [next] at taken
      split at taken <;> cases taken
      exact ⟨rfl, .kept rfl, fun _ _ there _ => unchanged rfl there⟩
  | waitFull =>
      obtain ⟨_, -, taken⟩ := Option.bind_eq_some_iff.mp taken
      split at taken <;> cases taken
      exact ⟨rfl, .kept rfl, fun _ _ there _ => unchanged rfl there⟩
  | compact p newArray =>
      obtain ⟨_, -, taken⟩ := Option.bind_eq_some_iff.mp taken
      obtain ⟨result, ran, ⟨⟩⟩ := Option.map_eq_some_iff.mp taken
      exact ⟨logCompaction_mixed (toOption_eq_some.mp ran), .kept rfl, fun _ _ there _ => unchanged rfl there⟩
  | copySnapshot | clear =>
      obtain ⟨_, -, taken⟩ := Option.bind_eq_some_iff.mp taken
      obtain ⟨_, -, ⟨⟩⟩ := Option.map_eq_some_iff.mp taken
      exact ⟨rfl, .kept rfl, fun _ _ there _ => unchanged rfl there⟩
  | publish =>
      cases taken
      refine ⟨rfl, .published _ _ rfl rfl, fun p arr there _ => ⟨arr, ?_, .same⟩⟩
      rw [List.getElem?_append_left (List.getElem?_eq_some_iff.mp there).1, there]
  | retire q =>
      cases taken
      refine ⟨?_, ?_, fun p arr there spared => retire_turns there spared⟩
      · unfold Source.retire
        split
        · cases s.doomed q <;> rfl
        · rfl
      · unfold Source.retire
        split
        · cases s.doomed q with
          | none => exact .kept (List.length_modify ..)
          | some dead => exact .kept (List.length_set.trans (List.length_modify ..))
        · exact .kept rfl
  | leave q n =>
      cases taken
      refine ⟨?_, ?_, fun p arr there spared => leave_turns there spared⟩
      · unfold Source.leave
        split <;> rfl
      · unfold Source.leave
        split
        · exact .kept (List.length_set.trans (List.length_modify ..))
        · exact .kept (List.length_modify ..)
  | unlock | unlockRead | unlockNone | unlockLeave =>
      cases taken
      exact ⟨rfl, .kept rfl, fun _ _ there _ => unchanged rfl there⟩
  | drawStamp =>
      obtain ⟨_, -, taken⟩ := Option.map_eq_some_iff.mp taken
      split at taken
      all_goals
        cases taken
        exact ⟨rfl, .kept rfl, fun _ _ there _ => unchanged rfl there⟩
  | storeStamp q i x =>
      obtain ⟨old, at_q, taken⟩ := Option.bind_eq_some_iff.mp taken
      split at taken
      · contradiction
      · obtain ⟨new, stored, ⟨⟩⟩ := Option.map_eq_some_iff.mp taken
        refine ⟨rfl, .kept (List.length_modify ..), fun p arr there _ => modify_turns _ there fun here => ?_⟩
        subst here
        obtain rfl : old = arr := Option.some.inj (at_q.symm.trans there)
        have stored := toOption_eq_some.mp stored
        unfold WeightedEdgeArray.storeStamp at stored
        split at stored
        · contradiction
        · rename_i ts present
          split at stored
          · cases stored
            exact .stamped i x ts rfl present
          · contradiction
  | bumpDeg q i =>
      cases taken
      refine ⟨rfl, .kept (List.length_modify ..), fun p arr there _ => modify_turns _ there fun here => ?_⟩
      subst here
      exact .counted i rfl
  | writeSlot q i =>
      obtain ⟨old, at_q, taken⟩ := Option.bind_eq_some_iff.mp taken
      obtain ⟨new, stored, ⟨⟩⟩ := Option.map_eq_some_iff.mp taken
      refine ⟨rfl, .kept (List.length_modify ..), fun p arr there _ => modify_turns _ there fun here => ?_⟩
      subst here
      obtain rfl : old = arr := Option.some.inj (at_q.symm.trans there)
      have stored := toOption_eq_some.mp stored
      unfold WeightedEdgeArray.store at stored
      split at stored
      · contradiction
      · rename_i edges present
        split at stored
        · cases stored
          exact .written i edges rfl present
        · contradiction
  | bumpPhysical q i =>
      cases taken
      refine ⟨rfl, .kept (List.length_modify ..), fun p arr there _ => modify_turns _ there fun here => ?_⟩
      subst here
      exact .finished i rfl
  | select =>
      simp only [next] at taken
      split at taken
      · cases taken
        exact ⟨rfl, .kept rfl, fun _ _ there _ => unchanged rfl there⟩
      · cases taken
        exact ⟨rfl, .kept (List.length_modify ..), fun _ _ there _ => modify_turns .acquire there fun _ => .acquired⟩
  | cut =>
      obtain ⟨_, -, taken⟩ := Option.bind_eq_some_iff.mp taken
      obtain ⟨stamp, -, taken⟩ := Option.bind_eq_some_iff.mp taken
      split at taken
      · cases taken
        exact ⟨rfl, .kept rfl, fun _ _ there _ => unchanged rfl there⟩
      · split at taken
        · obtain ⟨_, -, ⟨⟩⟩ := Option.map_eq_some_iff.mp taken
          exact ⟨rfl, .kept rfl, fun _ _ there _ => unchanged rfl there⟩
        · cases taken
          exact ⟨rfl, .kept rfl, fun _ _ there _ => unchanged rfl there⟩
  | scan q cnt i =>
      cases i with
      | zero =>
          cases taken
          exact ⟨rfl, .kept rfl, fun _ _ there _ => unchanged rfl there⟩
      | succ i =>
          obtain ⟨_, -, taken⟩ := Option.bind_eq_some_iff.mp taken
          obtain ⟨_, -, ⟨⟩⟩ := Option.map_eq_some_iff.mp taken
          exact ⟨rfl, .kept rfl, fun _ _ there _ => unchanged rfl there⟩
  | inserted | returned => contradiction

namespace Turns

omit [DecidableEq W]

theorem cap (turns : Turns request pc p arr arr') : arr'.cap = arr.cap := by cases turns <;> rfl

theorem snapshotDeg (turns : Turns request pc p arr arr') : arr'.snapshotDeg = arr.snapshotDeg := by
  cases turns <;> rfl

theorem size (turns : Turns request pc p arr arr') : arr.size ≤ arr'.size := by
  cases turns with
  | claimed => exact Nat.le_succ _
  | _ => exact le_rfl

theorem physicalSize (turns : Turns request pc p arr arr') : arr.physicalSize ≤ arr'.physicalSize := by
  cases turns with
  | finished => exact Nat.le_succ _
  | _ => exact le_rfl

theorem physicalSize_eq (turns : Turns request pc p arr arr') (still : ∀ i, pc ≠ .bumpPhysical p i) :
    arr'.physicalSize = arr.physicalSize := by
  cases turns with
  | finished i here => exact absurd here (still i)
  | _ => rfl

theorem kept (turns : Turns request pc p arr arr') (unfreed : pc = .retire p → arr.threadsRead ≠ 0) :
    (arr.edge ≠ none → arr'.edge ≠ none) ∧ (arr.timestamp ≠ none → arr'.timestamp ≠ none) := by
  cases turns with
  | freed here unread => exact absurd unread (unfreed here)
  | written i edges => exact ⟨fun _ => Option.some_ne_none _, id⟩
  | stamped i x ts => exact ⟨id, fun _ => Option.some_ne_none _⟩
  | _ => exact ⟨id, id⟩

end Turns

/-! ## Arrays that can be read -/

/-- Whatever lies below `physical_size` is there to be read, or has been freed as a whole. -/
structure Legible (arr : WeightedEdgeArray W) : Prop where
  counted : arr.snapshotDeg ≤ arr.physicalSize
  filled : arr.physicalSize ≤ arr.cap
  edges : ∀ edges, arr.edge = some edges → edges.length = arr.cap ∧ ∀ e ∈ edges, e.idx = -1 ∨ 0 ≤ e.idx
  stamps : ∀ ts, arr.timestamp = some ts → ts.length = arr.cap - arr.snapshotDeg

omit [DecidableEq W] in
theorem Layout.legible (layout : Layout calls pcs o cur) : Legible cur where
  counted := by
    rw [layout.snapshotDeg, layout.physicalSize, Origin.base]
    omega
  filled := by
    have room := layout.room
    have few := List.countP_le_length (p := fun t => (pcs t).finished) (l := o.claims)
    rw [layout.physicalSize]
    omega
  edges edges present := by
    have room := layout.room
    rw [layout.edge] at present
    cases present
    constructor
    · simp only [List.length_append, List.length_map, List.length_replicate, Origin.base] at room ⊢
      omega
    · intro e member
      rcases List.mem_append.mp member with shown | free
      · rcases List.mem_append.mp shown with old | drawn
        · apply Or.inr
          apply layout.indexed e
          rw [Origin.entries, ← List.append_assoc]
          exact List.mem_append_left _ old
        · obtain ⟨u, claimed, rfl⟩ := List.mem_map.mp drawn
          rw [shownEntry]
          split
          · right
            apply layout.indexed
            exact List.mem_append_right _ (Origin.mem_entries claimed)
          · exact .inl rfl
      · rw [List.eq_of_mem_replicate free]
        exact .inl rfl
  stamps ts present := by
    have room := layout.room
    rw [layout.timestamp] at present
    obtain ⟨old, stamps, rfl⟩ := Option.map_eq_some_iff.mp present
    simp only [List.length_append, List.length_map, List.length_replicate, layout.aligned old stamps,
      layout.snapshotDeg, Origin.base] at room ⊢
    omega

omit [DecidableEq W] in
theorem Turns.legible (turns : Turns request pc p arr arr') (legible : Legible arr)
    (nonneg : pc.inserting = true → 0 ≤ request.entry.idx) (still : ∀ i, pc ≠ .bumpPhysical p i) : Legible arr' := by
  cases turns with
  | same | claimed | counted | acquired | released =>
      exact ⟨legible.counted, legible.filled, legible.edges, legible.stamps⟩
  | stamped i x ts here present =>
      refine ⟨legible.counted, legible.filled, legible.edges, ?_⟩
      rintro _ ⟨⟩
      rw [List.length_set]
      exact legible.stamps ts present
  | written i edges here present =>
      obtain ⟨length, indexed⟩ := legible.edges edges present
      refine ⟨legible.counted, legible.filled, ?_, legible.stamps⟩
      rintro _ ⟨⟩
      refine ⟨by rw [List.length_set, length], fun e member => ?_⟩
      cases List.mem_or_eq_of_mem_set member with
      | inl old => exact indexed e old
      | inr new =>
          subst here
          exact .inr (new ▸ nonneg rfl)
  | finished i here => exact absurd here (still i)
  | freed =>
      refine ⟨legible.counted, legible.filled, ?_, ?_⟩
      · rintro _ ⟨⟩
      · rintro _ ⟨⟩

namespace Legible

variable {i n : Nat}

omit [DecidableEq W]

theorem read (legible : Legible arr) (present : arr.edge ≠ none) (inside : i < arr.cap) :
    ∃ e, arr.read i = .ok e ∧ (e.idx = -1 ∨ 0 ≤ e.idx) := by
  obtain ⟨edges, there⟩ := Option.ne_none_iff_exists'.mp present
  obtain ⟨length, indexed⟩ := legible.edges edges there
  obtain ⟨e, at_i⟩ : ∃ e, edges[i]? = some e := Option.isSome_iff_exists.mp (by simpa [length] using inside)
  refine ⟨e, ?_, indexed e (List.mem_of_getElem? at_i)⟩
  simp only [WeightedEdgeArray.read, there, at_i]

theorem copyOut (legible : Legible arr) (present : arr.edge ≠ none) (inside : i + n ≤ arr.cap)
    (neighbours : List (WeightedEdge W)) : ∃ copied, Radix.copyOut arr i n neighbours = .ok copied := by
  induction n generalizing i neighbours with
  | zero => exact ⟨neighbours, rfl⟩
  | succ n ih =>
      obtain ⟨e, here, -⟩ := legible.read present (show i < arr.cap by omega)
      rw [Radix.copyOut, here, ok_bind]
      exact ih (by omega) _

theorem copySnapshot (legible : Legible arr) (present : arr.edge ≠ none) (inside : n ≤ arr.cap) :
    ∃ copied, Radix.copySnapshot arr n [] = .ok copied := by
  apply legible.copyOut present
  rwa [Nat.zero_add]

theorem clearMarks (legible : Legible arr) (present : arr.edge ≠ none) (inside : i + n ≤ arr.cap)
    (marks : SegmentedBitmap) : ∃ marks', Radix.clearMarks true arr i n marks = .ok marks' := by
  induction n generalizing i marks with
  | zero => exact ⟨marks, rfl⟩
  | succ n ih =>
      obtain ⟨e, here, unset | nonneg⟩ := legible.read present (show i < arr.cap by omega)
      · rw [Radix.clearMarks, here, ok_bind, if_pos ⟨rfl, unset⟩]
        exact ih (by omega) _
      · rw [Radix.clearMarks, here, ok_bind, if_neg (by omega), WeightedEdge.bit_of_nonneg nonneg, ok_bind]
        exact ih (by omega) _

theorem stamp (legible : Legible arr) (present : arr.timestamp ≠ none) (inside : i < arr.cap - arr.snapshotDeg) :
    arr.stamp i = .error .uninitialized ∨ ∃ x, arr.stamp i = .ok x := by
  obtain ⟨ts, there⟩ := Option.ne_none_iff_exists'.mp present
  obtain ⟨stamp, at_i⟩ : ∃ stamp, ts[i]? = some stamp :=
    Option.isSome_iff_exists.mp (by simpa [legible.stamps ts there] using inside)
  cases stamp with
  | none =>
      left
      simp only [WeightedEdgeArray.stamp, there, at_i]
  | some x =>
      right
      refine ⟨x, ?_⟩
      simp only [WeightedEdgeArray.stamp, there, at_i]

variable [DecidableEq W]

theorem scanSlot (legible : Legible arr) (present : arr.edge ≠ none) (inside : i < arr.cap) (p cnt retryCount : Nat)
    (neighbours : List (WeightedEdge W)) (marks : SegmentedBitmap) :
    ∃ pc, OneVertex.scanSlot arr p cnt i retryCount neighbours marks = .ok pc := by
  obtain ⟨e, here, indexed⟩ := legible.read present inside
  simp only [OneVertex.scanSlot, here, ok_bind]
  split
  · split <;> exact ⟨_, rfl⟩
  · rename_i set
    simp only [WeightedEdge.bit_of_nonneg (indexed.resolve_left set), ok_bind]
    split <;> exact ⟨_, rfl⟩

end Legible

end OneVertex

end Radix
