import Radix.Graph.Steps

/-!
# Versions that are being read

A call of `GetNeighbours` is registered in the version it reads, and a version in which somebody is
registered is neither freed nor deleted: what others do to it are stores to slots of their own.
-/

namespace Radix

open Lib

variable {W : Type} [Zero W] [DecidableEq W]

namespace OneVertex

def Pc.reads : Pc W → Option Nat
  | .unlockRead p | .loadCount p | .copySnapshot p _ | .cut p _ | .scan p _ _ _ _ _ | .clear p _ _ _
  | .lockLeave p _ | .leave p _ => some p
  | _ => none

variable {setting : Setting W} {calls : Nat → Request W} {request : Request W} {pcs : Nat → Pc W}
  {o : Origin W} {s s' : Source W} {cur arr arr' : WeightedEdgeArray W} {first t r p : Nat} {pc pc' : Pc W}

inductive Registers (timestamp : Int) (s : Source W) : Pc W → Pc W → Prop
  | enters (p : Nat) : (s.chain.find? fun p => s.memory[p]?.any (·.readableAt timestamp)) = some p →
      Registers timestamp s .select (.unlockRead p)
  | leaves (p : Nat) (neighbours : List (WeightedEdge W)) :
      Registers timestamp s (.leave p neighbours) (.unlockLeave neighbours)
  | stays {pc pc' : Pc W} : pc'.reads = pc.reads → (∀ p n, pc ≠ .leave p n) → Registers timestamp s pc pc'

theorem next_registers (taken : next setting t request s pc = some (s', pc')) :
    Registers request.timestamp s pc pc' := by
  cases pc with
  | loadNext | claim | reload | reclaim | allocate =>
      obtain ⟨arr, -, ⟨⟩⟩ := Option.map_eq_some_iff.mp taken
      exact .stays rfl (by simp)
  | checkCap | compareNext =>
      obtain ⟨arr, -, ⟨⟩⟩ := Option.map_eq_some_iff.mp taken
      split <;> exact .stays rfl (by simp)
  | lock | lockLeave =>
      simp only [next] at taken
      split at taken
      · contradiction
      · cases taken
        exact .stays rfl (by simp)
  | waitFull =>
      obtain ⟨arr, -, taken⟩ := Option.bind_eq_some_iff.mp taken
      split at taken
      · cases taken
        exact .stays rfl (by simp)
      · contradiction
  | compact | writeSlot | copySnapshot | clear =>
      obtain ⟨arr, -, taken⟩ := Option.bind_eq_some_iff.mp taken
      obtain ⟨x, -, ⟨⟩⟩ := Option.map_eq_some_iff.mp taken
      exact .stays rfl (by simp)
  | publish | bumpDeg | bumpPhysical | retire | unlock | unlockRead | unlockNone | unlockLeave =>
      cases taken
      exact .stays rfl (by simp)
  | leave p n =>
      cases taken
      exact .leaves p n
  | drawStamp =>
      obtain ⟨arr, -, taken⟩ := Option.map_eq_some_iff.mp taken
      split at taken
      all_goals
        cases taken
        exact .stays rfl (by simp)
  | storeStamp =>
      obtain ⟨arr, -, taken⟩ := Option.bind_eq_some_iff.mp taken
      split at taken
      · contradiction
      · obtain ⟨x, -, ⟨⟩⟩ := Option.map_eq_some_iff.mp taken
        exact .stays rfl (by simp)
  | enter =>
      simp only [next] at taken
      split at taken
      · cases taken
        exact .stays rfl (by simp)
      · contradiction
  | select =>
      simp only [next] at taken
      split at taken
      · cases taken
        exact .stays rfl (by simp)
      · rename_i p found
        cases taken
        exact .enters p found
  | loadCount =>
      obtain ⟨arr, -, ⟨⟩⟩ := Option.map_eq_some_iff.mp taken
      split
      · split <;> exact .stays rfl (by simp)
      · exact .stays rfl (by simp)
  | cut =>
      obtain ⟨arr, -, taken⟩ := Option.bind_eq_some_iff.mp taken
      obtain ⟨stamp, -, taken⟩ := Option.bind_eq_some_iff.mp taken
      split at taken
      · cases taken
        exact .stays rfl (by simp)
      · split at taken
        · obtain ⟨x, -, ⟨⟩⟩ := Option.map_eq_some_iff.mp taken
          exact .stays rfl (by simp)
        · cases taken
          exact .stays rfl (by simp)
  | scan p cnt i =>
      cases i with
      | zero =>
          cases taken
          exact .stays rfl (by simp)
      | succ i =>
          obtain ⟨arr, -, taken⟩ := Option.bind_eq_some_iff.mp taken
          obtain ⟨pc, scanned, ⟨⟩⟩ := Option.map_eq_some_iff.mp taken
          obtain ⟨j, r', n', m', rfl⟩ := scanSlot_scan (toOption_eq_some.mp scanned)
          exact .stays rfl (by simp)
  | inserted | returned => contradiction

inductive Effect (request : Request W) (s : Source W) (pc pc' : Pc W) (p : Nat)
    (arr arr' : WeightedEdgeArray W) : Prop
  | kept : arr'.edge = arr.edge → arr'.timestamp = arr.timestamp → arr'.snapshotDeg = arr.snapshotDeg →
      arr.physicalSize ≤ arr'.physicalSize → arr'.threadsRead = arr.threadsRead → Effect ..
  | stored (i : Nat) (edges : List (WeightedEdge W)) : pc = .writeSlot p i → arr.edge = some edges →
      arr' = { arr with edge := some (edges.set i request.entry) } → Effect ..
  | stamped (i : Nat) (x : Int) (ts : List (Option Int)) : pc = .storeStamp p i x →
      arr.timestamp = some ts →
      arr' = { arr with timestamp := some (ts.set (i - arr.snapshotDeg) (some x)) } → Effect ..
  | acquired : pc' = .unlockRead p → arr' = arr.acquire → Effect ..
  | released (n : List (WeightedEdge W)) : pc = .leave p n → arr' = arr.release → Effect ..
  | freed : pc = .retire p → arr.threadsRead = 0 → Effect ..
  | deleted : deletes s pc = some p → Effect ..

omit [DecidableEq W] in
theorem Effect.refl (request : Request W) (s : Source W) (pc pc' : Pc W) (p : Nat)
    (arr : WeightedEdgeArray W) : Effect request s pc pc' p arr arr := .kept rfl rfl rfl le_rfl rfl

omit [DecidableEq W] in
theorem modify_effect {q : Nat} (change : WeightedEdgeArray W → WeightedEdgeArray W)
    (there : s.memory[p]? = some arr) (effect : p = q → Effect request s pc pc' p arr (change arr)) :
    ∃ arr', (s.modify q change).memory[p]? = some arr' ∧ Effect request s pc pc' p arr arr' := by
  by_cases here : p = q
  · subst here
    exact ⟨change arr, modify_at there, effect rfl⟩
  · exact ⟨arr, (modify_other (Ne.symm here) change).trans there, .refl ..⟩

omit [DecidableEq W] in
theorem delete_effect {dead : Nat} {s₁ : Source W} {arr₁ : WeightedEdgeArray W} (setting : Setting W)
    (there : s₁.memory[p]? = some arr₁) (deleted : deletes s pc = some dead)
    (effect : Effect request s pc pc' p arr arr₁) :
    ∃ arr', (s₁.delete setting dead).memory[p]? = some arr' ∧ Effect request s pc pc' p arr arr' := by
  by_cases here : p = dead
  · subst here
    have inside := (List.getElem?_eq_some_iff.mp there).1
    exact ⟨setting.reused p, List.getElem?_set_self inside, .deleted deleted⟩
  · exact ⟨arr₁, (List.getElem?_set_ne (Ne.symm here)).trans there, effect⟩

omit [DecidableEq W] in
theorem retire_effect {q : Nat} (there : s.memory[p]? = some arr) (pc' : Pc W) :
    ∃ arr', (s.retire setting q).memory[p]? = some arr' ∧ Effect request s (.retire q) pc' p arr arr' := by
  unfold Source.retire
  split
  case isFalse => exact ⟨arr, there, .refl ..⟩
  case isTrue unread =>
    have change (here : p = q) : Effect request s (.retire q) pc' p arr
        { arr with edge := none, timestamp := none } := by
      subst here
      rw [Source.unread, there, Option.any_some] at unread
      exact .freed rfl (of_decide_eq_true unread)
    obtain ⟨arr₁, there₁, effect⟩ := modify_effect (fun arr => { arr with edge := none, timestamp := none })
      there change
    cases doomed : s.doomed q with
    | none => exact ⟨arr₁, there₁, effect⟩
    | some dead => exact delete_effect setting there₁ doomed effect

omit [DecidableEq W] in
theorem leave_effect {q : Nat} {n : List (WeightedEdge W)} (there : s.memory[p]? = some arr) (pc' : Pc W) :
    ∃ arr', (s.leave setting q).memory[p]? = some arr' ∧ Effect request s (.leave q n) pc' p arr arr' := by
  have change (here : p = q) : Effect request s (.leave q n) pc' p arr arr.release :=
    .released n (by rw [here]) rfl
  obtain ⟨arr₁, there₁, effect⟩ := modify_effect .release there change
  unfold Source.leave
  split
  case isFalse => exact ⟨arr₁, there₁, effect⟩
  case isTrue abandoned => exact delete_effect setting there₁ (by rw [deletes, if_pos abandoned]) effect

omit [DecidableEq W] in
theorem untouched (memory : s'.memory = s.memory) (there : s.memory[p]? = some arr) :
    ∃ arr', s'.memory[p]? = some arr' ∧ Effect request s pc pc' p arr arr' :=
  ⟨arr, by rw [memory, there], .refl ..⟩

theorem next_effect (taken : next setting t request s pc = some (s', pc'))
    (there : s.memory[p]? = some arr) :
    ∃ arr', s'.memory[p]? = some arr' ∧ Effect request s pc pc' p arr arr' := by
  cases pc with
  | loadNext | checkCap | compareNext | allocate | reload | loadCount =>
      obtain ⟨_, -, ⟨⟩⟩ := Option.map_eq_some_iff.mp taken
      exact untouched rfl there
  | claim | reclaim =>
      obtain ⟨_, -, ⟨⟩⟩ := Option.map_eq_some_iff.mp taken
      exact modify_effect .claim there fun _ => .kept rfl rfl rfl le_rfl rfl
  | lock | lockLeave =>
      simp only [next] at taken
      split at taken
      · contradiction
      · cases taken
        exact untouched rfl there
  | waitFull =>
      obtain ⟨_, -, taken⟩ := Option.bind_eq_some_iff.mp taken
      split at taken
      · cases taken
        exact untouched rfl there
      · contradiction
  | compact | copySnapshot | clear =>
      obtain ⟨_, -, taken⟩ := Option.bind_eq_some_iff.mp taken
      obtain ⟨_, -, ⟨⟩⟩ := Option.map_eq_some_iff.mp taken
      exact untouched rfl there
  | publish =>
      cases taken
      exact ⟨arr, by rw [List.getElem?_append_left (List.getElem?_eq_some_iff.mp there).1, there], .refl ..⟩
  | retire =>
      cases taken
      exact retire_effect there _
  | leave =>
      cases taken
      exact leave_effect there _
  | unlock | unlockRead | unlockNone | unlockLeave =>
      cases taken
      exact untouched rfl there
  | drawStamp =>
      obtain ⟨_, -, taken⟩ := Option.map_eq_some_iff.mp taken
      split at taken
      all_goals
        cases taken
        exact untouched rfl there
  | storeStamp q i x =>
      obtain ⟨old, at_q, taken⟩ := Option.bind_eq_some_iff.mp taken
      split at taken
      · contradiction
      · obtain ⟨new, stored, ⟨⟩⟩ := Option.map_eq_some_iff.mp taken
        refine modify_effect _ there fun here => ?_
        subst here
        obtain rfl : old = arr := Option.some.inj (at_q.symm.trans there)
        have stored := toOption_eq_some.mp stored
        unfold WeightedEdgeArray.storeStamp at stored
        split at stored
        · contradiction
        · rename_i ts present
          split at stored
          · cases stored
            exact .stamped i x ts rfl present rfl
          · contradiction
  | bumpDeg =>
      cases taken
      exact modify_effect _ there fun _ => .kept rfl rfl rfl le_rfl rfl
  | writeSlot q i =>
      obtain ⟨old, at_q, taken⟩ := Option.bind_eq_some_iff.mp taken
      obtain ⟨new, stored, ⟨⟩⟩ := Option.map_eq_some_iff.mp taken
      refine modify_effect _ there fun here => ?_
      subst here
      obtain rfl : old = arr := Option.some.inj (at_q.symm.trans there)
      have stored := toOption_eq_some.mp stored
      unfold WeightedEdgeArray.store at stored
      split at stored
      · contradiction
      · rename_i edges present
        split at stored
        · cases stored
          exact .stored i edges rfl present rfl
        · contradiction
  | bumpPhysical =>
      cases taken
      exact modify_effect _ there fun _ => .kept rfl rfl rfl (Nat.le_succ _) rfl
  | enter =>
      simp only [next] at taken
      split at taken
      · cases taken
        exact untouched rfl there
      · contradiction
  | select =>
      simp only [next] at taken
      split at taken
      · cases taken
        exact untouched rfl there
      · cases taken
        exact modify_effect .acquire there fun here => .acquired (by rw [here]) rfl
  | cut =>
      obtain ⟨_, -, taken⟩ := Option.bind_eq_some_iff.mp taken
      obtain ⟨stamp, -, taken⟩ := Option.bind_eq_some_iff.mp taken
      split at taken
      · cases taken
        exact untouched rfl there
      · split at taken
        · obtain ⟨_, -, ⟨⟩⟩ := Option.map_eq_some_iff.mp taken
          exact untouched rfl there
        · cases taken
          exact untouched rfl there
  | scan q cnt i =>
      cases i with
      | zero =>
          cases taken
          exact untouched rfl there
      | succ i =>
          obtain ⟨_, -, taken⟩ := Option.bind_eq_some_iff.mp taken
          obtain ⟨_, -, ⟨⟩⟩ := Option.map_eq_some_iff.mp taken
          exact untouched rfl there
  | inserted | returned => contradiction

/-! ## The count of readers -/

structure Counted (pcs : Nat → Pc W) (s : Source W) : Prop where
  counts : ∀ (p : Nat) (arr : WeightedEdgeArray W), s.memory[p]? = some arr → ∃ readers : List Nat,
    readers.Nodup ∧ (∀ r, (pcs r).reads = some p → r ∈ readers) ∧ readers.length ≤ arr.threadsRead
  inside : ∀ r p, (pcs r).reads = some p → ∃ arr, s.memory[p]? = some arr

omit [DecidableEq W] in
theorem Counted.read (counted : Counted pcs s) (reads : (pcs r).reads = some p)
    (there : s.memory[p]? = some arr) : 0 < arr.threadsRead := by
  obtain ⟨readers, -, all, few⟩ := counted.counts p arr there
  exact (List.length_pos_of_mem (all r reads)).trans_le few

omit [DecidableEq W] in
theorem Counted.read_twice (counted : Counted pcs s) (reads : (pcs r).reads = some p)
    (also : (pcs t).reads = some p) (other : r ≠ t) (there : s.memory[p]? = some arr) :
    1 < arr.threadsRead := by
  obtain ⟨readers, nodup, all, few⟩ := counted.counts p arr there
  have both : [r, t].Subperm readers := by
    apply List.subperm_of_subset (by simpa using other)
    intro u member
    rcases List.mem_cons.mp member with rfl | member
    · exact all u reads
    · rw [List.mem_singleton.mp member]
      exact all t also
  exact both.length_le.trans few

omit [DecidableEq W] in
theorem Counted.undeleted (counted : Counted pcs s) (reads : (pcs r).reads = some p)
    (staying : r = t → ∀ n, pcs t ≠ .leave p n) : deletes s (pcs t) ≠ some p := by
  obtain ⟨arr, there⟩ := counted.inside r p reads
  intro deleted
  cases here : pcs t <;> rw [here] at deleted
  case retire q =>
    have positive := counted.read reads there
    simp only [deletes, Source.doomed] at deleted
    split at deleted
    · have unread := (Option.filter_eq_some_iff.mp deleted).2
      rw [Source.unread, there, Option.any_some, decide_eq_true_eq] at unread
      omega
    · contradiction
  case leave q n =>
    simp only [deletes] at deleted
    split at deleted
    · rename_i abandoned
      cases deleted
      have other : r ≠ t := fun same => staying same n here
      have several := counted.read_twice reads (t := t) (by rw [here]; rfl) other there
      rw [Source.abandoned, Bool.and_eq_true, there, Option.any_some, decide_eq_true_eq] at abandoned
      omega
    · contradiction
  all_goals cases deleted

omit [DecidableEq W] in
theorem Counted.keep (counted : Counted pcs s) (there : s.memory[p]? = some arr)
    (old : ∀ r, (Function.update pcs t pc' r).reads = some p → (pcs r).reads = some p)
    (same : arr.threadsRead ≤ arr'.threadsRead) : ∃ readers : List Nat, readers.Nodup ∧
      (∀ r, (Function.update pcs t pc' r).reads = some p → r ∈ readers) ∧
      readers.length ≤ arr'.threadsRead := by
  obtain ⟨readers, nodup, all, few⟩ := counted.counts p arr there
  exact ⟨readers, nodup, fun r reads => all r (old r reads), few.trans same⟩

omit [DecidableEq W] in
theorem uncounted (nobody : ∀ r, (Function.update pcs t pc' r).reads ≠ some p) (n : Nat) :
    ∃ readers : List Nat, readers.Nodup ∧
      (∀ r, (Function.update pcs t pc' r).reads = some p → r ∈ readers) ∧ readers.length ≤ n :=
  ⟨[], List.nodup_nil, fun r reads => absurd reads (nobody r), Nat.zero_le n⟩

theorem Counted.counts_step (counted : Counted pcs s)
    (taken : next setting t (calls t) s (pcs t) = some (s', pc')) (there : s.memory[p]? = some arr)
    (there' : s'.memory[p]? = some arr') (effect : Effect (calls t) s (pcs t) pc' p arr arr') :
    ∃ readers : List Nat, readers.Nodup ∧
      (∀ r, (Function.update pcs t pc' r).reads = some p → r ∈ readers) ∧
      readers.length ≤ arr'.threadsRead := by
  have others (old : pc'.reads = some p → (pcs t).reads = some p) (r : Nat)
      (reads : (Function.update pcs t pc' r).reads = some p) : (pcs r).reads = some p := by
    by_cases here : r = t
    · subst here
      rw [Function.update_self] at reads
      exact old reads
    · rwa [Function.update_of_ne here] at reads
  have registers := next_registers taken
  generalize here : pcs t = pc at taken registers effect others
  cases registers with
  | enters q found =>
      simp only [next, found] at taken
      cases taken
      by_cases same : p = q
      · subst same
        obtain rfl : arr.acquire = arr' := Option.some.inj ((modify_at there).symm.trans there')
        obtain ⟨readers, nodup, all, few⟩ := counted.counts p arr there
        refine ⟨readers.insert t, nodup.insert, fun r reads => ?_, ?_⟩
        · by_cases here : r = t
          · subst here
            exact List.mem_insert_self
          · rw [Function.update_of_ne here] at reads
            exact List.mem_insert_of_mem (all r reads)
        · by_cases known : t ∈ readers
          · rw [List.length_insert_of_mem known]
            exact few.trans (Nat.le_succ _)
          · rw [List.length_insert_of_not_mem known]
            exact Nat.succ_le_succ few
      · obtain rfl : arr = arr' :=
          Option.some.inj (there.symm.trans ((modify_other (Ne.symm same) _).symm.trans there'))
        refine counted.keep there (others fun reads => ?_) le_rfl
        cases reads
        exact absurd rfl same
  | leaves q n =>
      have old := others fun reads => by cases reads
      cases effect with
      | kept _ _ _ _ same => exact counted.keep there old same.ge
      | released _ leaving result =>
          cases leaving
          subst result
          obtain ⟨readers, nodup, all, few⟩ := counted.counts p arr there
          have known : t ∈ readers := all t (by rw [here]; rfl)
          refine ⟨readers.erase t, nodup.erase t, fun r reads => ?_, ?_⟩
          · have other : r ≠ t := by
              rintro rfl
              rw [Function.update_self] at reads
              cases reads
            exact (List.mem_erase_of_ne other).mpr (all r (old r reads))
          · rw [List.length_erase_of_mem known]
            exact Nat.sub_le_sub_right few 1
      | deleted gone =>
          refine uncounted (fun r reads => ?_) _
          have other : r ≠ t := by
            rintro rfl
            rw [Function.update_self] at reads
            cases reads
          exact counted.undeleted (old r reads) (fun same => absurd same other) (here ▸ gone)
      | stored _ _ other | stamped _ _ _ other | freed other => cases other
      | acquired other => cases other
  | stays same other =>
      have old := others (same ▸ id)
      cases effect with
      | kept _ _ _ _ same => exact counted.keep there old same.ge
      | stored _ _ _ _ result | stamped _ _ _ _ _ result =>
          subst result
          exact counted.keep there old le_rfl
      | acquired _ result =>
          subst result
          exact counted.keep there old (Nat.le_succ _)
      | released n leaving => exact absurd leaving (other p n)
      | freed _ unread =>
          refine uncounted (fun r reads => ?_) _
          have positive := counted.read (old r reads) there
          omega
      | deleted gone =>
          exact uncounted (fun r reads =>
            counted.undeleted (old r reads) (fun _ => here ▸ other p) (here ▸ gone)) _

theorem Counted.step (counted : Counted pcs s)
    (taken : next setting t (calls t) s (pcs t) = some (s', pc')) :
    Counted (Function.update pcs t pc') s' := by
  have registers := next_registers taken
  have before (r p : Nat) (reads : (Function.update pcs t pc' r).reads = some p) :
      ∃ arr, s.memory[p]? = some arr := by
    by_cases here : r = t
    · subst here
      rw [Function.update_self] at reads
      generalize at_r : pcs r = pc at registers
      cases registers with
      | enters q found =>
          cases reads
          have present := List.find?_some found
          obtain ⟨arr, there, -⟩ := (Option.any_eq_true _ _).mp present
          exact ⟨arr, there⟩
      | leaves => cases reads
      | stays same _ => exact counted.inside r p (at_r ▸ same.symm.trans reads)
    · rw [Function.update_of_ne here] at reads
      exact counted.inside r p reads
  refine ⟨fun p arr' there' => ?_, fun r p reads => ?_⟩
  · cases there : s.memory[p]? with
    | none =>
        refine uncounted (fun r reads => ?_) _
        obtain ⟨arr, present⟩ := before r p reads
        rw [there] at present
        cases present
    | some arr =>
        obtain ⟨arr₁, there₁, effect⟩ := next_effect taken there
        obtain rfl : arr₁ = arr' := Option.some.inj (there₁.symm.trans there')
        exact counted.counts_step taken there there' effect
  · obtain ⟨arr, there⟩ := before r p reads
    obtain ⟨arr', there', -⟩ := next_effect taken there
    exact ⟨arr', there'⟩

end OneVertex

end Radix
