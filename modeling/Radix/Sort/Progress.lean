import Mathlib.Tactic.Common
import Radix.Sort.Linear

/-!
# No call waits for ever

A call has one lock at most, and who has a lock can go on. The steps of a call are bounded by the depth of the
tree.
-/

namespace Radix

open Lib

namespace Concurrent

variable {W : Type} [Zero W] {fanout : SORT W} {info : GlobalInfo} {insertMode : Bool} {ws : List Nat}
  {o o' : Origins} {s s' : Tree W} {id : NodeID} {pc pc' : Pc} {calls : Requests} {c c' : State W}

/-! ## The steps that are left -/

def readsLeft (depth : Nat) (insertMode : Bool) (i : Nat) : Nat :=
  if insertMode then 6 * (depth - 1 - i) + 11 else 2 * (depth - 1 - i) + 1

theorem readsLeft_pos (depth : Nat) (insertMode : Bool) (i : Nat) : 0 < readsLeft depth insertMode i := by
  rw [readsLeft]
  split <;> omega

theorem readsLeft_descend {depth i : Nat} (inner : i < depth - 1) (insertMode : Bool) :
    readsLeft depth insertMode (i + 1) + 1 < readsLeft depth insertMode i := by
  rw [readsLeft, readsLeft]
  split <;> omega

def Pc.left (depth : Nat) (insertMode : Bool) : Pc → Nat
  | .checkRoot => readsLeft depth insertMode 0 + 6
  | .lockRoot => readsLeft depth insertMode 0 + 5
  | .recheckRoot => readsLeft depth insertMode 0 + 4
  | .storeRoot => readsLeft depth insertMode 0 + 3
  | .unlockRoot => readsLeft depth insertMode 0 + 2
  | .loadRoot => readsLeft depth insertMode 0 + 1
  | .readChild _ i => readsLeft depth insertMode i
  | .descend _ i => readsLeft depth insertMode (i + 1) + 1
  | .readSlot _ i => 6 * (depth - 1 - i) + 10
  | .lockSlot _ i => 6 * (depth - 1 - (i + 1)) + 15
  | .recheckSlot _ i => 6 * (depth - 1 - (i + 1)) + 14
  | .storeNode _ i => 6 * (depth - 1 - (i + 1)) + 13
  | .unlockSlot _ i => 6 * (depth - 1 - (i + 1)) + 12
  | .insertDescend _ i => 6 * (depth - 1 - (i + 1)) + 11
  | .lockLeaf _ _ => 9
  | .recheckLeaf _ _ => 8
  | .drawIdx _ _ => 7
  | .growTable _ _ _ => 6
  | .storeIdx _ _ _ _ => 5
  | .storeNext _ _ _ => 4
  | .publish _ _ _ => 3
  | .storeId _ _ _ _ => 2
  | .unlockLeaf _ _ _ => 1
  | .returned _ => 0

theorem left_of_next (taken : next fanout info id insertMode s pc = some (s', pc')) :
    pc'.left fanout.depth insertMode < pc.left fanout.depth insertMode := by
  cases pc with
  | checkRoot | recheckRoot =>
      obtain ⟨rfl, rfl⟩ := by simpa [next] using taken
      split <;> simp [Pc.left]
  | lockRoot =>
      obtain ⟨-, -, rfl⟩ := by simpa [next] using taken
      exact Nat.lt_succ_self _
  | storeRoot | unlockRoot =>
      obtain ⟨-, rfl⟩ := by simpa [next] using taken
      exact Nat.lt_succ_self _
  | loadRoot =>
      simp only [next] at taken
      split at taken
      · cases taken
        exact Nat.succ_pos _
      · obtain ⟨r, -, ⟨⟩⟩ := Option.map_eq_some_iff.mp taken
        exact Nat.lt_succ_self _
  | readChild a i =>
      simp only [next] at taken
      split at taken
      · cases taken
        split
        · rename_i inserts
          simp [Pc.left, readsLeft, inserts]
        · exact readsLeft_pos fanout.depth insertMode i
      · cases taken
        split
        · rename_i inner
          exact readsLeft_descend inner insertMode
        · exact readsLeft_pos fanout.depth insertMode i
  | descend a i | insertDescend a i =>
      obtain ⟨ptr, -, ⟨⟩⟩ := Option.map_eq_some_iff.mp taken
      exact Nat.lt_succ_self _
  | readSlot a i =>
      simp only [next] at taken
      split at taken
      all_goals
        cases taken
        split <;> simp only [Pc.left] <;> omega
  | lockSlot a i | lockLeaf a i =>
      simp only [next] at taken
      split at taken
      · contradiction
      · cases taken
        exact Nat.lt_succ_self _
  | recheckSlot a i =>
      obtain ⟨rfl, rfl⟩ := by simpa [next] using taken
      split <;> simp [Pc.left]
  | recheckLeaf a i =>
      simp only [next] at taken
      split at taken
      all_goals
        cases taken
        simp [Pc.left]
  | returned v => contradiction
  | storeNode | unlockSlot | drawIdx | growTable | storeIdx | storeNext | publish | storeId | unlockLeaf =>
      obtain ⟨-, rfl⟩ := by simpa [next] using taken
      exact Nat.lt_succ_self _

/-! ## Who can go on -/

def Pc.sees (fanout : SORT W) (id : NodeID) : Pc → Option Place
  | .unlockRoot | .loadRoot => some .root
  | .descend a i | .unlockSlot a i | .insertDescend a i => some (.slot a (fanout.digit id i))
  | _ => none

def Pc.awaits (fanout : SORT W) (id : NodeID) : Pc → Option Place
  | .lockRoot => some .root
  | .lockSlot a i | .lockLeaf a i => some (.slot a (fanout.digit id i))
  | _ => none

theorem sees_of_next (allocated : ∀ a, pc.node = some a → a < s.nodes.length)
    (seen : ∀ k, pc.sees fanout id = some k → s.content k ≠ none)
    (taken : next fanout info id insertMode s pc = some (s', pc')) (k : Place)
    (sees : pc'.sees fanout id = some k) : s'.content k ≠ none := by
  cases pc with
  | checkRoot | recheckRoot =>
      obtain ⟨rfl, rfl⟩ := by simpa [next] using taken
      split at sees
      · cases sees
      · rename_i there
        cases sees
        simpa [Tree.content] using there
  | storeRoot =>
      obtain ⟨rfl, rfl⟩ := Prod.mk.inj (Option.some.inj taken)
      cases sees
      exact Option.some_ne_none _
  | unlockRoot =>
      obtain ⟨rfl, rfl⟩ := by simpa [next] using taken
      cases sees
      exact seen .root rfl
  | readChild a i | readSlot a i =>
      simp only [next] at taken
      split at taken
      · cases taken
        split at sees <;> cases sees
      · rename_i ptr there
        cases taken
        split at sees
        · cases sees
          exact ne_of_eq_of_ne there (Option.some_ne_none ptr)
        · cases sees
  | recheckSlot a i =>
      obtain ⟨rfl, rfl⟩ := by simpa [next] using taken
      split at sees
      · cases sees
      · rename_i there
        cases sees
        simpa [Tree.content] using there
  | storeNode a i =>
      obtain ⟨rfl, rfl⟩ := by simpa [next] using taken
      have allocated' : a < s.newNode.nodes.length := by
        rw [Tree.newNode_nodes, List.length_append]
        exact Nat.lt_add_right _ (allocated a rfl)
      cases sees
      rw [s.newNode.setChild_content _ _ allocated', Function.update_self]
      exact Option.some_ne_none _
  | unlockSlot a i =>
      obtain ⟨rfl, rfl⟩ := by simpa [next] using taken
      cases sees
      rw [Tree.setLock_content]
      exact seen _ rfl
  | loadRoot =>
      simp only [next] at taken
      split at taken
      · cases taken
        cases sees
      · obtain ⟨r, -, ⟨⟩⟩ := Option.map_eq_some_iff.mp taken
        cases sees
  | descend a i | insertDescend a i =>
      obtain ⟨ptr, -, ⟨⟩⟩ := Option.map_eq_some_iff.mp taken
      cases sees
  | lockRoot | lockSlot | lockLeaf =>
      simp only [next] at taken
      split at taken
      · contradiction
      · cases taken
        cases sees
  | recheckLeaf a i =>
      simp only [next] at taken
      split at taken
      all_goals
        cases taken
        cases sees
  | returned v => contradiction
  | drawIdx | growTable | storeIdx | storeNext | publish | storeId | unlockLeaf =>
      obtain ⟨rfl, rfl⟩ := by simpa [next] using taken
      cases sees

theorem next_of_holds {k : Place} (held : pc.holds fanout id = some k) :
    next fanout info id insertMode s pc ≠ none := by
  cases pc with
  | recheckLeaf a i =>
      simp only [next]
      split <;> exact Option.some_ne_none _
  | recheckRoot | storeRoot | unlockRoot | recheckSlot | storeNode | unlockSlot | drawIdx | growTable | storeIdx
  | storeNext | publish | storeId | unlockLeaf => exact Option.some_ne_none _
  | _ => cases held

theorem awaits_of_stuck (seen : ∀ k, pc.sees fanout id = some k → s.content k ≠ none)
    (stuck : next fanout info id insertMode s pc = none) :
    (∃ v, pc = .returned v) ∨ ∃ k, pc.awaits fanout id = some k ∧ s.bit k = true := by
  cases pc with
  | returned v => exact .inl ⟨v, rfl⟩
  | lockRoot | lockSlot a i | lockLeaf a i =>
      right
      simp only [next] at stuck
      split at stuck
      · rename_i set
        exact ⟨_, rfl, set⟩
      · cases stuck
  | loadRoot =>
      simp only [next] at stuck
      split at stuck
      · cases stuck
      · exact absurd (Option.map_eq_none_iff.mp stuck) (seen .root rfl)
  | descend a i | insertDescend a i => exact absurd (Option.map_eq_none_iff.mp stuck) (seen _ rfl)
  | readChild a i | readSlot a i | recheckLeaf a i =>
      simp only [next] at stuck
      split at stuck <;> cases stuck
  | _ => cases stuck

/-! ## All calls together -/

structure Unblocked (fanout : SORT W) (calls : Requests) (c : State W) : Prop where
  owned : ∀ k, c.shared.bit k = true → ∃ u, (c.local' u).holds fanout (calls.id u) = some k
  seen : ∀ t k, (c.local' t).sees fanout (calls.id t) = some k → c.shared.content k ≠ none

theorem initial_unblocked : Unblocked fanout calls (initial : State W) where
  owned k set := by
    cases k with
    | root => cases set
    | slot a j => cases set
  seen _ _ sees := by cases sees

theorem Unblocked.step {t : Nat} (unblocked : Unblocked fanout calls c) (mixed : Mixed fanout ws calls o c)
    (grown : Grows o c.shared o' s')
    (taken : next fanout info (calls.id t) (calls.insertMode t) c.shared (c.local' t) = some (s', pc')) :
    Unblocked fanout calls ⟨s', Function.update c.local' t pc'⟩ := by
  have allocated := (mixed.moves taken).node_allocated
  constructor
  · intro k set
    obtain ⟨u, held⟩ := Touches.owned (t := t) unblocked.owned (touches_of_next allocated taken) k set
    refine ⟨u, ?_⟩
    rw [← held]
    exact Function.apply_update (fun u pc => Pc.holds fanout (calls.id u) pc) c.local' t pc' u
  · intro u k sees
    change (Function.update c.local' t pc' u).sees fanout (calls.id u) = some k at sees
    by_cases own : u = t
    · subst own
      rw [Function.update_self] at sees
      exact sees_of_next allocated (unblocked.seen u) taken k sees
    · rw [Function.update_of_ne own] at sees
      obtain ⟨v, there⟩ := Option.ne_none_iff_exists'.mp (unblocked.seen u k sees)
      exact ne_of_eq_of_ne (grown.content k v there) (Option.some_ne_none v)

theorem Unblocked.goes_on (unblocked : Unblocked fanout calls c) {t : Nat}
    (unfinished : ∀ v, c.local' t ≠ .returned v) :
    ∃ u, Threads.step (nextOf fanout info calls) c u ≠ none ∧
      (u = t ∨ ∃ k, (c.local' u).holds fanout (calls.id u) = some k ∧
        (c.local' t).awaits fanout (calls.id t) = some k) := by
  have stepping {u : Nat} (moves : nextOf fanout info calls u c.shared (c.local' u) ≠ none) :
      Threads.step (nextOf fanout info calls) c u ≠ none := by
    rw [Threads.step]
    exact fun none => moves (Option.map_eq_none_iff.mp none)
  by_cases moves : nextOf fanout info calls t c.shared (c.local' t) = none
  · obtain ⟨v, ended⟩ | ⟨k, awaits, set⟩ := awaits_of_stuck (unblocked.seen t) moves
    · exact absurd ended (unfinished v)
    · obtain ⟨u, held⟩ := unblocked.owned k set
      exact ⟨u, stepping (next_of_holds held), .inr ⟨k, held, awaits⟩⟩
  · exact ⟨t, stepping moves, .inl rfl⟩

theorem unblocked_run (shaped : fanout.Shaped ws) (levels : ws ≠ []) (inRange : ∀ t, calls.id t < 2 ^ ws.sum)
    {schedule : List Nat} (ran : Threads.run (nextOf fanout info calls) initial schedule = some c) :
    Unblocked fanout calls c := by
  suffices both : (∃ o, Mixed fanout ws calls o c) ∧ Unblocked fanout calls c from both.2
  have free : Threads.Meets (nextOf fanout info calls) (fun _ _ => True) initial schedule := .of_forall fun _ _ => trivial
  have keeps (c : State W) (t : Nat) (c' : State W) (both : (∃ o, Mixed fanout ws calls o c) ∧ Unblocked fanout calls c)
      (_ : True) (taken : Threads.step (nextOf fanout info calls) c t = some c') :
      (∃ o, Mixed fanout ws calls o c') ∧ Unblocked fanout calls c' := by
    obtain ⟨⟨o, mixed⟩, unblocked⟩ := both
    obtain ⟨s', pc', moved, rfl⟩ := Threads.step_eq_some.mp taken
    obtain ⟨o', grown, mixed', -⟩ := mixed.step shaped levels inRange moved
    exact ⟨⟨o', mixed'⟩, unblocked.step mixed grown moved⟩
  exact Threads.run_invariant keeps free ran ⟨⟨_, initial_mixed⟩, initial_unblocked⟩

/-- No run of calls goes on for ever, and a run that cannot go on has returned all answers. -/
theorem retrievals_finish {fanout : SORT W} {ws : List Nat} (fresh : SORT.Constructed fanout ws)
    (info : GlobalInfo) (calls : Requests) (inRange : ∀ t, calls.id t < 2 ^ ws.sum) {schedule : List Nat} {c : State W}
    (ran : Threads.run (nextOf fanout info calls) initial schedule = some c) :
    (∀ t, schedule.count t ≤ if calls.insertMode t then 6 * fanout.depth + 11 else 2 * fanout.depth + 5) ∧
    (∀ t, (∀ v, c.local' t ≠ .returned v) → ∃ u, Threads.step (nextOf fanout info calls) c u ≠ none ∧
      (u = t ∨ ∃ k, (c.local' u).holds fanout (calls.id u) = some k ∧
        (c.local' t).awaits fanout (calls.id t) = some k)) ∧
    ((∀ t ∈ schedule, Threads.step (nextOf fanout info calls) c t = none) →
      ∀ t ∈ schedule, ∃ v, c.local' t = .returned v) := by
  have levels : ws ≠ [] := fresh.fanout.2
  have shaped := fresh.dictionary.shaped
  have unblocked := unblocked_run shaped levels inRange ran
  refine ⟨fun t => ?_, fun t unfinished => unblocked.goes_on unfinished, fun stuck => ?_⟩
  · have descends (t : Nat) (s : Tree W) (pc : Pc) (s' : Tree W) (pc' : Pc)
        (taken : nextOf fanout info calls t s pc = some (s', pc')) :
        Pc.left fanout.depth (calls.insertMode t) pc' < Pc.left fanout.depth (calls.insertMode t) pc := left_of_next taken
    have bound := Threads.run_count descends ran t
    have deep : 0 < fanout.depth := by
      rw [shaped.depth]
      exact List.length_pos_of_ne_nil levels
    have whole : Pc.left fanout.depth (calls.insertMode t) .checkRoot =
        if calls.insertMode t then 6 * fanout.depth + 11 else 2 * fanout.depth + 5 := by
      rw [Pc.left, readsLeft]
      split <;> omega
    rw [← whole]
    exact (Nat.le_add_right _ _).trans bound
  · refine Threads.run_ends ran (fun t unfinished => ?_) stuck
    obtain ⟨u, moves, who⟩ := unblocked.goes_on (not_exists.mp unfinished)
    refine ⟨u, moves, who.imp_right fun waiting same => ?_⟩
    obtain ⟨k, held, -⟩ := waiting
    rw [same] at held
    cases held

/-- Call 1 waits for the lock that call 0 has. -/
theorem retrievals_finish_waiting : ∃ c : State Nat,
    Threads.run (nextOf (SORT.ofVector [1]) ⟨0, true⟩ (inserting fun _ => 1)) initial
        (List.replicate 9 0 ++ List.replicate 4 1) = some c ∧
      Threads.step (nextOf (SORT.ofVector [1]) ⟨0, true⟩ (inserting fun _ => 1)) c 1 = none ∧
      ∃ u, Threads.step (nextOf (SORT.ofVector [1]) ⟨0, true⟩ (inserting fun _ => 1)) c u ≠ none ∧
        ∃ k, (c.local' u).holds (SORT.ofVector [1] : SORT Nat) 1 = some k := by
  have fresh : SORT.Constructed (SORT.ofVector [1] : SORT Nat) [1] := .vector (by decide)
  have inRange (t : Nat) : (1 : NodeID) < 2 ^ [1].sum := by decide
  have ends : (Threads.run (nextOf (SORT.ofVector [1]) ⟨0, true⟩ (inserting fun _ => 1)) (initial : State Nat)
      (List.replicate 9 0 ++ List.replicate 4 1)).map
      (fun c => (c.local' 1, (Threads.step (nextOf (SORT.ofVector [1]) ⟨0, true⟩ (inserting fun _ => 1)) c 1).isNone)) =
      some (.lockLeaf 0 0, true) := by decide
  obtain ⟨c, ran, waiting⟩ := Option.map_eq_some_iff.mp ends
  simp only [Prod.mk.injEq, Option.isNone_iff_eq_none] at waiting
  obtain ⟨-, goesOn, -⟩ := retrievals_finish fresh ⟨0, true⟩ (inserting fun _ => 1) inRange ran
  obtain ⟨u, moves, rfl | ⟨k, held, -⟩⟩ := goesOn 1 (by simp [waiting.1])
  · exact absurd waiting.2 moves
  · exact ⟨c, ran, waiting.2, u, moves, k, held⟩

end Concurrent

end Radix
