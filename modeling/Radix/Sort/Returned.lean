import Radix.Lib.Tickets
import Radix.Sort.Published

/-!
# The records that calls return

The indices drawn from `cnt` are tickets, and `grow_by` serves them. A call may hold a record that
is published but not named, and then it is about to write the id.
-/

namespace Radix

open Lib

namespace Concurrent

variable {W : Type} [Zero W] {fanout : SORT W} {info : GlobalInfo} {insertMode : Bool}
  {ws : List Nat} {o : Origins} {s s' : Tree W} {id : NodeID} {pc pc' : Pc} {calls : Requests}
  {c c' : State W}

namespace Pc

def drawn : Pc → Option Nat
  | .growTable _ _ idx => some idx
  | _ => none

end Pc

theorem drawn_cases (taken : next fanout info id insertMode s pc = some (s', pc')) :
    (pc.drawn = none ∧ pc'.drawn = none ∧ s'.vertexTable.length = s.vertexTable.length ∧
      s'.cnt = s.cnt) ∨
    (pc.drawn = none ∧ pc'.drawn = some s.cnt ∧ s'.vertexTable.length = s.vertexTable.length ∧
      s'.cnt = s.cnt + 1) ∨
    (∃ idx, pc.drawn = some idx ∧ pc'.drawn = none ∧
      s'.vertexTable.length = s.vertexTable.length + 1 ∧ s'.cnt = s.cnt) := by
  cases pc with
  | drawIdx a i =>
      obtain ⟨rfl, rfl⟩ := by simpa [next] using taken
      exact .inr (.inl ⟨rfl, rfl, rfl, rfl⟩)
  | growTable a i idx =>
      obtain ⟨rfl, rfl⟩ := by simpa [next] using taken
      exact .inr (.inr ⟨idx, rfl, rfl, List.length_append, rfl⟩)
  | returned v => contradiction
  | descend a i | insertDescend a i =>
      obtain ⟨ptr, there, ⟨⟩⟩ := Option.map_eq_some_iff.mp taken
      exact .inl ⟨rfl, rfl, rfl, rfl⟩
  | loadRoot =>
      simp only [next] at taken
      split at taken
      · cases taken
        exact .inl ⟨rfl, rfl, rfl, rfl⟩
      · obtain ⟨r, there, ⟨⟩⟩ := Option.map_eq_some_iff.mp taken
        exact .inl ⟨rfl, rfl, rfl, rfl⟩
  | lockRoot | lockSlot a i | lockLeaf a i =>
      simp only [next] at taken
      split at taken
      · contradiction
      · cases taken
        exact .inl ⟨rfl, rfl, rfl, rfl⟩
  | readChild a i | readSlot a i =>
      simp only [next] at taken
      split at taken
      all_goals
        cases taken
        refine .inl ⟨rfl, ?_, rfl, rfl⟩
        split <;> rfl
  | checkRoot | recheckRoot | recheckSlot a i =>
      obtain ⟨rfl, rfl⟩ := by simpa [next] using taken
      refine .inl ⟨rfl, ?_, rfl, rfl⟩
      split <;> rfl
  | recheckLeaf a i =>
      simp only [next] at taken
      split at taken
      all_goals
        cases taken
        exact .inl ⟨rfl, rfl, rfl, rfl⟩
  | storeIdx | storeNext | storeId =>
      obtain ⟨rfl, rfl⟩ := by simpa [next] using taken
      exact .inl ⟨rfl, rfl, Tree.setVertex_length .., rfl⟩
  | storeRoot | unlockRoot | storeNode | unlockSlot | publish | unlockLeaf =>
      obtain ⟨rfl, rfl⟩ := by simpa [next] using taken
      exact .inl ⟨rfl, rfl, rfl, rfl⟩

theorem child_cases (taken : next fanout info id insertMode s pc = some (s', pc')) {a j b : Nat}
    (there : s'.child a j = some b) : s.child a j = some b ∨
      (∃ i, pc = .storeNode a i ∧ j = fanout.digit id i) ∨
      ∃ i, pc = .publish a i b ∧ j = fanout.digit id i ∧ pc' = .storeId a i b true := by
  cases pc with
  | storeNode a' i =>
      obtain ⟨rfl, rfl⟩ := by simpa [next] using taken
      rw [Tree.setChild_child, Tree.newNode_child] at there
      split at there
      case isTrue here => exact .inr (.inl ⟨i, by rw [here.1], here.2.1⟩)
      case isFalse => exact .inl there
  | publish a' i v =>
      obtain ⟨rfl, rfl⟩ := by simpa [next] using taken
      rw [Tree.setChild_child] at there
      split at there
      case isTrue here =>
        obtain ⟨rfl, rfl, -⟩ := here
        cases there
        exact .inr (.inr ⟨i, rfl, rfl, rfl⟩)
      case isFalse => exact .inl there
  | returned v => contradiction
  | descend | insertDescend =>
      obtain ⟨ptr, -, ⟨⟩⟩ := Option.map_eq_some_iff.mp taken
      exact .inl there
  | loadRoot =>
      simp only [next] at taken
      split at taken
      · cases taken
        exact .inl there
      · obtain ⟨r, -, ⟨⟩⟩ := Option.map_eq_some_iff.mp taken
        exact .inl there
  | lockRoot =>
      obtain ⟨-, rfl, rfl⟩ := by simpa [next] using taken
      exact .inl there
  | lockSlot | lockLeaf =>
      simp only [next] at taken
      split at taken
      · contradiction
      · cases taken
        rw [Tree.setLock_child] at there
        exact .inl there
  | unlockSlot | unlockLeaf =>
      obtain ⟨rfl, rfl⟩ := by simpa [next] using taken
      rw [Tree.setLock_child] at there
      exact .inl there
  | readChild | readSlot | recheckLeaf =>
      simp only [next] at taken
      split at taken
      all_goals
        cases taken
        exact .inl there
  | storeRoot =>
      obtain ⟨rfl, rfl⟩ := by simpa [next] using taken
      exact .inl (s.newNode_child a j ▸ there)
  | checkRoot | recheckRoot | unlockRoot | recheckSlot | drawIdx | growTable | storeIdx | storeNext
  | storeId =>
      obtain ⟨rfl, rfl⟩ := by simpa [next] using taken
      exact .inl there

/-! ## Runs -/

/-- The call grows the table only if no other call holds a lower index, and reads no leaf slot while
the call that filled it has still to write the id. -/
structure InTurn (fanout : SORT W) (calls : Requests) (c : State W) (t : Nat) : Prop where
  grows : ∀ idx, (c.local' t).drawn = some idx → ∀ u, u ≠ t →
    ∀ k, (c.local' u).drawn = some k → idx < k
  reads : ∀ a i, c.local' t = .readChild a i ∨ c.local' t = .readSlot a i →
    ∀ u k v, c.local' u = .storeId a k v true →
      fanout.digit (calls.id u) k ≠ fanout.digit (calls.id t) i

def Naming (fanout : SORT W) (ws : List Nat) (calls : Requests) (o : Origins) (c : State W) : Prop :=
  ∀ a j v, c.shared.child a j = some v → (o.path a).length + 1 = ws.length →
    Named c.shared (o.owner v) v ∨
      ∃ u i, c.local' u = .storeId a i v true ∧ fanout.digit (calls.id u) i = j

structure Sound (fanout : SORT W) (ws : List Nat) (calls : Requests) (c : State W) : Prop where
  tickets : Outstanding (Pc.drawn ∘ c.local') c.shared.vertexTable.length c.shared.cnt
  origins : ∃ o, Linked ws o c.shared ∧ Naming fanout ws calls o c ∧
    ∀ t, Knows ws o c.shared (calls.id t) (c.local' t)

theorem initial_sound : Sound fanout ws calls (initial : State W) where
  tickets := .none
  origins := by
    refine ⟨⟨fun _ => [], fun _ => 0⟩, ⟨?_, ?_, ?_, ?_⟩, ?_, fun _ => trivial⟩
    · exact fun _ member => nomatch member
    · exact fun _ there => nomatch there
    · exact fun _ _ _ there => nomatch there
    · exact fun _ _ _ there => nomatch there
    · exact fun _ _ _ there => nomatch there

theorem tickets_step (tickets : Outstanding (Pc.drawn ∘ c.local') c.shared.vertexTable.length c.shared.cnt)
    {t : Nat} (inTurn : InTurn fanout calls c t)
    (taken : next fanout info id insertMode c.shared (c.local' t) = some (s', pc')) :
    Outstanding (Pc.drawn ∘ Function.update c.local' t pc') s'.vertexTable.length s'.cnt := by
  rw [Function.comp_update]
  obtain ⟨before, after, length, cnt⟩ | ⟨before, after, length, cnt⟩ | ⟨idx, before, after, length, cnt⟩ :=
    drawn_cases taken
  · have same : Function.update (Pc.drawn ∘ c.local') t none = Pc.drawn ∘ c.local' :=
      Function.update_eq_self_iff.mpr before.symm
    rwa [length, cnt, after, same]
  · rw [length, cnt, after]
    exact tickets.draw before
  · rw [length, cnt, after]
    have least := tickets.lowest before (inTurn.grows idx before)
    subst least
    exact tickets.serve before

theorem InTurn.timely {t : Nat} (inTurn : InTurn fanout calls c t)
    (tickets : Outstanding (Pc.drawn ∘ c.local') c.shared.vertexTable.length c.shared.cnt)
    (shaped : fanout.Shaped ws) (inRange : calls.id t < 2 ^ ws.sum) (linked : Linked ws o c.shared)
    (naming : Naming fanout ws calls o c) (knows : Knows ws o c.shared (calls.id t) (c.local' t)) :
    Timely fanout ws c.shared (calls.id t) (c.local' t) where
  inOrder a i idx here := by
    have drawn : (Pc.drawn ∘ c.local') t = some idx := by
      rw [Function.comp_apply, here]
      rfl
    exact tickets.lowest drawn (inTurn.grows idx drawn)
  named a i v here last there := by
    have walks : Walks ws o c.shared (calls.id t) a i := by
      cases here with
      | inl here | inr here =>
          rw [here] at knows
          exact knows
    have owner := (walks.found shaped inRange linked last there).1
    cases naming a _ v there (by rwa [walks.level]) with
    | inl named => exact owner ▸ named
    | inr held =>
        obtain ⟨u, k, at_u, slot⟩ := held
        exact absurd slot (inTurn.reads a i here u k v at_u)

theorem naming_step {t : Nat} {o' : Origins} (linked : Linked ws o c.shared)
    (naming : Naming fanout ws calls o c)
    (knows : Knows ws o c.shared (calls.id t) (c.local' t))
    (grown : Extends o c.shared o' s')
    (taken : next fanout info (calls.id t) insertMode c.shared (c.local' t) = some (s', pc'))
    (arrived : Knows ws o' s' (calls.id t) pc') :
    Naming fanout ws calls o' ⟨s', Function.update c.local' t pc'⟩ := by
  intro a j v there last
  obtain old | ⟨i, here, slot⟩ | ⟨i, here, slot, publishing⟩ := child_cases taken there
  · have allocated := Tree.child_allocated c.shared old
    rw [grown.path a allocated] at last
    have stored := (linked.leaf a j v old last).1
    have owner := grown.owner v stored.2.lt
    cases naming a j v old last with
    | inl named => exact .inl (owner ▸ grown.named v named)
    | inr held =>
        obtain ⟨u, i, at_u, slot⟩ := held
        by_cases moved : u = t
        · -- the call that held the record unnamed has just written the id
          subst moved
          rw [at_u] at taken knows
          obtain ⟨rfl, rfl⟩ := by simpa [next] using taken
          left
          rw [owner, knows.2.1]
          exact arrived.2
        · right
          refine ⟨u, i, ?_, slot⟩
          change Function.update c.local' t pc' u = _
          rw [Function.update_of_ne moved, at_u]
  · rw [here] at knows
    obtain ⟨walks, inner⟩ := knows
    rw [grown.path a walks.2.1, walks.level] at last
    omega
  · right
    refine ⟨t, i, ?_, slot.symm⟩
    change Function.update c.local' t pc' t = _
    rw [Function.update_self, publishing]

theorem sound_step (shaped : fanout.Shaped ws) (inRange : ∀ t, calls.id t < 2 ^ ws.sum) (t : Nat)
    (sound : Sound fanout ws calls c) (inTurn : InTurn fanout calls c t)
    (taken : Threads.step (nextOf fanout info calls) c t = some c') : Sound fanout ws calls c' := by
  obtain ⟨tickets, o, linked, naming, knows⟩ := sound
  obtain ⟨s', pc', moved, rfl⟩ := Threads.step_eq_some.mp taken
  have timely := inTurn.timely tickets shaped (inRange t) linked naming (knows t)
  obtain ⟨o', grown, linked', arrived⟩ := next_arrives shaped (inRange t) linked (knows t) timely moved
  refine ⟨tickets_step tickets inTurn moved, o', linked', ?_, fun u => ?_⟩
  · exact naming_step linked naming (knows t) grown moved arrived
  · change Knows ws o' s' (calls.id u) (Function.update c.local' t pc' u)
    by_cases here : u = t
    · subst here
      rwa [Function.update_self]
    · rw [Function.update_of_ne here]
      exact grown.knows (knows u)

def Addressed (s : Tree W) (id : NodeID) (v : Nat) : Prop :=
  ∃ vertex, s.vertexTable[v]? = some vertex ∧ vertex.node = id ∧ vertex.idx = (v : Int) ∧
    s.getExternalID vertex.idx = some id ∧ ∀ timestamp, s.recordByOffset vertex.idx timestamp = some v

theorem Sound.addressed (sound : Sound fanout ws calls c) {t v : Nat}
    (returned : c.local' t = .returned (some v)) : Addressed c.shared (calls.id t) v := by
  obtain ⟨tickets, o, linked, -, knows⟩ := sound
  have here := knows t
  rw [returned] at here
  obtain ⟨⟨-, vertex, there, idx⟩, vertex', there', node⟩ := here
  obtain rfl : vertex = vertex' := Option.some.inj (there.symm.trans there')
  have inside : v < c.shared.vertexTable.length := (List.getElem?_eq_some_iff.mp there).1
  have counted := tickets.le
  have undeleted := linked.undeleted vertex (List.mem_of_getElem? there)
  refine ⟨vertex, there, node, idx, ?_, fun timestamp => ?_⟩
  · rw [idx, Tree.getExternalID, if_neg (by omega), if_neg (by omega), Int.toNat_natCast, there,
      Option.map_some, node]
  · rw [idx, Tree.recordByOffset, if_neg (by omega), if_neg (by omega), Int.toNat_natCast, there,
      Option.bind_some, if_neg (by simp [undeleted])]

/-- If the table grows in the order in which the indices were drawn, and no call reads a record
before it is named, then every record that a call has returned has the id that was asked for and
stands at its index. -/
theorem returned_addressed {fanout : SORT W} {ws : List Nat} (fresh : SORT.Constructed fanout ws)
    (info : GlobalInfo) (calls : Requests) (inRange : ∀ t, calls.id t < 2 ^ ws.sum)
    {schedule : List Nat} {c : State W}
    (inTurn : Threads.Meets (nextOf fanout info calls) (InTurn fanout calls) initial schedule)
    (ran : Threads.run (nextOf fanout info calls) initial schedule = some c) {t v : Nat}
    (returned : c.local' t = .returned (some v)) : Addressed c.shared (calls.id t) v := by
  have shaped := fresh.dictionary.shaped
  have sound : Sound fanout ws calls c := by
    refine Threads.run_invariant (fun c t c' sound inTurn taken => ?_) inTurn ran initial_sound
    exact sound_step shaped inRange t sound inTurn taken
  exact sound.addressed returned

/-- Call `u` has the turn of call `t`: it holds a lower index, or has still to name the record that `t` would read. -/
def ahead (fanout : SORT W) (calls : Requests) (c : State W) (t u : Nat) : Bool :=
  (match (c.local' t).drawn, (c.local' u).drawn with
    | some idx, some k => u != t && decide (k ≤ idx)
    | _, _ => false) ||
  match c.local' t, c.local' u with
  | .readChild _ i, .storeId _ k _ true => fanout.digit (calls.id u) k == fanout.digit (calls.id t) i
  | .readSlot _ i, .storeId _ k _ true => fanout.digit (calls.id u) k == fanout.digit (calls.id t) i
  | _, _ => false

theorem inTurn_of_ahead {t : Nat} (none : ∀ u, ahead fanout calls c t u = false) : InTurn fanout calls c t where
  grows idx drawn u other k drawn' := by
    have here := none u
    simp only [ahead, drawn, drawn', Bool.or_eq_false_iff, Bool.and_eq_false_iff, bne_eq_false_iff_eq,
      decide_eq_false_iff_not] at here
    exact Nat.lt_of_not_le (here.1.resolve_left other)
  reads a i reads u k v naming := by
    have here := none u
    rcases reads with reads | reads <;>
    · simp only [ahead, reads, naming, Bool.or_eq_false_iff, beq_eq_false_iff_ne] at here
      exact here.2

theorem ahead_idle {t u : Nat} (idle : c.local' u = .checkRoot) : ahead fanout calls c t u = false := by
  simp only [ahead, idle, Pc.drawn, Bool.or_eq_false_iff]
  constructor <;> split <;> simp_all

theorem meets_among (among : List Nat) {schedule : List Nat} (only : ∀ t ∈ schedule, t ∈ among) {c : State W}
    (idle : ∀ u, u ∉ among → c.local' u = .checkRoot)
    (never : Threads.trace (nextOf fanout info calls) (fun c t => among.find? (ahead fanout calls c t)) c schedule = []) :
    Threads.Meets (nextOf fanout info calls) (InTurn fanout calls) c schedule := by
  induction schedule generalizing c with
  | nil => trivial
  | cons t ts ih =>
      rw [Threads.trace, List.append_eq_nil_iff, Option.toList_eq_nil_iff, List.find?_eq_none] at never
      obtain ⟨free, never⟩ := never
      constructor
      · apply inTurn_of_ahead
        intro u
        by_cases runs : u ∈ among
        · exact Bool.eq_false_of_not_eq_true (free u runs)
        · exact ahead_idle (idle u runs)
      · intro c' taken
        apply ih fun u later => only u (List.mem_cons_of_mem t later)
        · intro u rests
          obtain ⟨s', pc', -, rfl⟩ := Threads.step_eq_some.mp taken
          have other : u ≠ t := fun same => rests (same ▸ only t List.mem_cons_self)
          change Function.update c.local' t pc' u = _
          rw [Function.update_of_ne other, idle u rests]
        · rwa [taken, Option.elim_some] at never

def twoIds : Requests := ⟨fun t => t % 2, fun _ => true⟩

/-- Calls 0 and 1 both draw an index before either grows the table, which they then do in turn; call 2 has come to the
leaf slot of id 0 by then and reads it when the record is named. -/
def abreast : List Nat :=
  List.replicate 11 0 ++ List.replicate 7 1 ++ List.replicate 2 2 ++ (List.replicate 6 [0, 1]).flatten ++ [2]

theorem returned_addressed_abreast : ∃ c : State Nat,
    Threads.run (nextOf (SORT.ofVector [1]) ⟨0, true⟩ twoIds) initial abreast = some c ∧
      c.local' 0 = .returned (some 0) ∧ c.local' 1 = .returned (some 1) ∧ c.local' 2 = .returned (some 0) ∧
      Addressed c.shared 0 0 ∧ Addressed c.shared 1 1 := by
  have fresh : SORT.Constructed (SORT.ofVector [1] : SORT Nat) [1] := .vector (by decide)
  have inRange (t : Nat) : twoIds.id t < 2 ^ [1].sum := Nat.mod_lt t (by decide)
  have ends : (Threads.run (nextOf (SORT.ofVector [1]) ⟨0, true⟩ twoIds) (initial : State Nat) abreast).map
      (fun c => (c.local' 0, c.local' 1, c.local' 2)) =
        some (.returned (some 0), .returned (some 1), .returned (some 0)) := by decide
  obtain ⟨c, ran, ended⟩ := Option.map_eq_some_iff.mp ends
  obtain ⟨first, second, third⟩ := by simpa only [Prod.mk.injEq] using ended
  have inTurn : Threads.Meets (nextOf (SORT.ofVector [1]) ⟨0, true⟩ twoIds)
      (InTurn (SORT.ofVector [1]) twoIds) (initial : State Nat) abreast :=
    meets_among [0, 1, 2] (by decide) (fun _ _ => rfl) (by decide)
  exact ⟨c, ran, first, second, third, returned_addressed fresh ⟨0, true⟩ twoIds inRange inTurn ran third,
    returned_addressed fresh ⟨0, true⟩ twoIds inRange inTurn ran second⟩

/-- Call 0 draws the index 0 and is overtaken: call 1 draws 1 and grows the table. -/
def overtaken : List Nat := List.replicate 11 0 ++ List.replicate 13 1 ++ List.replicate 6 0

/-- Call 2 reads the leaf slot between the stores of call 0 to the slot and to the record. -/
def unnamed : List Nat := List.replicate 15 0 ++ List.replicate 3 2

def outcome (t : Nat) (c : State Nat) : Pc × List (NodeID × Int) :=
  (c.local' t, c.shared.vertexTable.map fun vertex => (vertex.node, vertex.idx))

theorem misaddressed_outcome {c : State Nat} {t v : Nat} {id : NodeID} {table : List (NodeID × Int)}
    (ends : outcome t c = (.returned (some v), table)) (wrong : table[v]? ≠ some (id, (v : Int))) :
    c.local' t = .returned (some v) ∧ ¬ Addressed c.shared id v := by
  obtain ⟨returned, rfl⟩ := Prod.mk.inj ends
  refine ⟨returned, ?_⟩
  rintro ⟨vertex, there, node, idx, -⟩
  apply wrong
  rw [List.getElem?_map, there, Option.map_some, node, idx]

theorem returned_misaddressed :
    (∃ c : State Nat,
      Threads.run (nextOf (SORT.ofVector [1]) ⟨0, true⟩ twoIds) initial overtaken = some c ∧
        c.local' 1 = .returned (some 0) ∧ ¬ Addressed c.shared 1 0) ∧
    ∃ c : State Nat,
      Threads.run (nextOf (SORT.ofVector [1]) ⟨0, true⟩ twoIds) initial unnamed = some c ∧
        c.local' 2 = .returned (some 0) ∧ ¬ Addressed c.shared 0 0 := by
  have first : (Threads.run (nextOf (SORT.ofVector [1]) ⟨0, true⟩ twoIds) (initial : State Nat)
      overtaken).map (outcome 1) = some (.returned (some 0), [(1, 1), (0, 0)]) := by decide
  have second : (Threads.run (nextOf (SORT.ofVector [1]) ⟨0, true⟩ twoIds) (initial : State Nat)
      unnamed).map (outcome 2) = some (.returned (some 0), [(NodeID.invalid, 0)]) := by decide
  constructor
  · obtain ⟨c, ran, ends⟩ := Option.map_eq_some_iff.mp first
    exact ⟨c, ran, misaddressed_outcome ends (by decide)⟩
  · obtain ⟨c, ran, ends⟩ := Option.map_eq_some_iff.mp second
    exact ⟨c, ran, misaddressed_outcome ends (by decide)⟩

end Concurrent

end Radix
