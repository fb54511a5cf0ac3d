import Radix.Lib.Linearizable
import Radix.Sort.Mixed

/-!
# Lookups and insertions, one after the other

Calls of `RetrieveVertex` of both modes answer as if each took place at once, in one of its own steps: an
insertion that makes the record where it publishes it, a lookup where it reads the last slot.
-/

namespace Radix

open Lib

namespace Concurrent

/-- What a call may answer where the dictionary is `d`, and what becomes of it. -/
inductive Requests.Allowed (calls : Requests) (d : NodeID → Option Nat) (t : Nat) :
    Option Nat → (NodeID → Option Nat) → Prop
  | found {v : Nat} : d (calls.id t) = some v → Allowed calls d t (some v) d
  | missing : d (calls.id t) = none → calls.insertMode t = false → Allowed calls d t none d
  | created {v : Nat} : d (calls.id t) = none → calls.insertMode t = true → (∀ id, d id ≠ some v) →
      Allowed calls d t (some v) (Function.update d (calls.id t) (some v))

def Pc.answer : Pc → Option (Option Nat)
  | .storeId _ _ v _ | .unlockLeaf _ _ v => some (some v)
  | .returned v => some v
  | _ => none

variable {W : Type} [Zero W] {fanout : SORT W} {info : GlobalInfo} {insertMode : Bool} {ws : List Nat}
  {o o' : Origins} {s s' : Tree W} {id : NodeID} {pc pc' : Pc} {calls : Requests} {c c' : State W}

theorem answer_of_next {r : Option Nat} (answered : pc.answer = some r)
    (taken : next fanout info id insertMode s pc = some (s', pc')) : pc'.answer = some r := by
  cases pc with
  | storeId a i v made | unlockLeaf a i v =>
      obtain ⟨-, rfl⟩ := by simpa [next] using taken
      exact answered
  | returned v => contradiction
  | _ => contradiction

theorem Stands.answered {v : Nat} (stands : Stands fanout ws o s id pc) (answered : pc.answer = some (some v)) :
    ∃ a i, Finds fanout ws o s id a i v := by
  cases pc with
  | storeId a i w made | unlockLeaf a i w =>
      cases answered
      exact ⟨a, i, stands⟩
  | returned w =>
      cases answered
      exact stands
  | _ => contradiction

theorem Stands.answers_some (stands : Stands fanout ws o s id pc) : pc.answer ≠ some none := by
  intro answered
  cases pc with
  | storeId | unlockLeaf => cases answered
  | returned w =>
      cases answered
      exact stands
  | _ => contradiction

structure Publishes (fanout : SORT W) (ws : List Nat) (o : Origins) (s : Tree W) (d : NodeID → Option Nat) : Prop where
  inRange : ∀ id v, d id = some v → id < 2 ^ ws.sum
  finds : ∀ id < 2 ^ ws.sum, ∀ v, d id = some v ↔ ∃ a i, Finds fanout ws o s id a i v

variable {d : NodeID → Option Nat}

theorem finds_back (shaped : fanout.Shaped ws) (inRange : id < 2 ^ ws.sum) {other : NodeID}
    (inRange' : other < 2 ^ ws.sum) (taken : next fanout info id insertMode s pc = some (s', pc'))
    (here : Stands fanout ws o s id pc) (grown : Grows o s o' s') (placed : Placed ws o' s')
    (arrived : (∃ a i v, pc = .publish a i v) → Stands fanout ws o' s' id pc') {a i v : Nat}
    (found : Finds fanout ws o' s' other a i v) :
    Finds fanout ws o s other a i v ∨ (∃ b k w, pc = .publish b k w) ∧ other = id := by
  have leaf := found
  obtain ⟨⟨walks, last⟩, there⟩ := leaf
  have old (before : s.child a (fanout.digit other i) = some v) : Finds fanout ws o s other a i v := by
    have allocated := Tree.child_allocated s before
    exact ⟨⟨⟨walks.1, allocated, (grown.path a allocated).symm.trans walks.2.2⟩, last⟩, before⟩
  have content : s'.content (.slot a (fanout.digit other i)) = some v := there
  obtain same | ⟨w, -, same⟩ | ⟨b, k, w, rfl, same⟩ | ⟨b, k, w, rfl, rfl, same⟩ :=
    content_of_next here.node_allocated taken
  · rw [same] at content
    exact .inl (old content)
  · rw [same, Function.update_of_ne (by rintro ⟨⟩)] at content
    exact .inl (old content)
  · rw [same] at content
    by_cases slot : Place.slot a (fanout.digit other i) = .slot b (fanout.digit id k)
    · obtain ⟨rfl, -⟩ := Place.slot.inj slot
      have level := walks.level.symm.trans (grown.walks here.1).level
      have inner := here.2
      omega
    · rw [Function.update_of_ne slot] at content
      exact .inl (old content)
  · rw [same] at content
    by_cases slot : Place.slot a (fanout.digit other i) = .slot b (fanout.digit id k)
    · rw [slot, Function.update_self] at content
      cases content
      have own := arrived ⟨b, k, v, rfl⟩
      exact .inr ⟨⟨b, k, v, rfl⟩, (placed.owner shaped inRange' found).symm.trans (placed.owner shaped inRange own)⟩
    · rw [Function.update_of_ne slot] at content
      exact .inl (old content)

namespace Publishes

theorem absent (publishes : Publishes fanout ws o s d) (placed : Placed ws o s) (shaped : fanout.Shaped ws)
    (inRange : id < 2 ^ ws.sum) {a i : Nat} (walks : Walks ws o s id a i)
    (empty : s.child a (fanout.digit id i) = none) : d id = none := by
  by_contra some'
  obtain ⟨v, there⟩ := Option.ne_none_iff_exists'.mp some'
  obtain ⟨b, k, found⟩ := (publishes.finds id inRange v).mp there
  exact placed.absent shaped walks empty b k v found

theorem fresh (publishes : Publishes fanout ws o s d) (placed : Placed ws o s) (shaped : fanout.Shaped ws)
    (missing : d id = none) {a i v : Nat} (makes : Makes ws o s id a i v) (other : NodeID) : d other ≠ some v := by
  intro there
  obtain ⟨b, k, found⟩ := (publishes.finds other (publishes.inRange other v there) v).mp there
  have same : id = other := makes.2.1.symm.trans (placed.owner shaped (publishes.inRange other v there) found)
  rw [← same, missing] at there
  contradiction

theorem publish (publishes : Publishes fanout ws o s d) (inRange : id < 2 ^ ws.sum) (grown : Grows o s o' s')
    (placed : Placed ws o' s') {a i v : Nat} (arrived : Finds fanout ws o' s' id a i v)
    (back : ∀ other < 2 ^ ws.sum, ∀ b k w, Finds fanout ws o' s' other b k w →
      Finds fanout ws o s other b k w ∨ other = id) :
    Publishes fanout ws o' s' (Function.update d id (some v)) := by
  refine ⟨fun other w there => ?_, fun other inRange' w => ?_⟩
  · by_cases own : other = id
    · exact own ▸ inRange
    · rw [Function.update_of_ne own] at there
      exact publishes.inRange other w there
  · by_cases own : other = id
    · subst own
      rw [Function.update_self, Option.some_inj]
      constructor
      · rintro rfl
        exact ⟨a, i, arrived⟩
      · rintro ⟨b, k, found⟩
        obtain ⟨rfl, rfl⟩ := placed.same_leaf arrived.1 found.1
        exact Option.some.inj (arrived.2.symm.trans found.2)
    · rw [Function.update_of_ne own, publishes.finds other inRange' w]
      constructor
      · rintro ⟨b, k, found⟩
        exact ⟨b, k, grown.finds found⟩
      · rintro ⟨b, k, found⟩
        exact ⟨b, k, (back other inRange' b k w found).resolve_right own⟩

theorem stay (publishes : Publishes fanout ws o s d) (grown : Grows o s o' s')
    (back : ∀ other < 2 ^ ws.sum, ∀ b k w, Finds fanout ws o' s' other b k w → Finds fanout ws o s other b k w) :
    Publishes fanout ws o' s' d := by
  refine ⟨publishes.inRange, fun other inRange' w => ?_⟩
  rw [publishes.finds other inRange' w]
  constructor
  · rintro ⟨b, k, found⟩
    exact ⟨b, k, grown.finds found⟩
  · rintro ⟨b, k, found⟩
    exact ⟨b, k, back other inRange' b k w found⟩

end Publishes

def Serving (fanout : SORT W) (ws : List Nat) (calls : Requests) (c : State W) (d : NodeID → Option Nat) : Prop :=
  ∃ o, Mixed fanout ws calls o c ∧ Publishes fanout ws o c.shared d

theorem serving_effective (shaped : fanout.Shaped ws) (levels : ws ≠ []) (inRange : ∀ t, calls.id t < 2 ^ ws.sum) :
    Threads.Effective calls.Allowed (fun _ => Pc.answer) (Serving fanout ws calls) (nextOf fanout info calls) where
  keeps c d t c' serving taken := by
    obtain ⟨o, mixed, publishes⟩ := serving
    obtain ⟨s', pc', moved, rfl⟩ := Threads.step_eq_some.mp taken
    have here := mixed.moves moved
    obtain ⟨o', grown, mixed', stands⟩ := mixed.step shaped levels inRange moved
    have publishing (publish : ∃ a i v, c.local' t = .publish a i v) : Stands fanout ws o' s' (calls.id t) pc' := by
      apply stands.resolve_right
      rintro ⟨a, i, reading, -⟩
      obtain ⟨b, k, v, standing⟩ := publish
      rw [standing] at reading
      contradiction
    have back {other : NodeID} (inRange' : other < 2 ^ ws.sum) (a i v : Nat)
        (found : Finds fanout ws o' s' other a i v) :=
      finds_back shaped (inRange t) inRange' moved here grown mixed'.placed publishing found
    dsimp only
    rw [Function.update_self]
    by_cases publish : ∃ a i v, c.local' t = .publish a i v
    · have arrived := publishing publish
      obtain ⟨a, i, v, standing⟩ := publish
      rw [standing] at moved here
      obtain rfl : .storeId a i v true = pc' := (Prod.mk.inj (Option.some.inj moved)).2
      have empty : c.shared.child a (fanout.digit (calls.id t) i) = none :=
        mixed.guarded.empty t (.slot a (fanout.digit (calls.id t) i)) (by rw [standing]; rfl)
      have missing := publishes.absent mixed.placed shaped (inRange t) here.1.1 empty
      have inserting : calls.insertMode t = true := by
        by_contra looking
        have looks := mixed.looks t (Bool.eq_false_iff.mpr looking)
        rw [standing] at looks
        exact looks
      refine .inr ⟨by rw [standing]; rfl, some v, _, rfl,
        .created missing inserting (publishes.fresh mixed.placed shaped missing here), o', mixed', ?_⟩
      exact publishes.publish (inRange t) grown mixed'.placed arrived
        fun other inRange' b k w found => (back inRange' b k w found).imp_right And.right
    · have publishes' : Publishes fanout ws o' s' d :=
        publishes.stay grown fun other inRange' b k w found =>
          (back inRange' b k w found).resolve_right fun new => publish new.1
      have serving' : Serving fanout ws calls ⟨s', Function.update c.local' t pc'⟩ d := ⟨o', mixed', publishes'⟩
      cases before : (c.local' t).answer with
      | some r => exact .inl ⟨answer_of_next before moved, serving'⟩
      | none =>
          cases after : pc'.answer with
          | none => exact .inl ⟨rfl, serving'⟩
          | some r =>
              refine .inr ⟨rfl, r, d, rfl, ?_, serving'⟩
              rcases stands with stands | ⟨a, i, reading, looking, empty, -, rfl⟩
              · cases r with
                | none => exact absurd after stands.answers_some
                | some v => exact .found ((publishes'.finds _ (inRange t) v).mpr (stands.answered after))
              · obtain rfl : none = r := Option.some.inj after
                rw [reading] at here
                exact .missing (publishes.absent mixed.placed shaped (inRange t) here empty) looking

theorem initial_serving : Serving fanout ws calls (initial : State W) fun _ => none := by
  refine ⟨_, initial_mixed, ⟨?_, fun id _ v => ⟨?_, ?_⟩⟩⟩
  · rintro id v ⟨⟩
  · rintro ⟨⟩
  · rintro ⟨a, i, -, ⟨⟩⟩

/-- However the steps interleave, the calls that have taken effect make a legal history of a dictionary, which
has all that have returned, with their answers, and in it a call that returned before another began stands
before that one. -/
theorem retrievals_linearizable {fanout : SORT W} {ws : List Nat} (fresh : SORT.Constructed fanout ws)
    (info : GlobalInfo) (calls : Requests) (inRange : ∀ t, calls.id t < 2 ^ ws.sum) {schedule : List Nat} {c : State W}
    (ran : Threads.run (nextOf fanout info calls) initial schedule = some c) :
    ∃ history d, Legal calls.Allowed (fun _ => none) history d ∧ (history.map Prod.fst).Nodup ∧
      (∀ t r, (t, r) ∈ history → t ∈ schedule) ∧
      (∀ t r, c.local' t = .returned r → (t, r) ∈ history) ∧
      ∀ earlier later middle, schedule = earlier ++ later →
        Threads.run (nextOf fanout info calls) initial earlier = some middle →
        ∃ front back, history = front ++ back ∧ (∀ t r, middle.local' t = .returned r → (t, r) ∈ front) ∧
          ∀ t r, middle.local' t = .checkRoot → (t, r) ∉ front := by
  have levels : ws ≠ [] := fresh.fanout.2
  have effective : Threads.Effective calls.Allowed (fun _ => Pc.answer) (Serving fanout ws calls)
      (nextOf fanout info calls) := serving_effective fresh.dictionary.shaped levels inRange
  obtain ⟨history, d, linearized, -, parts⟩ := Threads.run_linearizes effective initial_serving (fun _ => rfl) ran
  refine ⟨history, d, linearized.legal, linearized.nodup, fun t r member => ?_, fun t r ended => ?_,
    fun earlier later middle split before => ?_⟩
  · by_contra absent
    have answered := (linearized.mem t r).mp member
    rw [Threads.run_local_absent absent ran] at answered
    contradiction
  · rw [linearized.mem, ended]
    rfl
  · obtain ⟨front, back, rfl, members⟩ := parts earlier later middle split before
    refine ⟨front, back, rfl, fun t r ended => ?_, fun t r begun => ?_⟩
    · rw [members, ended]
      rfl
    · rw [members, begun]
      rintro ⟨⟩

/-- Call 0 inserts, call 1 has looked before, and call 2 looks before call 0 has returned. -/
theorem retrievals_linearizable_lookups : ∃ history d,
    Legal (Requests.Allowed ⟨fun _ => 1, (· == 0)⟩) (fun _ => none) history d ∧ (history.map Prod.fst).Nodup ∧
      (1, none) ∈ history ∧ (2, some 0) ∈ history ∧ (0, some 0) ∈ history := by
  have fresh : SORT.Constructed (SORT.ofVector [1] : SORT Nat) [1] := .vector (by decide)
  have inRange (t : Nat) : (1 : NodeID) < 2 ^ [1].sum := by decide
  have ends : (Threads.run (nextOf (SORT.ofVector [1]) ⟨0, true⟩ ⟨fun _ => 1, (· == 0)⟩) (initial : State Nat)
      (List.replicate 7 1 ++ List.replicate 11 0 ++ List.replicate 3 2 ++ List.replicate 2 0)).map
      (fun c => (c.local' 1, c.local' 2, c.local' 0)) =
      some (.returned none, .returned (some 0), .returned (some 0)) := by decide
  obtain ⟨c, ran, returned⟩ := Option.map_eq_some_iff.mp ends
  simp only [Prod.mk.injEq] at returned
  obtain ⟨one, two, zero⟩ := returned
  obtain ⟨history, d, legal, once, -, answers, -⟩ := retrievals_linearizable fresh ⟨0, true⟩ _ inRange ran
  exact ⟨history, d, legal, once, answers 1 _ one, answers 2 _ two, answers 0 _ zero⟩

end Concurrent

end Radix
