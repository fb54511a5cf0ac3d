import Radix.Sort.Once

/-!
# Calls of both modes

Lookups take the steps of insertions until they meet an empty slot. A record is found by the calls for its id
as soon as it is published, and by none before.
-/

namespace Radix

open Lib

namespace Concurrent

variable {W : Type} [Zero W] {fanout : SORT W} {info : GlobalInfo} {insertMode : Bool} {ws : List Nat}
  {o o' : Origins} {s s' : Tree W} {id : NodeID} {pc pc' : Pc} {calls : Requests} {c c' : State W}

def Pc.Looks : Pc → Prop
  | .checkRoot | .lockRoot | .recheckRoot | .storeRoot | .unlockRoot | .loadRoot | .readChild _ _ | .descend _ _
  | .returned _ => True
  | _ => False

variable (fanout s id insertMode pc) in
def Misses (s' : Tree W) (pc' : Pc) : Prop :=
  ∃ a i, pc = .readChild a i ∧ insertMode = false ∧ s.child a (fanout.digit id i) = none ∧ s' = s ∧
    pc' = .returned none

theorem next_mode (taken : next fanout info id insertMode s pc = some (s', pc')) :
    Misses fanout insertMode s id pc s' pc' ∨ next fanout info id true s pc = some (s', pc') := by
  cases pc with
  | readChild a i =>
      simp only [next] at taken
      split at taken
      · rename_i absent
        cases insertMode with
        | false =>
            cases taken
            exact .inl ⟨a, i, rfl, rfl, absent, rfl, rfl⟩
        | true =>
            right
            simp only [next, absent]
            exact taken
      · rename_i ptr there
        right
        simp only [next, there]
        exact taken
  | _ => exact .inr taken

theorem looks_of_next (looks : pc.Looks) (taken : next fanout info id false s pc = some (s', pc')) : pc'.Looks := by
  cases pc with
  | checkRoot | recheckRoot =>
      obtain ⟨rfl, rfl⟩ := by simpa [next] using taken
      split <;> trivial
  | lockRoot =>
      obtain ⟨-, rfl, rfl⟩ := by simpa [next] using taken
      trivial
  | storeRoot | unlockRoot =>
      obtain ⟨rfl, rfl⟩ := by simpa [next] using taken
      trivial
  | loadRoot =>
      simp only [next] at taken
      split at taken
      · cases taken
        trivial
      · obtain ⟨r, -, ⟨⟩⟩ := Option.map_eq_some_iff.mp taken
        trivial
  | readChild a i =>
      simp only [next] at taken
      split at taken
      · cases taken
        trivial
      · cases taken
        split <;> trivial
  | descend a i =>
      obtain ⟨ptr, -, ⟨⟩⟩ := Option.map_eq_some_iff.mp taken
      trivial
  | returned v => contradiction
  | _ => exact looks.elim

theorem content_of_next (allocated : ∀ a, pc.node = some a → a < s.nodes.length)
    (taken : next fanout info id insertMode s pc = some (s', pc')) :
    s'.content = s.content ∨
    (∃ v, pc = .storeRoot ∧ s'.content = Function.update s.content .root (some v)) ∨
    (∃ a i v, pc = .storeNode a i ∧
      s'.content = Function.update s.content (.slot a (fanout.digit id i)) (some v)) ∨
    ∃ a i v, pc = .publish a i v ∧ pc' = .storeId a i v true ∧
      s'.content = Function.update s.content (.slot a (fanout.digit id i)) (some v) := by
  cases pc with
  | storeRoot =>
      obtain ⟨rfl, rfl⟩ := Prod.mk.inj (Option.some.inj taken)
      refine .inr (.inl ⟨s.nodes.length, rfl, ?_⟩)
      funext k
      cases k with
      | root => rfl
      | slot a j => exact s.newNode_child a j
  | storeNode a i =>
      obtain ⟨rfl, rfl⟩ := by simpa [next] using taken
      have allocated' : a < s.newNode.nodes.length := by
        rw [Tree.newNode_nodes, List.length_append]
        exact Nat.lt_add_right _ (allocated a rfl)
      refine .inr (.inr (.inl ⟨a, i, s.nodes.length, rfl, ?_⟩))
      rw [s.newNode.setChild_content _ _ allocated', s.newNode_content]
  | publish a i v =>
      obtain ⟨rfl, rfl⟩ := by simpa [next] using taken
      exact .inr (.inr (.inr ⟨a, i, v, rfl, rfl, s.setChild_content _ _ (allocated a rfl)⟩))
  | lockRoot =>
      obtain ⟨-, rfl, rfl⟩ := by simpa [next] using taken
      left
      funext k
      cases k <;> rfl
  | unlockRoot | drawIdx | growTable =>
      obtain ⟨rfl, rfl⟩ := by simpa [next] using taken
      left
      funext k
      cases k <;> rfl
  | lockSlot a i | lockLeaf a i =>
      simp only [next] at taken
      split at taken
      · contradiction
      · cases taken
        exact .inl (s.setLock_content ..)
  | unlockSlot a i | unlockLeaf a i v =>
      obtain ⟨rfl, rfl⟩ := by simpa [next] using taken
      exact .inl (s.setLock_content ..)
  | storeIdx | storeNext | storeId | checkRoot | recheckRoot | recheckSlot =>
      obtain ⟨rfl, rfl⟩ := by simpa [next] using taken
      exact .inl rfl
  | loadRoot =>
      simp only [next] at taken
      split at taken
      · cases taken
        exact .inl rfl
      · obtain ⟨r, -, ⟨⟩⟩ := Option.map_eq_some_iff.mp taken
        exact .inl rfl
  | readChild | readSlot | recheckLeaf =>
      simp only [next] at taken
      split at taken
      all_goals
        cases taken
        exact .inl rfl
  | descend | insertDescend =>
      obtain ⟨ptr, -, ⟨⟩⟩ := Option.map_eq_some_iff.mp taken
      exact .inl rfl
  | returned v => contradiction

/-! ## The tree on the way to a record -/

theorem Placed.above (placed : Placed ws o s) (shaped : fanout.Shaped ws) {b k i : Nat} (walks : Walks ws o s id b k)
    (less : i < k) : ∃ a, Walks ws o s id a i ∧ s.child a (fanout.digit id i) ≠ none := by
  induction k generalizing b with
  | zero => exact absurd less (Nat.not_lt_zero i)
  | succ k ih =>
      have inside : k < ws.length := (Nat.lt_succ_self k).trans walks.1
      have spelled : o.path b = (cut ws id).take k ++ [fanout.digit id k] := by
        rw [walks.2.2, take_digit shaped id inside]
      cases placed.hangs b walks.2.1 with
      | inl root =>
          rw [(placed.root b root).2] at spelled
          exact absurd spelled.symm (List.concat_ne_nil _ _)
      | inr slot =>
          obtain ⟨a, j, there, inner⟩ := slot
          rw [(placed.inner a j b there inner).2] at spelled
          obtain ⟨path, digit⟩ := List.append_inj' spelled rfl
          cases digit
          have parent : Walks ws o s id a k := ⟨inside, Tree.child_allocated s there, path⟩
          rcases Nat.lt_succ_iff_lt_or_eq.mp less with before | rfl
          · exact ih parent before
          · exact ⟨a, parent, by rw [there]; exact Option.some_ne_none b⟩

theorem Placed.absent (placed : Placed ws o s) (shaped : fanout.Shaped ws) {a i : Nat} (walks : Walks ws o s id a i)
    (empty : s.child a (fanout.digit id i) = none) (b k v : Nat) : ¬ Finds fanout ws o s id b k v := by
  rintro ⟨⟨walks', last⟩, there⟩
  have inside := walks.1
  rcases Nat.lt_or_ge i k with less | more
  · obtain ⟨a', above, full⟩ := placed.above shaped walks' less
    obtain rfl := placed.apart above.2.1 walks.2.1 (above.2.2.trans walks.2.2.symm)
    exact full empty
  · obtain rfl : k = i := by omega
    obtain rfl := placed.apart walks'.2.1 walks.2.1 (walks'.2.2.trans walks.2.2.symm)
    rw [there] at empty
    contradiction

/-! ## All calls together -/

structure Mixed (fanout : SORT W) (ws : List Nat) (calls : Requests) (o : Origins) (c : State W) : Prop where
  guarded : Guarded (fun t => (c.local' t).holds fanout (calls.id t)) (fun t => (c.local' t).fills fanout (calls.id t))
    c.shared.bit c.shared.content
  placed : Placed ws o c.shared
  stands : ∀ t, Stands fanout ws o c.shared (calls.id t) (c.local' t) ∨
    calls.insertMode t = false ∧ c.local' t = .returned none
  looks : ∀ t, calls.insertMode t = false → (c.local' t).Looks

theorem initial_mixed : Mixed fanout ws calls ⟨fun _ => [], fun _ => 0⟩ (initial : State W) where
  guarded := .start
  placed := by
    refine ⟨?_, ?_, ?_, ?_⟩
    · exact fun _ there => nomatch there
    · exact fun _ _ _ there => nomatch there
    · exact fun _ _ _ there => nomatch there
    · exact fun _ impossible => absurd impossible (Nat.not_lt_zero _)
  stands _ := .inl trivial
  looks _ _ := trivial

namespace Mixed

variable {t : Nat}

theorem moves (mixed : Mixed fanout ws calls o c)
    (taken : next fanout info (calls.id t) (calls.insertMode t) c.shared (c.local' t) = some (s', pc')) :
    Stands fanout ws o c.shared (calls.id t) (c.local' t) := by
  apply (mixed.stands t).resolve_right
  rintro ⟨-, ended⟩
  rw [ended] at taken
  contradiction

theorem step (shaped : fanout.Shaped ws) (levels : ws ≠ []) (inRange : ∀ t, calls.id t < 2 ^ ws.sum)
    (mixed : Mixed fanout ws calls o c)
    (taken : next fanout info (calls.id t) (calls.insertMode t) c.shared (c.local' t) = some (s', pc')) :
    ∃ o', Grows o c.shared o' s' ∧ Mixed fanout ws calls o' ⟨s', Function.update c.local' t pc'⟩ ∧
      (Stands fanout ws o' s' (calls.id t) pc' ∨
        Misses fanout (calls.insertMode t) c.shared (calls.id t) (c.local' t) s' pc') := by
  have here := mixed.moves taken
  obtain ⟨guarded, -⟩ := guarded_step mixed.guarded here taken
  have arrived : ∃ o', Grows o c.shared o' s' ∧ Placed ws o' s' ∧
      (Stands fanout ws o' s' (calls.id t) pc' ∨
        Misses fanout (calls.insertMode t) c.shared (calls.id t) (c.local' t) s' pc') := by
    rcases next_mode taken with misses | inserts
    · obtain ⟨-, -, -, -, -, rfl, -⟩ := id misses
      obtain ⟨grown, placed⟩ := mixed.placed.quiet rfl rfl rfl
      exact ⟨o, grown, placed, .inr misses⟩
    · obtain ⟨o', grown, placed, stands⟩ := next_proceeds shaped levels (inRange t) mixed.placed here
        (mixed.guarded.empty t) inserts
      exact ⟨o', grown, placed, .inl stands⟩
  obtain ⟨o', grown, placed, stands⟩ := arrived
  refine ⟨o', grown, ⟨guarded, placed, fun u => ?_, fun u mode => ?_⟩, stands⟩
  · change Stands fanout ws o' s' (calls.id u) (Function.update c.local' t pc' u) ∨
      calls.insertMode u = false ∧ Function.update c.local' t pc' u = .returned none
    by_cases own : u = t
    · subst own
      rw [Function.update_self]
      apply stands.imp_right
      rintro ⟨a, i, -, mode, -, -, ended⟩
      exact ⟨mode, ended⟩
    · rw [Function.update_of_ne own]
      exact (mixed.stands u).imp_left grown.stands
  · change (Function.update c.local' t pc' u).Looks
    by_cases own : u = t
    · subst own
      rw [Function.update_self]
      rw [mode] at taken
      exact looks_of_next (mixed.looks u mode) taken
    · rw [Function.update_of_ne own]
      exact mixed.looks u mode

end Mixed

end Concurrent

end Radix
