import Radix.Graph.Visible

/-!
# Versions that are deleted

Readers are counted, and the version that a writer has a slot in is not replaced before the slot is
written. What nothing protects is a writer on the way from `src->next` to the comparison of its slot
with `cap`.
-/

namespace Radix

open Lib

variable {W : Type} [Zero W] [DecidableEq W]

namespace OneVertex

/-- The version that a call has in `next` and whose members its next steps use. A writer at the lock,
or about to compare `next` with `src->next`, uses those of the current version only. -/
def Pc.uses : Pc W → Option Nat
  | .claim p | .checkCap p _ | .waitFull p | .allocate p | .compact p _ | .publish p _ | .retire p
  | .reclaim p | .unlock p _ | .drawStamp p _ | .storeStamp p _ _ | .bumpDeg p _ | .writeSlot p _
  | .bumpPhysical p _ => some p
  | pc => pc.reads

structure Retires (c : State W) (t : Nat) : Prop where
  undeleted : ∀ p, (c.local' t).uses = some p → p ∈ c.shared.chain
  unused : ∀ dead, deletes c.shared (c.local' t) = some dead → ∀ u, u ≠ t → (c.local' u).uses ≠ some dead

variable {setting : Setting W} {calls : Nat → Request W} {request : Request W} {pcs : Nat → Pc W}
  {o : Origin W} {s s' : Source W} {cur : WeightedEdgeArray W} {first t p : Nat} {pc pc' : Pc W}
  {c c' : State W}

omit [DecidableEq W] in
theorem uses_of_holds (holds : pc.holds = some p) : pc.uses = some p := by
  cases pc <;> cases holds <;> rfl

omit [DecidableEq W] in
theorem holds_of_deletes (deleted : deletes s pc = some p) : pc.holds = none := by
  cases pc <;> first | rfl | cases deleted

omit [DecidableEq W] in
theorem retire_chain (setting : Setting W) (s : Source W) (q : Nat) :
    (s.retire setting q).chain = s.chain ∨
      ∃ dead, s.doomed q = some dead ∧ (s.retire setting q).chain = s.chain.erase dead := by
  unfold Source.retire
  split
  · cases doomed : s.doomed q with
    | none => exact .inl rfl
    | some dead => exact .inr ⟨dead, rfl, rfl⟩
  · exact .inl rfl

theorem next_chain (taken : next setting t request s pc = some (s', pc')) :
    s'.chain = s.chain ∨ s'.chain = s.memory.length :: s.chain ∨
      ∃ dead, deletes s pc = some dead ∧ s'.chain = s.chain.erase dead := by
  cases pc with
  | loadNext | claim | checkCap | compareNext | allocate | reload | reclaim | loadCount =>
      obtain ⟨_, -, ⟨⟩⟩ := Option.map_eq_some_iff.mp taken
      exact .inl rfl
  | lock | lockLeave | enter =>
      simp only [next] at taken
      split at taken <;> cases taken
      exact .inl rfl
  | waitFull =>
      obtain ⟨_, -, taken⟩ := Option.bind_eq_some_iff.mp taken
      split at taken <;> cases taken
      exact .inl rfl
  | compact | writeSlot | copySnapshot | clear =>
      obtain ⟨_, -, taken⟩ := Option.bind_eq_some_iff.mp taken
      obtain ⟨_, -, ⟨⟩⟩ := Option.map_eq_some_iff.mp taken
      exact .inl rfl
  | publish =>
      cases taken
      exact .inr (.inl rfl)
  | retire q =>
      cases taken
      exact (retire_chain setting s q).imp_right .inr
  | leave q =>
      cases taken
      simp only [Source.leave, deletes]
      split
      · exact .inr (.inr ⟨q, rfl, rfl⟩)
      · exact .inl rfl
  | unlock | bumpDeg | bumpPhysical | unlockRead | unlockNone | unlockLeave =>
      cases taken
      exact .inl rfl
  | drawStamp =>
      obtain ⟨_, -, taken⟩ := Option.map_eq_some_iff.mp taken
      split at taken
      all_goals
        cases taken
        exact .inl rfl
  | storeStamp =>
      obtain ⟨_, -, taken⟩ := Option.bind_eq_some_iff.mp taken
      split at taken
      · contradiction
      · obtain ⟨_, -, ⟨⟩⟩ := Option.map_eq_some_iff.mp taken
        exact .inl rfl
  | select =>
      simp only [next] at taken
      split at taken
      all_goals
        cases taken
        exact .inl rfl
  | cut =>
      obtain ⟨_, -, taken⟩ := Option.bind_eq_some_iff.mp taken
      obtain ⟨stamp, -, taken⟩ := Option.bind_eq_some_iff.mp taken
      split at taken
      · cases taken
        exact .inl rfl
      · split at taken
        · obtain ⟨_, -, ⟨⟩⟩ := Option.map_eq_some_iff.mp taken
          exact .inl rfl
        · cases taken
          exact .inl rfl
  | scan q cnt i =>
      cases i with
      | zero =>
          cases taken
          exact .inl rfl
      | succ i =>
          obtain ⟨_, -, taken⟩ := Option.bind_eq_some_iff.mp taken
          obtain ⟨_, -, ⟨⟩⟩ := Option.map_eq_some_iff.mp taken
          exact .inl rfl
  | inserted | returned => contradiction

theorem mem_chain_of_next (taken : next setting t request s pc = some (s', pc')) (member : p ∈ s.chain)
    (spared : deletes s pc ≠ some p) : p ∈ s'.chain := by
  obtain same | longer | ⟨dead, deleted, shorter⟩ := next_chain taken
  · rwa [same]
  · exact longer ▸ List.mem_cons_of_mem _ member
  · have other : p ≠ dead := by
      rintro rfl
      exact spared deleted
    exact shorter ▸ (List.mem_erase_of_ne other).mpr member

/-! ## Runs -/

structure Accounted (calls : Nat → Request W) (first : Nat) (o : Origin W) (cur : WeightedEdgeArray W)
    (c : State W) : Prop where
  sound : Sound calls c.local' o c.shared cur first
  locks : Locks c.local' c.shared
  counted : Counted c.local' c.shared
  reading : ∀ r p, (c.local' r).reads = some p → p ∈ c.shared.chain

namespace Accounted

theorem step (accounted : Accounted calls first o cur c) (proper : Proper setting calls) (unused : NoUser c t)
    (taken : Threads.step (nextOf setting calls) c t = some c') :
    ∃ o' cur', Accounted calls first o' cur' c' := by
  obtain ⟨s', pc', moved, rfl⟩ := Threads.step_eq_some.mp taken
  obtain ⟨⟨o', cur', sound', -⟩, locks'⟩ := next_arrives proper accounted.sound accounted.locks unused moved
  refine ⟨o', cur', sound', locks', accounted.counted.step moved, fun r p reads => ?_⟩
  have registers := next_registers moved
  change (Function.update c.local' t pc' r).reads = some p at reads
  by_cases here : r = t
  · subst here
    rw [Function.update_self] at reads
    generalize at_r : c.local' r = pc at registers moved
    cases registers with
    | enters q found =>
        cases reads
        exact mem_chain_of_next moved (List.mem_of_find?_eq_some found) nofun
    | leaves => cases reads
    | stays same staying =>
        have before := at_r ▸ same.symm.trans reads
        refine mem_chain_of_next moved (accounted.reading r p before) ?_
        rw [← at_r]
        exact accounted.counted.undeleted before fun _ n => at_r ▸ staying p n
  · rw [Function.update_of_ne here] at reads
    exact mem_chain_of_next moved (accounted.reading r p reads)
      (accounted.counted.undeleted reads fun same => absurd same here)

theorem obsolete (accounted : Accounted calls first o cur c)
    (deleted : deletes c.shared (c.local' t) = some p) : p ≠ o.head := by
  cases here : c.local' t <;> rw [here] at deleted
  case retire q => exact (accounted.sound.obsolete_retire here).2 p deleted
  case leave q n =>
    simp only [deletes] at deleted
    split at deleted
    case isTrue abandoned =>
      cases deleted
      exact accounted.sound.obsolete_leave abandoned
    case isFalse => contradiction
  all_goals cases deleted

omit [DecidableEq W] in
theorem locked_of_deletes (deleted : deletes s pc = some p) : pc.locked = true := by
  cases pc <;> first | rfl | cases deleted

theorem user (accounted : Accounted calls first o cur c) (uses : (c.local' t).uses = some p) :
    p = o.head ∨ ((c.local' t).holds = some p ∨ (c.local' t).reads = some p) ∧ p ∈ c.shared.chain ∨
      (c.local' t = .retire p ∧ p ∈ c.shared.chain) := by
  have known := accounted.sound.knows t
  have reading := accounted.reading t p
  cases here : c.local' t <;> rw [here] at uses known reading
  case claim q =>
    cases uses
    exact .inr (.inl ⟨.inl rfl, known.2⟩)
  case checkCap q i =>
    cases uses
    exact .inr (.inl ⟨.inl rfl, known.1⟩)
  case waitFull | reclaim =>
    cases uses
    exact .inl known
  case allocate | compact | publish | unlock | drawStamp | bumpDeg | writeSlot | bumpPhysical =>
    cases uses
    exact .inl known.1
  case storeStamp =>
    cases uses
    exact .inl known.1.1
  case retire q =>
    cases uses
    obtain ⟨older, split⟩ := known
    refine .inr (.inr ⟨rfl, ?_⟩)
    rw [accounted.sound.chain, split]
    exact List.mem_cons_of_mem _ List.mem_cons_self
  case unlockRead | loadCount | copySnapshot | cut | scan | clear | lockLeave | leave =>
    exact .inr (.inl ⟨.inr uses, reading uses⟩)
  all_goals cases uses

theorem retires (accounted : Accounted calls first o cur c) (unused : NoUser c t) : Retires c t where
  undeleted p uses := by
    obtain rfl | ⟨-, member⟩ | ⟨-, member⟩ := accounted.user uses
    · rw [accounted.sound.chain]
      exact List.mem_cons_self
    · exact member
    · exact member
  unused dead deleted u other uses := by
    obtain current | ⟨held | reads, -⟩ | ⟨here, -⟩ := accounted.user uses
    · exact accounted.obsolete deleted current
    · exact unused dead deleted u held
    · exact accounted.counted.undeleted reads (fun same => absurd same other) deleted
    · apply other
      apply accounted.locks.one u t ?_ (locked_of_deletes deleted)
      rw [here]
      rfl

end Accounted

omit [DecidableEq W] in
theorem Retires.noUser (retires : Retires c t) : NoUser c t := by
  intro dead deleted u holds
  have other : u ≠ t := by
    rintro rfl
    rw [holds_of_deletes deleted] at holds
    contradiction
  exact retires.unused dead deleted u other (uses_of_holds holds)

variable {v : Vertex W} {head : WeightedEdgeArray W} {snap log : List (WeightedEdge W)}
  {stamps : Option (List Int)} {info : GlobalInfo} {schedule : List Nat}

theorem initial_accounted (stored : Stored v.next head snap log stamps)
    (recent : head.snapshotTimestamp ≤ maxTimestamp)
    (dated : ∀ ts, stamps = some ts → ∀ x ∈ ts, x ≤ maxTimestamp) :
    ∃ o cur, Accounted calls (v.next.length - 1) o cur (initial calls v info) := by
  have outside (t : Nat) (p : Nat) : ((initial calls v info).local' t).reads ≠ some p := by
    change (calls t).start.reads ≠ some p
    cases calls t <;> exact nofun
  refine ⟨_, _, initial_sound stored recent dated calls info, initial_locks calls v info,
    ⟨fun p arr _ => ⟨[], List.nodup_nil, fun r reads => ?_, Nat.zero_le _⟩, fun r p reads => ?_⟩,
    fun r p reads => ?_⟩
  · exact absurd reads (outside r p)
  · exact absurd reads (outside r p)
  · exact absurd reads (outside r p)

open RadixGraph

/-- In a run of any calls on a vertex of any graph, every call uses versions that exist, and no step
deletes a version that another call uses, just when no step deletes a version of a writer that is on
the way from `src->next` to the comparison with `cap`. -/
theorem retires_iff (P : Platform W) (global : GlobalInfo) {index : SORT W} {ws : List Nat}
    (constructed : SORT.Constructed index ws) {L : Nat} (positive : 0 < L) {acts : List (Action W)}
    {g : RadixGraph W} (reached : actions P (construct global index L positive) acts = .ok g) {k : Nat}
    (at_k : g.vertexIndex.vertexTable[k]? = some v) (info : GlobalInfo) (proper : Proper setting calls) :
    Threads.Meets (nextOf setting calls) Retires (initial calls v info) schedule ↔
      Threads.Meets (nextOf setting calls) NoUser (initial calls v info) schedule := by
  obtain ⟨g', A, reached', holds, -⟩ :=
    actions_holds P (construct_holds .lax global constructed positive) acts
  obtain rfl : g = g' := Except.ok.inj (reached.symm.trans reached')
  obtain ⟨-, head, snap, log, stamps, past, stored, -, carries⟩ := holds.kept k v.revived (by
    simp [revived, SORT.revived, at_k])
  constructor
  · exact fun meets => meets.mono fun c t retires => retires.noUser
  · intro meets
    have start : ∃ o cur, Accounted calls (v.next.length - 1) o cur (initial calls v info) :=
      initial_accounted stored carries.shown.1 carries.shown.2
    have keeps (c : State W) (t : Nat) (c' : State W)
        (held : ∃ o cur, Accounted calls (v.next.length - 1) o cur c) (unused : NoUser c t)
        (taken : Threads.step (nextOf setting calls) c t = some c') :
        ∃ o cur, Accounted calls (v.next.length - 1) o cur c' := by
      obtain ⟨o, cur, accounted⟩ := held
      exact accounted.step proper unused taken
    have implies (c : State W) (t : Nat) (held : ∃ o cur, Accounted calls (v.next.length - 1) o cur c)
        (unused : NoUser c t) : Retires c t := by
      obtain ⟨o, cur, accounted⟩ := held
      exact accounted.retires unused
    exact meets.strengthen keeps implies start

/-- The step is of one of the first `n` calls, and none of these is about to use the counters of a version that it
deletes. -/
def usersSpared (n : Nat) (c : State W) (t : Nat) : Bool :=
  t < n && (List.range n).all fun u => (c.local' u).holds.isNone || (c.local' u).holds != deletes c.shared (c.local' t)

omit [DecidableEq W] in
theorem noUser_of_spared {next : Nat → Source W → Pc W → Option (Source W × Pc W)} {n : Nat} {schedule : List Nat}
    (idle : ∀ u, n ≤ u → (c.local' u).holds = none)
    (spared : Threads.Meets next (fun c t => usersSpared n c t = true) c schedule) :
    Threads.Meets next NoUser c schedule := by
  let Idle (c : State W) : Prop := ∀ u, n ≤ u → (c.local' u).holds = none
  have start : Idle c := idle
  refine spared.strengthen (fun c t c' (idle : Idle c) spares taken u outside => ?_)
    (fun c t (idle : Idle c) spares dead deleted u => ?_) start
  · have inside : t < n := by
      simp only [usersSpared, Bool.and_eq_true, decide_eq_true_eq] at spares
      exact spares.1
    rw [Threads.step_other taken (by omega)]
    exact idle u outside
  · by_cases inside : u < n
    · simp only [usersSpared, Bool.and_eq_true, List.all_eq_true, List.mem_range] at spares
      intro user
      have differs := spares.2 u inside
      simp [user, deleted] at differs
    · rw [idle u (by omega)]
      exact (Option.some_ne_none dead).symm

/-- Call 1 replaces the array, calls 2 and 3 fill the next one together and the calls up to 10 in turn, and call 11
replaces it too. -/
def inTurn : List Nat :=
  List.replicate 19 1 ++ (List.replicate 8 [2, 3]).flatten ++
    (List.range 7).flatMap (fun k => List.replicate 8 (k + 4)) ++ List.replicate 9 11

/-- Call 11 deletes the first version, and no call is about to use its counters. -/
theorem retires_iff_inTurn : ∃ g v c c',
    actions .exact (construct ⟨0, true⟩ (.ofVector [4]) 1 (by decide)) denselyStored = .ok g ∧
      g.vertexIndex.vertexTable[1]? = some v ∧
      Threads.run (nextOf reusing insertions) (initial insertions v g.global) inTurn = some c ∧
      deletes c.shared (c.local' 11) = some 0 ∧
      Threads.run (nextOf reusing insertions) c (List.replicate 10 11) = some c' ∧ c'.shared.chain = [2, 1] ∧
      Threads.Meets (nextOf reusing insertions) Retires (initial insertions v g.global)
        (inTurn ++ List.replicate 10 11) := by
  have evaluated : (do
      let g ← (actions .exact (construct ⟨0, true⟩ (.ofVector [4]) 1 (by decide)) denselyStored).toOption
      let v ← g.vertexIndex.vertexTable[1]?
      let c ← Threads.run (nextOf reusing insertions) (initial insertions v g.global) inTurn
      let c' ← Threads.run (nextOf reusing insertions) c (List.replicate 10 11)
      some (deletes c.shared (c.local' 11), c'.shared.chain, Threads.trace (nextOf reusing insertions)
        (fun c t => if usersSpared 12 c t then none else some t) (initial insertions v g.global) (inTurn ++ List.replicate 10 11))) = some (some 0, [2, 1], []) := by
    decide +kernel
  obtain ⟨g, reached, evaluated⟩ := Option.bind_eq_some_iff.mp evaluated
  obtain ⟨v, at_k, evaluated⟩ := Option.bind_eq_some_iff.mp evaluated
  obtain ⟨c, ran, evaluated⟩ := Option.bind_eq_some_iff.mp evaluated
  obtain ⟨c', ran', evaluated⟩ := Option.bind_eq_some_iff.mp evaluated
  obtain ⟨deleted, chain, spared⟩ := by
    simpa only [Option.some.injEq, Prod.mk.injEq] using evaluated
  have meets : Threads.Meets (nextOf reusing insertions) NoUser (initial insertions v g.global)
      (inTurn ++ List.replicate 10 11) := by
    refine noUser_of_spared (n := 12) (fun _ _ => rfl) (.of_trace (fun c t none => ?_) spared)
    by_contra disturbed
    rw [if_neg disturbed] at none
    cases none
  have reached := toOption_eq_some.mp reached
  exact ⟨g, v, c, c', reached, at_k, ran, deleted, ran', chain, (retires_iff .exact ⟨0, true⟩ (.vector (by decide))
    (by decide) reached at_k g.global insertions_proper).mpr meets⟩

/-- Call 0 loads `src->next` and stalls; calls 1 to 11 replace that array, fill the next one and
replace it too. -/
def stalledTwice : List Nat :=
  [0] ++ List.replicate 19 1 ++ (List.range 9).flatMap (fun k => List.replicate 8 (k + 2)) ++
    List.replicate 9 11

/-- Call 11 deletes the version of call 0, which then adds to the counter in the memory that was
deleted. -/
theorem deleted_in_use : ∃ g v c c',
    actions .exact (construct ⟨0, true⟩ (.ofVector [4]) 1 (by decide)) denselyStored = .ok g ∧
      g.vertexIndex.vertexTable[1]? = some v ∧
      Threads.run (nextOf reusing insertions) (initial insertions v g.global) stalledTwice = some c ∧
      deletes c.shared (c.local' 11) = some 0 ∧ (c.local' 0).uses = some 0 ∧ ¬ Retires c 11 ∧
      Threads.run (nextOf reusing insertions) c [11, 0] = some c' ∧ c'.shared.chain = [2, 1] ∧
      (c'.shared.memory.map WeightedEdgeArray.size).head? = some ((reusing.reused 0).size + 1) := by
  have evaluated : (do
      let g ← (actions .exact (construct ⟨0, true⟩ (.ofVector [4]) 1 (by decide)) denselyStored).toOption
      let v ← g.vertexIndex.vertexTable[1]?
      let c ← Threads.run (nextOf reusing insertions) (initial insertions v g.global) stalledTwice
      let c' ← Threads.run (nextOf reusing insertions) c [11, 0]
      some ((deletes c.shared (c.local' 11), (c.local' 0).uses), c'.shared.chain,
        (c'.shared.memory.map WeightedEdgeArray.size).head?)) =
      some ((some 0, some 0), [2, 1], some ((reusing.reused 0).size + 1)) := by decide +kernel
  obtain ⟨g, reached, evaluated⟩ := Option.bind_eq_some_iff.mp evaluated
  obtain ⟨v, at_k, evaluated⟩ := Option.bind_eq_some_iff.mp evaluated
  obtain ⟨c, ran, evaluated⟩ := Option.bind_eq_some_iff.mp evaluated
  obtain ⟨c', ran', evaluated⟩ := Option.bind_eq_some_iff.mp evaluated
  obtain ⟨⟨deleted, uses⟩, chain, size⟩ := by
    simpa only [Option.some.injEq, Prod.mk.injEq] using evaluated
  refine ⟨g, v, c, c', toOption_eq_some.mp reached, at_k, ran, deleted, uses, fun retires => ?_, ran',
    chain, size⟩
  exact retires.unused 0 deleted 0 (by decide) uses

end OneVertex

end Radix
