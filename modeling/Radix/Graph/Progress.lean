import Radix.Graph.Turns

/-!
# Calls on one vertex go on

Whoever has the lock of the vertex can go on, or waits for the calls that have slots of the current version, and these
wait for nobody.
-/

namespace Radix

open Lib

variable {W : Type} [Zero W] [DecidableEq W]

namespace OneVertex

namespace Pc

omit [DecidableEq W]

def ended : Pc W → Bool
  | .inserted _ _ | .returned _ _ => true
  | _ => false

def wantsLock : Pc W → Bool
  | .lock _ | .enter | .lockLeave _ _ => true
  | _ => false

def needs : Pc W → WeightedEdgeArray W → Prop
  | .checkCap _ i, arr | .unlock _ i, arr => i < arr.size
  | .waitFull _, arr => arr.cap ≤ arr.size
  | .storeStamp _ _ _, arr => arr.timestamp ≠ none
  | .unlockRead _, arr | .loadCount _, arr => arr.edge ≠ none
  | .copySnapshot _ cnt, arr | .clear _ cnt _ _, arr => arr.edge ≠ none ∧ cnt ≤ arr.physicalSize
  | .cut _ i, arr => arr.edge ≠ none ∧ arr.timestamp ≠ none ∧ arr.snapshotDeg ≤ i ∧ i < arr.physicalSize
  | .scan _ cnt i _ _ _, arr => arr.edge ≠ none ∧ i ≤ cnt ∧ cnt ≤ arr.physicalSize
  | _, _ => True

/-- The version that an `Insert` has found full and still has to compare with `src->next`. -/
def outgrown : Pc W → Option Nat
  | .lock p | .compareNext p => some p
  | _ => none

theorem locked_of_ended {pc : Pc W} (ended : pc.ended = true) : pc.locked = false := by
  cases pc <;> first | rfl | cases ended

theorem locked_of_wantsLock {pc : Pc W} (wants : pc.wantsLock = true) : pc.locked = false := by
  cases pc <;> first | rfl | cases wants

theorem place_of_wantsLock {pc : Pc W} (wants : pc.wantsLock = true) : pc.place = none := by
  cases pc <;> first | rfl | cases wants

theorem place_of_ended {pc : Pc W} (ended : pc.ended = true) : pc.finished = true ∨ pc.place = none := by
  cases pc <;> first | exact .inl rfl | exact .inr rfl | cases ended

end Pc

variable {setting : Setting W} {calls : Nat → Request W} {request : Request W} {pcs : Nat → Pc W} {o o' : Origin W}
  {s s' : Source W} {cur cur' arr arr' : WeightedEdgeArray W} {first t u p : Nat} {pc pc' : Pc W} {c c' : State W}

def Unmistaken (setting : Setting W) (c : State W) (t : Nat) : Prop :=
  ∀ p q, c.local' t = .compareNext p → c.shared.chain.head? = some q → setting.address p = setting.address q → p = q

/-- The step deletes no version that a writer will use, and takes no new version for a deleted one. -/
def Undisturbed (setting : Setting W) (c : State W) (t : Nat) : Prop := NoUser c t ∧ Unmistaken setting c t

structure Smooth (calls : Nat → Request W) (first : Nat) (o : Origin W) (cur : WeightedEdgeArray W) (c : State W) :
    Prop where
  accounted : Accounted calls first o cur c
  owned : c.shared.mtx = true → ∃ t, (c.local' t).locked = true
  legible : ∀ p ∈ c.shared.chain, ∃ arr, c.shared.memory[p]? = some arr ∧ (arr.edge ≠ none → Legible arr)
  needs : ∀ t p arr, (c.local' t).uses = some p → c.shared.memory[p]? = some arr → (c.local' t).needs arr
  outgrown : ∀ t p, (c.local' t).outgrown = some p → p ≤ o.head ∧ (p = o.head → cur.cap ≤ cur.size)
  mixed : ∀ t, (calls t).inserting = false → c.shared.info.isMixedWorkloads = true

/-! ## The chain -/

theorem Accounted.present (accounted : Accounted calls first o cur c) (uses : (c.local' t).uses = some p) :
    p ∈ c.shared.chain := by
  obtain rfl | ⟨-, member⟩ | ⟨-, member⟩ := accounted.user uses
  · rw [accounted.sound.chain]
    exact List.mem_cons_self
  · exact member
  · exact member

theorem chain_of_deletes (taken : next setting t request s pc = some (s', pc')) (deleted : deletes s pc = some p) :
    s'.chain = s.chain.erase p := by
  cases pc with
  | retire q =>
      cases taken
      have doomed : s.doomed q = some p := deleted
      have unread : s.unread q = true := by
        by_contra read
        rw [Source.doomed, if_neg read] at doomed
        cases doomed
      rw [Source.retire, if_pos unread, doomed]
      rfl
  | leave q n =>
      cases taken
      rw [deletes] at deleted
      split at deleted
      · rename_i abandoned
        cases deleted
        rw [Source.leave, if_pos abandoned]
        rfl
      · cases deleted
  | _ => cases deleted

theorem Sound.older_before (sound : Sound calls pcs o s cur first) (taken : next setting t request s pc = some (s', pc'))
    (chain : s'.chain = o'.head :: o'.older) (member : p ∈ s'.chain) (old : p ≠ o'.head) :
    p ∈ s.chain ∧ deletes s pc ≠ some p := by
  have nodup : s.chain.Nodup := sound.sorted.imp fun above => above.ne'
  constructor
  · obtain same | longer | ⟨dead, -, shorter⟩ := next_chain taken
    · rwa [← same]
    · rw [longer] at member
      rw [longer] at chain
      exact (List.mem_cons.mp member).resolve_left fun new => old (new.trans (List.cons.inj chain).1)
    · rw [shorter] at member
      exact List.mem_of_mem_erase member
  · intro deleted
    rw [chain_of_deletes taken deleted] at member
    exact nodup.not_mem_erase member

theorem Evolves.head_le (evolves : Evolves calls t o cur o') : o.head ≤ o'.head := by
  cases evolves with
  | same head => exact head.ge
  | drawn head => exact head.ge
  | replaced later => exact later.le

theorem Accounted.head_turns (accounted : Accounted calls first o cur c)
    (taken : next setting t (calls t) c.shared (c.local' t) = some (s', pc')) (same : o'.head = o.head)
    (current : s'.memory[o'.head]? = some cur') : Turns (calls t) (c.local' t) o.head cur cur' := by
  obtain ⟨arr', there, turns⟩ := (next_turns taken).2.2 o.head cur accounted.sound.current
    fun deleted => accounted.obsolete deleted rfl
  rw [same, there] at current
  exact Option.some.inj current ▸ turns

theorem Sound.le_head (sound : Sound calls pcs o s cur first) (member : p ∈ s.chain) : p ≤ o.head := by
  rcases sound.mem_chain member with rfl | older
  · exact le_rfl
  · have sorted := sound.sorted
    rw [sound.chain] at sorted
    exact ((List.pairwise_cons.mp sorted).1 p older).le

theorem Sound.finishing (sound : Sound calls pcs o s cur first) (evolves : Evolves calls t o cur o') {i : Nat}
    (here : pcs t = .bumpPhysical p i) : p = o'.head := by
  have slot := sound.knows t
  rw [here] at slot
  obtain ⟨rfl, k, at_k, -⟩ := slot
  cases evolves with
  | same head => exact head.symm
  | drawn head => exact head.symm
  | replaced _ full =>
      have finished := (sound.layout.full full).2.2 t (List.mem_of_getElem? at_k)
      rw [here] at finished
      cases finished

omit [DecidableEq W] in
theorem Turns.edge_before (turns : Turns request pc p arr arr') (present : arr'.edge ≠ none) : arr.edge ≠ none := by
  cases turns with
  | written i edges here before => exact before ▸ Option.some_ne_none edges
  | freed => exact absurd rfl present
  | _ => exact present

/-! ## What calls rely on -/

omit [DecidableEq W] in
theorem Turns.needs {mine : Pc W} (turns : Turns request pc p arr arr')
    (unfreed : mine.reads ≠ none ∨ (∃ q i x, mine = .storeStamp q i x) → pc = .retire p → arr.threadsRead ≠ 0)
    (needs : mine.needs arr) : mine.needs arr' := by
  have size := turns.size
  have physicalSize := turns.physicalSize
  have cap := turns.cap
  have snapshotDeg := turns.snapshotDeg
  cases mine with
  | checkCap q i | unlock q i => exact Nat.lt_of_lt_of_le needs size
  | waitFull q =>
      unfold Pc.needs at needs ⊢
      omega
  | storeStamp q i x => exact (turns.kept (unfreed (.inr ⟨q, i, x, rfl⟩))).2 needs
  | unlockRead q | loadCount q => exact (turns.kept (unfreed (.inl (Option.some_ne_none q)))).1 needs
  | copySnapshot q cnt | clear q cnt n m =>
      have kept := turns.kept (unfreed (.inl (Option.some_ne_none q)))
      exact ⟨kept.1 needs.1, needs.2.trans physicalSize⟩
  | cut q i =>
      have kept := turns.kept (unfreed (.inl (Option.some_ne_none q)))
      obtain ⟨edges, stamps, above, below⟩ := needs
      exact ⟨kept.1 edges, kept.2 stamps, snapshotDeg ▸ above, Nat.lt_of_lt_of_le below physicalSize⟩
  | scan q cnt i r n m =>
      have kept := turns.kept (unfreed (.inl (Option.some_ne_none q)))
      exact ⟨kept.1 needs.1, needs.2.1, needs.2.2.trans physicalSize⟩
  | _ => trivial

omit [DecidableEq W] in
theorem readable_needs {timestamp : Int} {q : Nat}
    (found : (s.chain.find? fun p => s.memory[p]?.any (·.readableAt timestamp)) = some q)
    (there : s.memory[q]? = some arr) : arr.edge ≠ none := by
  have readable := List.find?_some found
  rw [there, Option.any_some, WeightedEdgeArray.readableAt, Bool.and_eq_true] at readable
  exact Option.isSome_iff_ne_none.mp readable.2

theorem Smooth.needs_of_next (smooth : Smooth calls first o cur c) (unmistaken : Unmistaken setting c t)
    (taken : next setting t (calls t) c.shared (c.local' t) = some (s', pc')) (uses : pc'.uses = some p)
    (there' : s'.memory[p]? = some arr') : pc'.needs arr' := by
  have needs := smooth.needs t
  have sound := smooth.accounted.sound
  cases here : c.local' t <;> rw [here] at taken needs
  case loadNext | reload | allocate =>
    obtain ⟨_, -, ⟨⟩⟩ := Option.map_eq_some_iff.mp taken
    trivial
  case claim q | reclaim q =>
    obtain ⟨arr, there, ⟨⟩⟩ := Option.map_eq_some_iff.mp taken
    cases uses
    rw [modify_at there] at there'
    cases there'
    exact Nat.lt_succ_self arr.size
  case checkCap q i =>
    obtain ⟨arr, -, ⟨⟩⟩ := Option.map_eq_some_iff.mp taken
    split <;> trivial
  case lock | lockLeave | enter =>
    simp only [next] at taken
    split at taken <;> cases taken
    trivial
  case compareNext q =>
    obtain ⟨current, head, ⟨⟩⟩ := Option.map_eq_some_iff.mp taken
    obtain rfl : current = o.head := by
      rw [sound.chain] at head
      exact (Option.some.inj head).symm
    split
    · rename_i same
      rw [if_pos same] at uses
      cases uses
      obtain rfl : cur = arr' := Option.some.inj (sound.current.symm.trans there')
      exact (smooth.outgrown t q (by rw [here]; rfl)).2 (unmistaken q o.head here head same)
    · trivial
  case waitFull q =>
    obtain ⟨_, -, taken⟩ := Option.bind_eq_some_iff.mp taken
    split at taken <;> cases taken
    trivial
  case compact | writeSlot =>
    obtain ⟨_, -, taken⟩ := Option.bind_eq_some_iff.mp taken
    obtain ⟨_, -, ⟨⟩⟩ := Option.map_eq_some_iff.mp taken
    trivial
  case publish | retire | bumpDeg | bumpPhysical | unlockNone | unlockLeave | leave =>
    cases taken
    trivial
  case unlock q i =>
    cases taken
    cases uses
    exact needs p arr' rfl there'
  case drawStamp q i =>
    obtain ⟨arr, there, taken⟩ := Option.map_eq_some_iff.mp taken
    split at taken
    · cases taken
      trivial
    · rename_i stamped
      cases taken
      cases uses
      obtain rfl : arr = arr' := Option.some.inj (there.symm.trans there')
      simpa [Pc.needs] using stamped
  case storeStamp q i x =>
    obtain ⟨_, -, taken⟩ := Option.bind_eq_some_iff.mp taken
    split at taken
    · contradiction
    · obtain ⟨_, -, ⟨⟩⟩ := Option.map_eq_some_iff.mp taken
      trivial
  case select =>
    simp only [next] at taken
    split at taken
    · cases taken
      trivial
    · rename_i q found
      cases taken
      cases uses
      obtain ⟨arr, there, -⟩ := smooth.legible p (List.mem_of_find?_eq_some found)
      have edges : arr.edge ≠ none := readable_needs found there
      rw [modify_at there] at there'
      cases there'
      exact edges
  case unlockRead q =>
    cases taken
    cases uses
    exact needs p arr' rfl there'
  case loadCount q =>
    obtain ⟨arr, there, ⟨⟩⟩ := Option.map_eq_some_iff.mp taken
    have edges := needs q arr rfl there
    split
    · rename_i longer
      split
      · rw [if_pos longer] at uses
        rename_i unstamped
        rw [if_pos unstamped] at uses
        cases uses
        obtain rfl : arr = arr' := Option.some.inj (there.symm.trans there')
        exact ⟨edges, le_rfl, le_rfl⟩
      · rename_i stamped
        rw [if_pos longer, if_neg stamped] at uses
        cases uses
        obtain rfl : arr = arr' := Option.some.inj (there.symm.trans there')
        refine ⟨edges, by simpa using stamped, ?_, ?_⟩ <;> omega
    · rename_i whole
      rw [if_neg whole] at uses
      cases uses
      obtain rfl : arr = arr' := Option.some.inj (there.symm.trans there')
      exact ⟨edges, le_rfl⟩
  case copySnapshot q cnt | clear q cnt n m =>
    obtain ⟨_, -, taken⟩ := Option.bind_eq_some_iff.mp taken
    obtain ⟨_, -, ⟨⟩⟩ := Option.map_eq_some_iff.mp taken
    trivial
  case cut q i =>
    obtain ⟨arr, there, taken⟩ := Option.bind_eq_some_iff.mp taken
    obtain ⟨edges, stamps, above, below⟩ := needs q arr rfl there
    obtain ⟨stamp, -, taken⟩ := Option.bind_eq_some_iff.mp taken
    split at taken
    · cases taken
      cases uses
      obtain rfl : arr = arr' := Option.some.inj (there.symm.trans there')
      exact ⟨edges, le_rfl, below⟩
    · split at taken
      · obtain ⟨_, -, ⟨⟩⟩ := Option.map_eq_some_iff.mp taken
        cases uses
        obtain rfl : arr = arr' := Option.some.inj (there.symm.trans there')
        exact ⟨edges, le_rfl, Nat.zero_le _⟩
      · cases taken
        cases uses
        obtain rfl : arr = arr' := Option.some.inj (there.symm.trans there')
        refine ⟨edges, stamps, ?_, ?_⟩ <;> omega
  case scan q cnt i r n m =>
    cases i with
    | zero =>
        cases taken
        cases uses
        obtain ⟨edges, -, most⟩ := needs p arr' rfl there'
        exact ⟨edges, most⟩
    | succ i =>
        obtain ⟨arr, there, taken⟩ := Option.bind_eq_some_iff.mp taken
        obtain ⟨edges, below, most⟩ := needs q arr rfl there
        obtain ⟨pc, scanned, ⟨⟩⟩ := Option.map_eq_some_iff.mp taken
        have flows : Flows setting c.shared (.scan q cnt (i + 1) r n m) pc' := scanSlot_flows (toOption_eq_some.mp scanned)
        cases flows with
        | scan n' m' =>
            cases uses
            obtain rfl : arr = arr' := Option.some.inj (there.symm.trans there')
            exact ⟨edges, (Nat.le_succ i).trans below, most⟩
        | retry =>
            cases uses
            obtain rfl : arr = arr' := Option.some.inj (there.symm.trans there')
            exact ⟨edges, below, most⟩
  case inserted | returned => contradiction

/-! ## One step -/

theorem Smooth.legible_step (smooth : Smooth calls first o cur c) (proper : Proper setting calls)
    (taken : next setting t (calls t) c.shared (c.local' t) = some (s', pc'))
    (sound' : Sound calls pcs o' s' cur' first) (evolves : Evolves calls t o cur o') :
    ∀ p ∈ s'.chain, ∃ arr, s'.memory[p]? = some arr ∧ (arr.edge ≠ none → Legible arr) := by
  have sound := smooth.accounted.sound
  intro p member
  by_cases old : p = o'.head
  · subst old
    exact ⟨cur', sound'.current, fun _ => sound'.layout.legible⟩
  · obtain ⟨before, spared⟩ := sound.older_before taken sound'.chain member old
    obtain ⟨arr, there, legible⟩ := smooth.legible p before
    obtain ⟨arr', there', turns⟩ := (next_turns taken).2.2 p arr there spared
    refine ⟨arr', there', fun present => ?_⟩
    apply turns.legible (legible (turns.edge_before present))
    · intro inserting
      rw [sound.kinds] at inserting
      exact proper.nonneg t inserting
    · exact fun i here => old (sound.finishing evolves here)

theorem Smooth.needs_step (smooth : Smooth calls first o cur c) (undisturbed : Undisturbed setting c t)
    (taken : next setting t (calls t) c.shared (c.local' t) = some (s', pc')) :
    ∀ u p arr, (Function.update c.local' t pc' u).uses = some p → s'.memory[p]? = some arr →
      (Function.update c.local' t pc' u).needs arr := by
  intro u p arr' uses there'
  by_cases here : u = t
  · subst here
    rw [Function.update_self] at uses ⊢
    exact smooth.needs_of_next undisturbed.2 taken uses there'
  · rw [Function.update_of_ne here] at uses ⊢
    have spared : deletes c.shared (c.local' t) ≠ some p := fun deleted =>
      (smooth.accounted.retires undisturbed.1).unused p deleted u here uses
    obtain ⟨arr, there, -⟩ := smooth.legible p (smooth.accounted.present uses)
    obtain ⟨arr₁, there₁, turns⟩ := (next_turns taken).2.2 p arr there spared
    obtain rfl : arr₁ = arr' := Option.some.inj (there₁.symm.trans there')
    refine turns.needs (fun protected' retiring => ?_) (smooth.needs u p arr uses there)
    -- a version that is being retired is not the current one, so only a reader can be in it
    have replaced := (smooth.accounted.sound.obsolete_retire retiring).1
    rcases protected' with reads | ⟨q, i, x, storing⟩
    · have same : (c.local' u).reads = some p := by
        obtain ⟨q, reads⟩ := Option.ne_none_iff_exists'.mp reads
        cases at_u : c.local' u <;> rw [at_u] at reads uses <;> first | exact uses | cases reads
      exact (smooth.accounted.counted.read same there).ne'
    · have slot := smooth.accounted.sound.knows u
      rw [storing] at slot uses
      cases uses
      exact absurd slot.1.1 replaced

theorem Smooth.outgrown_step (smooth : Smooth calls first o cur c)
    (taken : next setting t (calls t) c.shared (c.local' t) = some (s', pc'))
    (sound' : Sound calls pcs o' s' cur' first) (evolves : Evolves calls t o cur o') :
    ∀ u p, (Function.update c.local' t pc' u).outgrown = some p → p ≤ o'.head ∧ (p = o'.head → cur'.cap ≤ cur'.size) := by
  have sound := smooth.accounted.sound
  have later := evolves.head_le
  have onwards {p : Nat} (before : p ≤ o.head ∧ (p = o.head → cur.cap ≤ cur.size)) :
      p ≤ o'.head ∧ (p = o'.head → cur'.cap ≤ cur'.size) := by
    refine ⟨before.1.trans later, fun same => ?_⟩
    have still : o'.head = o.head := by omega
    have turns := smooth.accounted.head_turns taken still sound'.current
    rw [turns.cap]
    exact (before.2 (same.trans still)).trans turns.size
  intro u p outgrown
  by_cases own : u = t
  · subst own
    rw [Function.update_self] at outgrown
    apply onwards
    have flows := next_flows taken
    generalize here : c.local' u = pc at flows
    cases flows with
    | beyond there above =>
        rename_i q i arr
        cases outgrown
        have drawn := smooth.needs u p arr (by rw [here]; rfl) there
        have known := sound.knows u
        rw [here] at drawn known
        constructor
        · exact sound.le_head known.1
        · rintro rfl
          obtain rfl : cur = arr := Option.some.inj (sound.current.symm.trans there)
          exact above.trans (Nat.le_of_lt drawn)
    | lock => exact smooth.outgrown u p (by rw [here]; exact outgrown)
    | _ => cases outgrown
  · rw [Function.update_of_ne own] at outgrown
    exact onwards (smooth.outgrown u p outgrown)

theorem Smooth.owned_step (smooth : Smooth calls first o cur c)
    (taken : next setting t (calls t) c.shared (c.local' t) = some (s', pc')) (set : s'.mtx = true) :
    ∃ u, (Function.update c.local' t pc' u).locked = true := by
  cases (next_locking taken).1 with
  | acquired _ inside =>
      refine ⟨t, ?_⟩
      rwa [Function.update_self]
  | kept same mtx =>
      obtain ⟨u, inside⟩ := smooth.owned (mtx ▸ set)
      refine ⟨u, ?_⟩
      by_cases own : u = t
      · subst own
        rw [Function.update_self, same, inside]
      · rw [Function.update_of_ne own, inside]
  | released _ _ clear =>
      rw [clear] at set
      cases set

theorem Smooth.step (smooth : Smooth calls first o cur c) (proper : Proper setting calls)
    (undisturbed : Undisturbed setting c t)
    (taken : next setting t (calls t) c.shared (c.local' t) = some (s', pc')) :
    ∃ o' cur', Smooth calls first o' cur' ⟨s', Function.update c.local' t pc'⟩ ∧ Evolves calls t o cur o' := by
  obtain ⟨⟨o', cur', sound', evolves⟩, locks'⟩ :=
    next_arrives proper smooth.accounted.sound smooth.accounted.locks undisturbed.1 taken
  obtain ⟨_, _, accounted'⟩ :=
    smooth.accounted.step proper undisturbed.1 (Threads.step_eq_some.mpr ⟨s', pc', taken, rfl⟩)
  refine ⟨o', cur', ⟨⟨sound', locks', accounted'.counted, accounted'.reading⟩, ?_, ?_, ?_, ?_, fun u reading => ?_⟩, evolves⟩
  · exact smooth.owned_step taken
  · exact smooth.legible_step proper taken sound' evolves
  · exact smooth.needs_step undisturbed taken
  · exact smooth.outgrown_step taken sound' evolves
  · exact (next_turns taken).1.trans (smooth.mixed u reading)

/-! ## Nobody waits in vain -/

theorem Smooth.stuck (smooth : Smooth calls first o cur c) (proper : Proper setting calls)
    (stuck : next setting t (calls t) c.shared (c.local' t) = none) :
    (c.local' t).ended = true ∨ (c.local' t).wantsLock = true ∧ c.shared.mtx = true ∨
      (∃ p, c.local' t = .waitFull p) ∧ ¬ Full cur := by
  have sound := smooth.accounted.sound
  have head : c.shared.chain.head? = some o.head := by rw [sound.chain, List.head?_cons]
  have known := sound.knows t
  have needs := smooth.needs t
  have array {p : Nat} (uses : (c.local' t).uses = some p) := smooth.legible p (smooth.accounted.present uses)
  cases here : c.local' t <;> rw [here] at stuck known needs array
  case loadNext | compareNext | reload =>
    rw [next, head] at stuck
    cases stuck
  case claim p | checkCap p i | allocate p | reclaim p | drawStamp p i | loadCount p =>
    obtain ⟨arr, there, -⟩ := array rfl
    rw [next, there] at stuck
    cases stuck
  case lock p | lockLeave p n =>
    simp only [next] at stuck
    split at stuck
    · rename_i set
      exact .inr (.inl ⟨rfl, set⟩)
    · cases stuck
  case waitFull p =>
    obtain rfl : p = o.head := known
    simp only [next, sound.current, Option.bind_some] at stuck
    split at stuck
    · cases stuck
    · rename_i short
      exact .inr (.inr ⟨⟨o.head, rfl⟩, short⟩)
  case compact p newArray =>
    obtain ⟨rfl, full, m, rfl, room⟩ := known
    have laid := sound.layout.laid (sound.layout.full full).2.2
    obtain ⟨newArr, bitmap', ran, -⟩ := logCompaction_spec laid c.shared.info (proper.clean t) room
    simp only [next, sound.current, Option.bind_some, ran] at stuck
    cases stuck
  case storeStamp p i x =>
    obtain ⟨⟨rfl, k, at_k, rfl⟩, -⟩ := known
    have stamps : cur.timestamp ≠ none := needs o.head cur rfl sound.current
    obtain ⟨ts, present⟩ := Option.ne_none_iff_exists'.mp stamps
    have length := sound.layout.legible.stamps ts present
    have below := (sound.layout.claimed_lt at_k).2
    have boundary := sound.layout.snapshotDeg
    have above : ¬ o.base + k < cur.snapshotDeg := by
      rw [boundary, Origin.base]
      omega
    simp only [next, sound.current, Option.bind_some, if_neg above, WeightedEdgeArray.storeStamp, present] at stuck
    rw [if_pos (by omega)] at stuck
    cases stuck
  case writeSlot p i =>
    obtain ⟨rfl, k, at_k, rfl⟩ := known
    have below := (sound.layout.claimed_lt at_k).2
    obtain ⟨length, -⟩ := sound.layout.legible.edges _ sound.layout.edge
    simp only [next, sound.current, Option.bind_some, WeightedEdgeArray.store, sound.layout.edge] at stuck
    rw [if_pos (by omega)] at stuck
    cases stuck
  case enter =>
    have reading : (calls t).inserting = false := by
      rw [← sound.kinds, here]
      rfl
    simp only [next] at stuck
    split at stuck
    · cases stuck
    · rename_i blocked
      refine .inr (.inl ⟨rfl, ?_⟩)
      simpa [smooth.mixed t reading] using blocked
  case select =>
    simp only [next] at stuck
    split at stuck <;> cases stuck
  case copySnapshot p cnt =>
    obtain ⟨arr, there, legible⟩ := array rfl
    obtain ⟨edges, most⟩ := needs p arr rfl there
    obtain ⟨copied, ran⟩ := (legible edges).copySnapshot edges (most.trans (legible edges).filled)
    simp only [next, there, Option.bind_some, ran] at stuck
    cases stuck
  case cut p i =>
    obtain ⟨arr, there, legible⟩ := array rfl
    obtain ⟨edges, stamps, above, below⟩ := needs p arr rfl there
    have filled := (legible edges).filled
    obtain ⟨copied, ran⟩ := (legible edges).copySnapshot edges ((legible edges).counted.trans filled)
    simp only [next, there, Option.bind_some, ran] at stuck
    obtain unset | ⟨x, stamp⟩ := (legible edges).stamp (i := i - arr.snapshotDeg) stamps (by omega)
    · simp only [unset, Option.bind_some] at stuck
      split at stuck
      · cases stuck
      · split at stuck <;> cases stuck
    · simp only [stamp, Option.bind_some] at stuck
      split at stuck
      · cases stuck
      · split at stuck <;> cases stuck
  case scan p cnt i r n m =>
    cases i with
    | zero => cases stuck
    | succ i =>
        obtain ⟨arr, there, legible⟩ := array rfl
        obtain ⟨edges, below, most⟩ := needs p arr rfl there
        have filled := (legible edges).filled
        obtain ⟨pc, ran⟩ := (legible edges).scanSlot edges (show i < arr.cap by omega) p cnt r n m
        simp only [next, there, Option.bind_some, ran] at stuck
        cases stuck
  case clear p cnt n m =>
    obtain ⟨arr, there, legible⟩ := array rfl
    obtain ⟨edges, most⟩ := needs p arr rfl there
    have counted := (legible edges).counted
    have filled := (legible edges).filled
    obtain ⟨marks, ran⟩ := (legible edges).clearMarks edges
      (show arr.snapshotDeg + (cnt - arr.snapshotDeg) ≤ arr.cap by omega) m
    simp only [next, there, Option.bind_some, ran] at stuck
    cases stuck
  case inserted | returned => exact .inl rfl
  all_goals cases stuck

theorem Smooth.fills (smooth : Smooth calls first o cur c) (proper : Proper setting calls)
    (here : c.local' t = .waitFull p) (short : ¬ Full cur) :
    ∃ u i, Threads.step (nextOf setting calls) c u ≠ none ∧ (c.local' u).place = some (o.head, i) := by
  have sound := smooth.accounted.sound
  have layout := sound.layout
  obtain rfl : p = o.head := by
    have known := sound.knows t
    rwa [here] at known
  have drawn : cur.cap ≤ cur.size := by
    have needs := smooth.needs t o.head cur (by rw [here]; rfl) sound.current
    rwa [here] at needs
  have size := layout.size
  have count := layout.physicalSize
  rw [Nat.min_eq_right drawn] at size
  have some_open : ¬ ∀ u ∈ o.claims, (c.local' u).finished = true := by
    intro all
    rw [List.countP_eq_length.mpr all, size] at count
    exact short count
  obtain ⟨u, claimed, unfinished⟩ := by simpa using some_open
  obtain ⟨k, at_k⟩ := List.mem_iff_getElem?.mp claimed
  have placed := layout.placed k u at_k
  refine ⟨u, o.base + k, fun blocked => ?_, placed⟩
  rw [Threads.step_eq_none] at blocked
  obtain ended | ⟨wants, -⟩ | ⟨⟨q, waiting⟩, -⟩ := smooth.stuck proper blocked
  · cases Pc.place_of_ended ended with
    | inl finished =>
        rw [unfinished] at finished
        cases finished
    | inr nowhere =>
        rw [nowhere] at placed
        cases placed
  · rw [Pc.place_of_wantsLock wants] at placed
    cases placed
  · rw [waiting] at placed
    cases placed

theorem Smooth.goes_on (smooth : Smooth calls first o cur c) (proper : Proper setting calls)
    (unended : (c.local' t).ended = false) :
    ∃ u, Threads.step (nextOf setting calls) c u ≠ none ∧
      (u = t ∨ (c.local' u).locked = true ∨ ∃ i, (c.local' u).place = some (o.head, i)) := by
  by_cases moves : nextOf setting calls t c.shared (c.local' t) = none
  · rcases smooth.stuck proper moves with ended | ⟨-, set⟩ | ⟨⟨p, waiting⟩, short⟩
    · rw [unended] at ended
      cases ended
    · obtain ⟨u, inside⟩ := smooth.owned set
      by_cases goes : nextOf setting calls u c.shared (c.local' u) = none
      · rcases smooth.stuck proper goes with ended | ⟨wants, -⟩ | ⟨⟨p, waiting⟩, short⟩
        · rw [Pc.locked_of_ended ended] at inside
          cases inside
        · rw [Pc.locked_of_wantsLock wants] at inside
          cases inside
        · obtain ⟨w, i, stepping, placed⟩ := smooth.fills proper waiting short
          exact ⟨w, stepping, .inr (.inr ⟨i, placed⟩)⟩
      · exact ⟨u, fun blocked => goes (Threads.step_eq_none.mp blocked), .inr (.inl inside)⟩
    · obtain ⟨w, i, stepping, placed⟩ := smooth.fills proper waiting short
      exact ⟨w, stepping, .inr (.inr ⟨i, placed⟩)⟩
  · exact ⟨t, fun blocked => moves (Threads.step_eq_none.mp blocked), .inl rfl⟩

end OneVertex

end Radix
