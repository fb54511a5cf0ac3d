import Mathlib.Data.Finset.Card
import Radix.Graph.Progress

/-!
# How often an array is replaced

Every slot that is drawn belongs to a call of its own, and of two versions in a row one at least has free slots when it
is published. So the calls bound the number of versions, and the versions bound the steps of a call.
-/

namespace Radix

open Lib Lib.LastWrite

variable {W : Type} [Zero W] [DecidableEq W]

namespace OneVertex

variable {setting : Setting W} {calls : Nat → Request W} {request : Request W} {pcs : Nat → Pc W} {o o' : Origin W}
  {s s' : Source W} {cur cur' arr arr' : WeightedEdgeArray W} {first m t u p : Nat} {pc pc' : Pc W} {c c' : State W}
  {drawn drawn' : List Nat}

theorem compacted_length_le (arr : WeightedEdgeArray W) (snap log : List (WeightedEdge W)) :
    (compacted arr snap log).length ≤ snap.length + log.length := by
  rw [compacted]
  split
  · rw [List.length_append]
  · exact scan_length_le snap log

omit [DecidableEq W] in
theorem inserting_of_place {i : Nat} (place : pc.place = some (p, i)) : pc.inserting = true := by
  cases pc <;> first | rfl | cases place

/-! ## Versions -/

structure Tally (first m : Nat) (o : Origin W) (cur : WeightedEdgeArray W) (c : State W) (drawn : List Nat) : Prop where
  filled : Filled c.local' o drawn
  numbered : c.shared.memory.length = o.head + 1
  versions : o.head + 2 * o.claims.length ≤ first + 2 * drawn.length + 1 + if o.base < cur.cap then 1 else 0
  size : o.base + o.claims.length ≤ m + drawn.length
  copied : first < o.head → o.log = [] ∧ o.deg = o.snap.length
  roomy : ∀ t p newArray, c.local' t = .compact p newArray ∨ c.local' t = .publish p newArray → first < o.head →
    cur.cap ≤ o.base → o.base < newArray.cap
  short : ∀ p ∈ c.shared.chain, ∀ arr, c.shared.memory[p]? = some arr → arr.edge ≠ none →
    arr.physicalSize ≤ m + drawn.length

namespace Tally

omit [DecidableEq W] in
theorem head_le (tally : Tally first m o cur c drawn) : o.head ≤ first + 2 * drawn.length + 2 := by
  have versions := tally.versions
  split at versions <;> omega

theorem whole (tally : Tally first m o cur c drawn) (layout : Layout calls c.local' o cur) (later : first < o.head)
    (none : cur.cap ≤ o.base) : cur.deg = o.base ∧ cur.physicalSize = o.base ∧ o.claims = [] ∧
      compacted cur o.snap (o.entries calls) = o.snap := by
  obtain ⟨log, deg⟩ := tally.copied later
  have room := layout.room
  have unclaimed : o.claims = [] := List.eq_nil_of_length_eq_zero (by omega)
  have base : o.base = o.snap.length := by rw [Origin.base, log, List.length_nil, Nat.add_zero]
  have count : cur.deg = o.base := by
    rw [layout.deg, unclaimed, deg, base]
    rfl
  have size : cur.physicalSize = o.base := by
    rw [layout.physicalSize, unclaimed]
    rfl
  refine ⟨count, size, unclaimed, ?_⟩
  rw [compacted, if_pos (by rw [count, size]), Origin.entries, log, unclaimed]
  exact List.append_nil _

theorem roomy_of_next (tally : Tally first m o cur c drawn) (smooth : Smooth calls first o cur c)
    (proper : Proper setting calls) (taken : next setting t (calls t) c.shared (c.local' t) = some (s', pc'))
    {newArray : WeightedEdgeArray W} (prepares : pc' = .compact p newArray ∨ pc' = .publish p newArray)
    (later : first < o.head) (none : cur.cap ≤ o.base) : o.base < newArray.cap := by
  have sound := smooth.accounted.sound
  have known := sound.knows t
  have flows := next_flows taken
  generalize here : c.local' t = pc at flows known taken
  cases flows with
  | allocate a =>
      obtain rfl : a = newArray := by
        rcases prepares with same | other
        · exact (Pc.compact.inj same).2
        · cases other
      obtain rfl := known.1
      obtain ⟨arr, there, allocated⟩ := Option.map_eq_some_iff.mp taken
      obtain rfl : cur = arr := Option.some.inj (sound.current.symm.trans there)
      cases allocated
      have enough := setting.platform.capacity_ge (max cur.deg 0).toNat (cur.size - cur.cap + 1) proper.rate
      have deg := (tally.whole sound.layout later none).1
      change o.base < setting.platform.capacity _ _ _
      omega
  | compact a =>
      obtain rfl : a = newArray := by
        rcases prepares with other | same
        · cases other
        · exact (Pc.publish.inj same).2
      rename_i before
      have room := tally.roomy t _ before (.inl here) later none
      obtain ⟨rfl, full, n, rfl, fits⟩ := known
      obtain ⟨arr, there, taken⟩ := Option.bind_eq_some_iff.mp taken
      obtain rfl : cur = arr := Option.some.inj (sound.current.symm.trans there)
      obtain ⟨result, ran, compacted⟩ := Option.map_eq_some_iff.mp taken
      cases compacted
      have laid := sound.layout.laid (sound.layout.full full).2.2
      obtain ⟨newArr, bitmap', compaction, -, -, -, -, -, -, cap⟩ :=
        logCompaction_spec laid c.shared.info (proper.clean t) fits
      obtain rfl : _ = result := Except.ok.inj (compaction.symm.trans (toOption_eq_some.mp ran))
      exact Nat.lt_of_lt_of_le room cap
  | _ => rcases prepares with other | other <;> cases other

omit [DecidableEq W] in
theorem size_stay (tally : Tally first m o cur c drawn) (base : o'.base = o.base)
    (more : o'.claims.length + drawn.length = o.claims.length + drawn'.length) :
    o'.base + o'.claims.length ≤ m + drawn'.length := by
  have size := tally.size
  omega

theorem short_step (tally : Tally first m o cur c drawn) (smooth : Smooth calls first o cur c)
    (taken : next setting t (calls t) c.shared (c.local' t) = some (s', pc'))
    (sound' : Sound calls (Function.update c.local' t pc') o' s' cur' first) (evolves : Evolves calls t o cur o')
    (size : o'.base + o'.claims.length ≤ m + drawn'.length) (longer : drawn.length ≤ drawn'.length) :
    ∀ p ∈ s'.chain, ∀ arr, s'.memory[p]? = some arr → arr.edge ≠ none → arr.physicalSize ≤ m + drawn'.length := by
  have sound := smooth.accounted.sound
  intro p member arr' there' present
  by_cases old : p = o'.head
  · subst old
    obtain rfl : cur' = arr' := Option.some.inj (sound'.current.symm.trans there')
    have few := List.countP_le_length (p := fun u => (Function.update c.local' t pc' u).finished) (l := o'.claims)
    rw [sound'.layout.physicalSize]
    omega
  · obtain ⟨before, spared⟩ := sound.older_before taken sound'.chain member old
    obtain ⟨arr, there, -⟩ := smooth.legible p before
    obtain ⟨arr₁, there₁, turns⟩ := (next_turns taken).2.2 p arr there spared
    obtain rfl : arr₁ = arr' := Option.some.inj (there₁.symm.trans there')
    rw [turns.physicalSize_eq fun i here => old (sound.finishing evolves here)]
    exact (tally.short p before arr there (turns.edge_before present)).trans (Nat.add_le_add_left longer m)

theorem stay (tally : Tally first m o cur c drawn) (smooth : Smooth calls first o cur c)
    (proper : Proper setting calls) (taken : next setting t (calls t) c.shared (c.local' t) = some (s', pc'))
    (sound' : Sound calls (Function.update c.local' t pc') o' s' cur' first) (evolves : Evolves calls t o cur o')
    (head : o'.head = o.head) (base : o'.base = o.base) (log : o'.log = o.log) (snap : o'.snap = o.snap) (deg : o'.deg = o.deg)
    (more : o'.claims.length + drawn.length = o.claims.length + drawn'.length) (longer : drawn.length ≤ drawn'.length)
    (filled : Filled (Function.update c.local' t pc') o' drawn') :
    Tally first m o' cur' ⟨s', Function.update c.local' t pc'⟩ drawn' where
  filled := filled
  numbered := by
    have publishing := (next_turns taken).2.1
    have chain := sound'.chain
    generalize c.local' t = pc at publishing
    cases publishing with
    | published p newArray memory longer =>
        have new := chain.symm.trans longer
        have numbered := tally.numbered
        rw [List.cons.injEq] at new
        omega
    | kept memory => rw [memory, head, tally.numbered]
  versions := by
    have versions := tally.versions
    rw [head, base, (smooth.accounted.head_turns taken head sound'.current).cap]
    omega
  size := tally.size_stay base more
  copied later := by
    rw [log, deg, snap]
    exact tally.copied (head ▸ later)
  roomy u p newArray prepares later none := by
    rw [base] at none ⊢
    rw [head] at later
    rw [(smooth.accounted.head_turns taken head sound'.current).cap] at none
    dsimp only at prepares
    by_cases own : u = t
    · subst own
      rw [Function.update_self] at prepares
      exact tally.roomy_of_next smooth proper taken prepares later none
    · rw [Function.update_of_ne own] at prepares
      exact tally.roomy u p newArray prepares later none
  short := tally.short_step smooth taken sound' evolves (tally.size_stay base more) longer

theorem published (tally : Tally first m o cur c drawn)
    (taken : next setting t (calls t) c.shared (c.local' t) = some (s', pc'))
    (sound' : Sound calls (Function.update c.local' t pc') o' s' cur' first) (later : o.head < o'.head) :
    o'.head = o.head + 1 ∧ s'.memory.length = o.head + 2 ∧ (∃ p, pc' = .retire p) ∧
      ∃ p, c.local' t = .publish p cur' := by
  have publishing := (next_turns taken).2.1
  have flows := next_flows taken
  have chain := sound'.chain
  have current := sound'.current
  have allocated := sound'.allocated
  have numbered := tally.numbered
  generalize c.local' t = pc at publishing flows
  cases publishing with
  | published p newArray memory longer =>
      have new : s'.memory.length = c.shared.memory.length + 1 := by
        rw [memory, List.length_append, List.length_singleton]
      rw [chain] at longer
      have head := (List.cons.inj longer).1
      rw [head, memory, List.getElem?_append_right le_rfl, Nat.sub_self] at current
      obtain rfl : newArray = cur' := Option.some.inj current
      refine ⟨by omega, by omega, ?_, p, rfl⟩
      cases flows
      exact ⟨p, rfl⟩
  | kept memory => omega

theorem replace (tally : Tally first m o cur c drawn) (smooth : Smooth calls first o cur c)
    (taken : next setting t (calls t) c.shared (c.local' t) = some (s', pc'))
    (sound' : Sound calls (Function.update c.local' t pc') o' s' cur' first) (evolves : Evolves calls t o cur o')
    (later : o.head < o'.head) (full : Full cur) (snap : o'.snap = compacted cur o.snap (o.entries calls))
    (log : o'.log = []) (deg : o'.deg = o'.snap.length) (claims : o'.claims = [])
    (filled : Filled (Function.update c.local' t pc') o' drawn) :
    Tally first m o' cur' ⟨s', Function.update c.local' t pc'⟩ drawn := by
  have sound := smooth.accounted.sound
  obtain ⟨head, length, ⟨p, retiring⟩, q, here⟩ := tally.published taken sound' later
  have versions := tally.versions
  have size := tally.size
  have room := (sound.layout.full full).1
  have shorter := compacted_length_le cur o.snap (o.entries calls)
  have entries : (o.entries calls).length = o.log.length + o.claims.length := by simp [Origin.entries]
  have base' : o'.base = (compacted cur o.snap (o.entries calls)).length := by
    rw [Origin.base, log, snap, List.length_nil, Nat.add_zero]
  have fewer : o'.base + o'.claims.length ≤ m + drawn.length := by
    rw [claims, base', List.length_nil]
    rw [Origin.base] at size
    omega
  constructor
  · exact filled
  · rw [length, head]
  · rw [head, claims, List.length_nil]
    by_cases free : o.base < cur.cap
    · rw [if_pos free] at versions
      omega
    · rw [if_neg free] at versions
      by_cases started : first < o.head
      · have none : cur.cap ≤ o.base := Nat.le_of_not_lt free
        obtain ⟨-, -, -, same⟩ := tally.whole sound.layout started none
        obtain ⟨earlier, -⟩ := tally.copied started
        have base : o.base = o.snap.length := by rw [Origin.base, earlier, List.length_nil, Nat.add_zero]
        have larger := tally.roomy t q cur' (.inr here) started none
        rw [if_pos (by rw [base', same, ← base]; exact larger)]
        omega
      · have begun := sound.begun
        omega
  · exact fewer
  · exact fun _ => ⟨log, deg⟩
  · intro u r newArray prepares
    exfalso
    dsimp only at prepares
    have inside : (Function.update c.local' t pc' u).locked = true := by
      rcases prepares with same | same <;> rw [same] <;> rfl
    by_cases own : u = t
    · subst own
      rw [Function.update_self, retiring] at prepares
      rcases prepares with other | other <;> cases other
    · rw [Function.update_of_ne own] at inside
      apply own
      apply smooth.accounted.locks.one u t inside
      rw [here]
      rfl
  · exact tally.short_step smooth taken sound' evolves fewer le_rfl

theorem step (tally : Tally first m o cur c drawn) (smooth : Smooth calls first o cur c) (proper : Proper setting calls)
    (taken : next setting t (calls t) c.shared (c.local' t) = some (s', pc'))
    (sound' : Sound calls (Function.update c.local' t pc') o' s' cur' first) (evolves : Evolves calls t o cur o') :
    ∃ drawn', Tally first m o' cur' ⟨s', Function.update c.local' t pc'⟩ drawn' ∧
      ∀ u ∈ drawn', u ∈ drawn ∨ u = t ∧ (calls t).inserting = true := by
  have filled := tally.filled.step smooth.accounted.sound (next_unfinished taken) (next_storing taken) evolves
  cases id evolves with
  | same head snap log deg claims =>
      rw [if_neg fun new => new.2 (claims ▸ new.1)] at filled
      refine ⟨drawn, ?_, fun u member => .inl member⟩
      apply tally.stay smooth proper taken sound' evolves head _ log snap deg _ le_rfl filled
      · rw [Origin.base, snap, log, Origin.base]
      · rw [claims]
  | drawn head snap log deg claims fresh =>
      have inside : t ∈ o'.claims := by simp [claims]
      rw [if_pos ⟨inside, fresh⟩] at filled
      refine ⟨drawn ++ [t], ?_, fun u member => ?_⟩
      · apply tally.stay smooth proper taken sound' evolves head _ log snap deg _ _ filled
        · rw [Origin.base, snap, log, Origin.base]
        · rw [claims, List.length_append, List.length_append]
          omega
        · rw [List.length_append]
          omega
      · rcases List.mem_append.mp member with old | new
        · exact .inl old
        · refine .inr ⟨List.mem_singleton.mp new, ?_⟩
          obtain ⟨k, at_k⟩ := List.mem_iff_getElem?.mp inside
          have placed := sound'.layout.placed k t at_k
          rw [← sound'.kinds t]
          exact inserting_of_place placed
  | replaced later full snap log deg claims =>
      rw [if_neg fun new => by
        rw [claims] at new
        cases new.1] at filled
      exact ⟨drawn, tally.replace smooth taken sound' evolves later full snap log deg claims filled,
        fun u member => .inl member⟩

end Tally

/-! ## Steps -/

/-- The steps that are left of a call, with `latest` the greatest number that a version can have, `head` that of the
current one, and `slots` the most entries that a version holds. -/
def Pc.left (latest slots head : Nat) : Pc W → Nat
  | .loadNext => 11 * (latest - head) + 13
  | .claim p => 11 * (latest - p) + 12
  | .checkCap p _ => 11 * (latest - p) + 11
  | .lock p => 11 * (latest - p) + 10
  | .compareNext p => 11 * (latest - p) + 9
  | .waitFull p => 11 * (latest - p) + 8
  | .allocate p => 11 * (latest - p) + 7
  | .compact p _ => 11 * (latest - p) + 6
  | .publish p _ => 11 * (latest - p) + 5
  | .retire p => 11 * (latest - p) + 4
  | .reload => 11 * (latest - head) + 14
  | .reclaim p => 11 * (latest - p) + 13
  | .unlock p _ => 11 * (latest - p) + 12
  | .drawStamp _ _ => 5
  | .storeStamp _ _ _ => 4
  | .bumpDeg _ _ => 3
  | .writeSlot _ _ => 2
  | .bumpPhysical _ _ => 1
  | .inserted _ _ => 0
  | .enter => 10002 * slots + 10
  | .select => 10002 * slots + 9
  | .unlockRead _ => 10002 * slots + 8
  | .loadCount _ => 10002 * slots + 7
  | .cut _ i => 10002 * i + 10008
  | .scan _ _ 0 _ _ _ => 5
  | .scan _ _ (i + 1) retryCount _ _ => 10001 * i + (10000 - retryCount) + 6
  | .copySnapshot _ _ | .clear _ _ _ _ => 4
  | .lockLeave _ _ => 3
  | .leave _ _ => 2
  | .unlockLeave _ | .unlockNone => 1
  | .returned _ _ => 0

omit [DecidableEq W] in
theorem left_scan_start (latest slots head p cnt i : Nat) (n : List (WeightedEdge W)) (marks : SegmentedBitmap) :
    (Pc.scan p cnt i 0 n marks).left latest slots head = 10001 * i + 5 := by
  cases i with
  | zero => rfl
  | succ i =>
      simp only [Pc.left]
      omega

omit [DecidableEq W] in
theorem left_mono {latest slots head head' : Nat} (later : head ≤ head') (pc : Pc W) :
    pc.left latest slots head' ≤ pc.left latest slots head := by
  cases pc with
  | loadNext | reload =>
      simp only [Pc.left]
      omega
  | scan p cnt i r n marks => cases i <;> exact le_rfl
  | _ => exact le_rfl

theorem left_of_next {latest slots : Nat} (tally : Tally first m o cur c drawn) (smooth : Smooth calls first o cur c)
    (unmistaken : Unmistaken setting c t) (below : o'.head ≤ latest) (later : o.head ≤ o'.head)
    (enough : m + drawn.length ≤ slots)
    (taken : next setting t (calls t) c.shared (c.local' t) = some (s', pc')) :
    pc'.left latest slots o'.head < (c.local' t).left latest slots o.head := by
  have sound := smooth.accounted.sound
  have head : c.shared.chain.head? = some o.head := by rw [sound.chain, List.head?_cons]
  have known := sound.knows t
  have outgrown := smooth.outgrown t
  have needs := smooth.needs t
  have reading := smooth.accounted.reading t
  have flows := next_flows taken
  have fits {p : Nat} {arr : WeightedEdgeArray W} (reads : (c.local' t).reads = some p)
      (there : c.shared.memory[p]? = some arr) (present : arr.edge ≠ none) : arr.physicalSize ≤ slots :=
    (tally.short p (reading p reads) arr there present).trans enough
  generalize here : c.local' t = pc at flows known outgrown needs fits
  cases flows with
  | loadNext there =>
      obtain rfl := Option.some.inj (head.symm.trans there)
      simp only [Pc.left]
      omega
  | reload there =>
      obtain rfl := Option.some.inj (head.symm.trans there)
      simp only [Pc.left]
      omega
  | current there same =>
      have equal := unmistaken _ _ here there same
      simp only [Pc.left]
      omega
  | replaced there other =>
      rename_i p q
      have before := (outgrown p rfl).1
      have less : p ≠ o.head := fun same => other (by rw [same, Option.some.inj (head.symm.trans there)])
      simp only [Pc.left]
      omega
  | retire =>
      obtain ⟨older, split⟩ := known
      have sorted := sound.sorted
      rw [sound.chain, split] at sorted
      have before := (List.pairwise_cons.mp sorted).1 _ List.mem_cons_self
      simp only [Pc.left]
      omega
  | loadScan marks there =>
      have few := fits rfl there (needs _ _ rfl there)
      rw [left_scan_start]
      simp only [Pc.left]
      omega
  | loadCut there longer =>
      have few := fits rfl there (needs _ _ rfl there)
      simp only [Pc.left]
      omega
  | cutBelow there other =>
      have above := (needs _ _ rfl there).2.2.1
      simp only [Pc.left]
      omega
  | cutHere | scan =>
      rw [left_scan_start]
      simp only [Pc.left]
      omega
  | _ =>
      simp only [Pc.left]
      omega

/-! ## Runs -/

variable {v : Vertex W} {head : WeightedEdgeArray W} {snap log : List (WeightedEdge W)} {stamps : Option (List Int)}
  {info : GlobalInfo} {schedule : List Nat} {T : Finset Nat}

def found (v : Vertex W) (head : WeightedEdgeArray W) (snap log : List (WeightedEdge W)) (stamps : Option (List Int)) :
    Origin W :=
  ⟨v.next.length - 1, (List.range (v.next.length - 1)).reverse, snap, log, stamps, head.deg, [], fun _ => 0⟩

omit [DecidableEq W] in
theorem start_outside (request : Request W) : request.start.uses = none ∧ request.start.reads = none ∧
    request.start.outgrown = none ∧ request.start.locked = false ∧ request.start.finished = false := by
  cases request <;> exact ⟨rfl, rfl, rfl, rfl, rfl⟩

omit [DecidableEq W] in
theorem initial_array (calls : Nat → Request W) (info : GlobalInfo) (stored : Stored v.next head snap log stamps)
    (member : p ∈ (initial calls v info).shared.chain) :
    ∃ arr, (initial calls v info).shared.memory[p]? = some arr ∧ (arr.edge ≠ none → arr = head) := by
  obtain ⟨older, chain, retired⟩ := stored.chain
  have below : p < v.next.length := List.mem_range.mp (List.mem_reverse.mp member)
  refine ⟨v.next[v.next.length - 1 - p], ?_, fun edges => ?_⟩
  · change v.next.reverse[p]? = _
    rw [List.getElem?_reverse below, List.getElem?_eq_getElem]
  · have inside := List.getElem_mem (l := v.next) (n := v.next.length - 1 - p) (by omega)
    generalize v.next[v.next.length - 1 - p] = arr at inside edges
    rw [chain, List.mem_cons] at inside
    exact inside.resolve_right fun old => edges (retired arr old).1

theorem initial_smooth (stored : Stored v.next head snap log stamps) (recent : head.snapshotTimestamp ≤ maxTimestamp)
    (dated : ∀ ts, stamps = some ts → ∀ x ∈ ts, x ≤ maxTimestamp)
    (mixed : ∀ t, (calls t).inserting = false → info.isMixedWorkloads = true) :
    Smooth calls (v.next.length - 1) (found v head snap log stamps) head (initial calls v info) := by
  have sound := initial_sound stored recent dated calls info
  have unread (t p : Nat) : ((initial calls v info).local' t).reads ≠ some p := fun reads => by
    cases (start_outside (calls t)).2.1.symm.trans reads
  constructor
  · exact ⟨sound, initial_locks calls v info, ⟨fun p arr _ => ⟨[], List.nodup_nil, fun r reads =>
      absurd reads (unread r p), Nat.zero_le _⟩, fun r p reads => absurd reads (unread r p)⟩,
      fun r p reads => absurd reads (unread r p)⟩
  · exact nofun
  · intro p member
    obtain ⟨arr, there, same⟩ := initial_array calls info stored member
    exact ⟨arr, there, fun edges => same edges ▸ sound.layout.legible⟩
  · intro t p arr uses
    cases (start_outside (calls t)).1.symm.trans uses
  · intro t p outgrown
    cases (start_outside (calls t)).2.2.1.symm.trans outgrown
  · exact mixed

omit [DecidableEq W] in
theorem initial_tally (calls : Nat → Request W) (info : GlobalInfo) (stored : Stored v.next head snap log stamps) :
    Tally (v.next.length - 1) head.physicalSize (found v head snap log stamps) head (initial calls v info) [] := by
  constructor
  · refine ⟨List.nodup_nil, nofun, nofun, fun t finished => ?_⟩
    cases (start_outside (calls t)).2.2.2.2.symm.trans finished
  · obtain ⟨older, chain, -⟩ := stored.chain
    change v.next.reverse.length = v.next.length - 1 + 1
    rw [List.length_reverse, chain, List.length_cons]
    rfl
  · exact Nat.le_add_right_of_le (Nat.le_succ _)
  · exact stored.laid.physicalSize.ge
  · exact fun later => absurd later (Nat.lt_irrefl _)
  · intro t p newArray prepares
    have outside : ((initial calls v info).local' t).locked = false := (start_outside (calls t)).2.2.2.1
    rcases prepares with here | here <;> rw [here] at outside <;> cases outside
  · intro p member arr there edges
    obtain ⟨arr₁, there₁, same⟩ := initial_array calls info stored member
    obtain rfl : arr₁ = arr := Option.some.inj (there₁.symm.trans there)
    rw [same edges]
    rfl

def Going (calls : Nat → Request W) (first m : Nat) (T : Finset Nat) (c : State W) : Prop :=
  ∃ o cur drawn, Smooth calls first o cur c ∧ Tally first m o cur c drawn ∧ ∀ u ∈ drawn, u ∈ T

def stepsLeft (first m : Nat) (T : Finset Nat) (c : State W) (t : Nat) : Nat :=
  (c.local' t).left (first + 2 * T.card + 2) (m + T.card) (c.shared.chain.headD 0)

theorem Smooth.stepsLeft (smooth : Smooth calls first o cur c) (t : Nat) :
    stepsLeft first m T c t = (c.local' t).left (first + 2 * T.card + 2) (m + T.card) o.head := by
  rw [OneVertex.stepsLeft, smooth.accounted.sound.chain, List.headD_cons]

omit [DecidableEq W] in
theorem Tally.length_le (tally : Tally first m o cur c drawn) (inside : ∀ u ∈ drawn, u ∈ T) :
    drawn.length ≤ T.card := by
  rw [← List.toFinset_card_of_nodup tally.filled.nodup]
  exact Finset.card_le_card fun u member => inside u (List.mem_toFinset.mp member)

theorem Going.step (going : Going calls first m T c) (proper : Proper setting calls)
    (undisturbed : Undisturbed setting c t) (inserts : (calls t).inserting = true → t ∈ T)
    (taken : Threads.step (nextOf setting calls) c t = some c') :
    Going calls first m T c' ∧ stepsLeft first m T c' t < stepsLeft first m T c t ∧
      ∀ u, u ≠ t → stepsLeft first m T c' u ≤ stepsLeft first m T c u := by
  obtain ⟨o, cur, drawn, smooth, tally, inside⟩ := going
  obtain ⟨s', pc', moved, rfl⟩ := Threads.step_eq_some.mp taken
  obtain ⟨o', cur', smooth', evolves⟩ := smooth.step proper undisturbed moved
  obtain ⟨drawn', tally', more⟩ := tally.step smooth proper moved smooth'.accounted.sound evolves
  have inside' : ∀ u ∈ drawn', u ∈ T := by
    intro u member
    rcases more u member with old | ⟨rfl, inserting⟩
    · exact inside u old
    · exact inserts inserting
  have few := tally.length_le inside
  have few' := tally'.length_le inside'
  have last := tally'.head_le
  refine ⟨⟨o', cur', drawn', smooth', tally', inside'⟩, ?_, fun u other => ?_⟩
  · rw [smooth.stepsLeft, smooth'.stepsLeft]
    dsimp only
    rw [Function.update_self]
    apply left_of_next tally smooth undisturbed.2 _ evolves.head_le _ moved
    · omega
    · omega
  · rw [smooth.stepsLeft, smooth'.stepsLeft]
    dsimp only
    rw [Function.update_of_ne other]
    exact left_mono evolves.head_le _

structure Finishing (setting : Setting W) (calls : Nat → Request W) (v : Vertex W) (T : Finset Nat)
    (schedule : List Nat) (c : State W) : Prop where
  inserts : ∀ t, (calls t).inserting = true → schedule.count t ≤ 22 * T.card + 35
  reads : ∀ t, (calls t).inserting = false → ∀ head ∈ v.next.head?,
    schedule.count t ≤ 10002 * (head.physicalSize + T.card) + 10
  goes_on : ∀ t, (c.local' t).ended = false → ∃ u, Threads.step (nextOf setting calls) c u ≠ none ∧
    (u = t ∨ (c.local' u).locked = true ∨ ∃ p i, c.shared.chain.head? = some p ∧ (c.local' u).place = some (p, i))
  ends : (∀ t ∈ schedule, Threads.step (nextOf setting calls) c t = none) → ∀ t ∈ schedule, (c.local' t).ended = true

theorem finishing_of_stored (proper : Proper setting calls) (stored : Stored v.next head snap log stamps)
    (recent : head.snapshotTimestamp ≤ maxTimestamp)
    (dated : ∀ ts, stamps = some ts → ∀ x ∈ ts, x ≤ maxTimestamp)
    (mixed : ∀ t, (calls t).inserting = false → info.isMixedWorkloads = true)
    (inserts : ∀ t ∈ schedule, (calls t).inserting = true → t ∈ T)
    (meets : Threads.Meets (nextOf setting calls) (Undisturbed setting) (initial calls v info) schedule)
    (ran : Threads.run (nextOf setting calls) (initial calls v info) schedule = some c) :
    Finishing setting calls v T schedule c := by
  have smooth := initial_smooth stored recent dated mixed
  have start : Going calls (v.next.length - 1) head.physicalSize T (initial calls v info) :=
    ⟨_, _, [], smooth, initial_tally calls info stored, nofun⟩
  have lowers (c : State W) (t : Nat) (c' : State W) (going : Going calls (v.next.length - 1) head.physicalSize T c)
      (allowed : Undisturbed setting c t ∧ t ∈ schedule) (taken : Threads.step (nextOf setting calls) c t = some c') :=
    going.step proper allowed.1 (inserts t allowed.2) taken
  have within := meets.within fun _ member => member
  have count (t : Nat) := Threads.Meets.run_count lowers within ran start t
  have going := Threads.run_invariant (fun c t c' going allowed taken => (lowers c t c' going allowed taken).1) within ran
    start
  obtain ⟨o, cur, drawn, reached, -, -⟩ := going
  have goes_on (t : Nat) (unended : (c.local' t).ended = false) := reached.goes_on proper unended
  refine ⟨fun t inserting => ?_, fun t reading head' first => ?_, fun t unended => ?_, fun stuck => ?_⟩
  · have bound := count t
    rw [smooth.stepsLeft] at bound
    change _ ≤ (calls t).start.left _ _ (v.next.length - 1) at bound
    cases calls_t : calls t with
    | insert des weight timestamp =>
        rw [calls_t] at bound
        simp only [Request.start, Pc.left] at bound
        omega
    | _ =>
        rw [calls_t] at inserting
        cases inserting
  · obtain ⟨older, chain, -⟩ := stored.chain
    rw [chain, List.head?_cons] at first
    obtain rfl := Option.some.inj first
    have bound := count t
    rw [smooth.stepsLeft] at bound
    change _ ≤ (calls t).start.left _ _ (v.next.length - 1) at bound
    cases calls_t : calls t with
    | insert des weight timestamp =>
        rw [calls_t] at reading
        cases reading
    | _ =>
        rw [calls_t] at bound
        exact (Nat.le_add_right _ _).trans bound
  · obtain ⟨u, steps, who⟩ := goes_on t unended
    refine ⟨u, steps, ?_⟩
    rcases who with same | inside | ⟨i, placed⟩
    · exact .inl same
    · exact .inr (.inl inside)
    · refine .inr (.inr ⟨o.head, i, ?_, placed⟩)
      rw [reached.accounted.sound.chain, List.head?_cons]
  · refine Threads.run_ends ran (fun t unended => ?_) stuck
    obtain ⟨u, steps, who⟩ := goes_on t (by simpa using unended)
    refine ⟨u, steps, who.imp_right fun begun same => ?_⟩
    change c.local' u = (calls u).start at same
    rw [same] at begun
    rcases begun with inside | ⟨i, placed⟩
    · cases (start_outside (calls u)).2.2.2.1.symm.trans inside
    · cases calls_u : calls u <;> rw [calls_u] at placed <;> cases placed

open RadixGraph

/-- Calls of `Insert` and `GetNeighbours` on a vertex of any graph take a bounded number of steps each, and while one
has not ended, some call can go on; when no call can, all have ended. -/
theorem calls_finish (P : Platform W) (global : GlobalInfo) {index : SORT W} {ws : List Nat}
    (constructed : SORT.Constructed index ws) {L : Nat} (positive : 0 < L) {acts : List (Action W)}
    {g : RadixGraph W} (reached : actions P (construct global index L positive) acts = .ok g) {k : Nat}
    (at_k : g.vertexIndex.vertexTable[k]? = some v) (info : GlobalInfo) (proper : Proper setting calls)
    (mixed : ∀ t, (calls t).inserting = false → info.isMixedWorkloads = true)
    (inserts : ∀ t ∈ schedule, (calls t).inserting = true → t ∈ T)
    (meets : Threads.Meets (nextOf setting calls) (Undisturbed setting) (initial calls v info) schedule)
    (ran : Threads.run (nextOf setting calls) (initial calls v info) schedule = some c) :
    Finishing setting calls v T schedule c := by
  obtain ⟨g', A, reached', holds, -⟩ :=
    actions_holds P (construct_holds .lax global constructed positive) acts
  obtain rfl : g = g' := Except.ok.inj (reached.symm.trans reached')
  obtain ⟨-, head, snap, log, stamps, past, stored, -, carries⟩ := holds.kept k v.revived (by
    simp [revived, SORT.revived, at_k])
  exact finishing_of_stored proper stored carries.shown.1 carries.shown.2 mixed inserts meets ran

/-- One of two writers replaces the array, and a reader comes in between. -/
theorem calls_finish_expanding : ∃ g v c,
    actions .exact (construct ⟨0, true⟩ (.ofVector [4]) 1 (by decide)) denselyStored = .ok g ∧
      g.vertexIndex.vertexTable[1]? = some v ∧
      Threads.run (nextOf reusing writersAndReader) (initial writersAndReader v g.global)
        ([0, 1, 0, 1, 0, 1] ++ List.replicate 16 0 ++ List.replicate 5 2 ++ List.replicate 11 1 ++
          List.replicate 6 2) = some c ∧
      Finishing reusing writersAndReader v {0, 1}
        ([0, 1, 0, 1, 0, 1] ++ List.replicate 16 0 ++ List.replicate 5 2 ++ List.replicate 11 1 ++
          List.replicate 6 2) c := by
  generalize at_schedule : [0, 1, 0, 1, 0, 1] ++ List.replicate 16 0 ++ List.replicate 5 2 ++ List.replicate 11 1 ++
    List.replicate 6 2 = schedule
  have evaluated : (do
      let g ← (actions .exact (construct ⟨0, true⟩ (.ofVector [4]) 1 (by decide)) denselyStored).toOption
      let v ← g.vertexIndex.vertexTable[1]?
      some ((Threads.run (nextOf reusing writersAndReader) (initial writersAndReader v g.global) schedule).isSome,
        g.global.isMixedWorkloads,
        Threads.trace (nextOf reusing writersAndReader) (fun c t => deletes c.shared (c.local' t))
          (initial writersAndReader v g.global) schedule)) = some (true, true, []) := by
    subst at_schedule
    decide +kernel
  obtain ⟨g, reached, evaluated⟩ := Option.bind_eq_some_iff.mp evaluated
  obtain ⟨v, at_k, evaluated⟩ := Option.bind_eq_some_iff.mp evaluated
  obtain ⟨ran, mixed, undeleted⟩ := by
    simpa only [Option.some.injEq, Prod.mk.injEq] using evaluated
  obtain ⟨c, ran⟩ := Option.isSome_iff_exists.mp ran
  have reached := toOption_eq_some.mp reached
  have inserts : ∀ t ∈ schedule, (writersAndReader t).inserting = true → t ∈ ({0, 1} : Finset Nat) := by
    subst at_schedule
    decide
  have meets : Threads.Meets (nextOf reusing writersAndReader) (Undisturbed reusing)
      (initial writersAndReader v g.global) schedule := by
    refine .of_trace (fun c t none => ⟨fun dead deleted => ?_, fun p q here there same => same⟩) undeleted
    rw [none] at deleted
    cases deleted
  exact ⟨g, v, c, reached, at_k, ran, calls_finish .exact ⟨0, true⟩ (.vector (by decide)) (by decide) reached at_k
    g.global writersAndReader_proper (fun _ _ => mixed) inserts meets ran⟩

def remade : Setting Nat := { reusing with address := (· % 3) }

/-- Call 0 finds the array full and stalls before the lock; the others replace it and two more, and call 0 takes the
newest for the one that it found full. -/
def mistaken : List Nat :=
  List.replicate 3 0 ++ List.replicate 19 1 ++ (List.range 10).flatMap (fun k => List.replicate 8 (k + 3)) ++
    List.replicate 19 13 ++ (List.range 20).flatMap (fun k => List.replicate 8 (k + 14)) ++ List.replicate 19 34 ++ [0, 0]

theorem unended_mistaken : ∃ g v c,
    actions .exact (construct ⟨0, true⟩ (.ofVector [4]) 1 (by decide)) denselyStored = .ok g ∧
      g.vertexIndex.vertexTable[1]? = some v ∧
      Threads.run (nextOf remade writersAndReader) (initial writersAndReader v g.global) mistaken = some c ∧
      (∀ t ∈ mistaken, Threads.step (nextOf remade writersAndReader) c t = none) ∧ (c.local' 0).ended = false ∧
      Threads.step (nextOf remade writersAndReader) c 2 = none := by
  have evaluated : (do
      let g ← (actions .exact (construct ⟨0, true⟩ (.ofVector [4]) 1 (by decide)) denselyStored).toOption
      let v ← g.vertexIndex.vertexTable[1]?
      let c ← Threads.run (nextOf remade writersAndReader) (initial writersAndReader v g.global) mistaken
      some (mistaken.dedup.all fun t => (Threads.step (nextOf remade writersAndReader) c t).isNone,
        (c.local' 0).ended, (Threads.step (nextOf remade writersAndReader) c 2).isNone)) =
      some (true, false, true) := by decide +kernel
  obtain ⟨g, reached, evaluated⟩ := Option.bind_eq_some_iff.mp evaluated
  obtain ⟨v, at_k, evaluated⟩ := Option.bind_eq_some_iff.mp evaluated
  obtain ⟨c, ran, evaluated⟩ := Option.bind_eq_some_iff.mp evaluated
  obtain ⟨stuck, unended, blocked⟩ := by
    simpa only [Option.some.injEq, Prod.mk.injEq] using evaluated
  refine ⟨g, v, c, toOption_eq_some.mp reached, at_k, ran, fun t member => ?_, unended, Option.isNone_iff_eq_none.mp blocked⟩
  exact Option.isNone_iff_eq_none.mp (List.all_eq_true.mp stuck t (List.mem_dedup.mpr member))

end OneVertex

end Radix
