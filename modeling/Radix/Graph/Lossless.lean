import Radix.Graph.Timestamps
import Radix.Graph.Writers

/-!
# Concurrent insertions are not lost

As long as no version is deleted that a call is about to draw a slot from, every call writes one slot
of its own, versions are compacted when they are written to the last slot, and the edges that are left
are those from before and one for each call.
-/

namespace Radix

open Lib Lib.LastWrite

variable {W : Type} [Zero W] [DecidableEq W]

/-! ## Arrays that hold each edge once -/

def WeightedEdgeArray.slots (arr : WeightedEdgeArray W) (n : Nat) : List (WeightedEdge W) :=
  (arr.edge.getD []).take n

/-- What insertions of absent edges with a weight leave: the snapshot has no delete logs, and where
`deg` counts every slot, they hold one edge each. -/
structure WeightedEdgeArray.Simple (arr : WeightedEdgeArray W) : Prop where
  snapshot : ∀ e ∈ arr.slots arr.snapshotDeg, e.live
  alive : (arr.physicalSize : Int) = arr.deg → ∀ e ∈ arr.slots arr.physicalSize, e.live
  once : (arr.physicalSize : Int) = arr.deg → ((arr.slots arr.physicalSize).map WeightedEdge.idx).Nodup

section

variable {arr : WeightedEdgeArray W} {snap log : List (WeightedEdge W)} {stamps : Option (List Int)}

omit [DecidableEq W] in
theorem Laid.slots (laid : Laid arr snap log stamps) :
    arr.slots arr.snapshotDeg = snap ∧ arr.slots arr.physicalSize = snap ++ log := by
  rw [WeightedEdgeArray.slots, WeightedEdgeArray.slots, laid.edge, laid.physicalSize, laid.snapshotDeg]
  constructor
  · simp [List.append_assoc]
  · rw [Option.getD_some, ← List.length_append, List.take_left]

theorem WeightedEdgeArray.Simple.perm (simple : arr.Simple) (laid : Laid arr snap log stamps)
    (all : (arr.physicalSize : Int) = arr.deg) :
    (scan WeightedEdge.idx WeightedEdge.live snap log).Perm (snap ++ log) := by
  have alive := simple.alive all
  have once := simple.once all
  rw [laid.slots.2] at alive once
  exact scan_perm once alive

theorem Kept.simple {rules : Rules} {ticks : Nat} {versioned : Bool} {v : Vertex W} {h : History W}
    (kept : Kept rules ticks versioned v h) (tidy : rules.Tidy) : ∃ head older, v.next = head :: older ∧
      head.Simple := by
  obtain ⟨-, head, snap, log, stamps, past, stored, -, carries⟩ := kept
  obtain ⟨older, chain, -⟩ := stored.chain
  obtain ⟨snapshot, whole⟩ := stored.laid.slots
  have copied (all : (head.physicalSize : Int) = head.deg) :
      Represents WeightedEdge.idx (snap ++ log) (replayEdges h.edges) :=
    carries.copied tidy (by rw [← all, stored.laid.physicalSize, Nat.cast_add])
  refine ⟨head, older, chain, ?_, fun all => ?_, fun all => ?_⟩
  · rw [snapshot]
    exact (carries.snapshot tidy).alive (replayEdges_sound _)
  · rw [whole]
    exact (copied all).alive (replayEdges_sound _)
  · rw [whole]
    exact (copied all).nodup

theorem read_current (info : GlobalInfo) {bitmap : SegmentedBitmap} (clean : bitmap.Clean)
    {v : Vertex W} {older : List (WeightedEdgeArray W)} (chain : v.next = arr :: older)
    (laid : Laid arr snap log stamps) (recent : arr.snapshotTimestamp ≤ maxTimestamp)
    (dated : ∀ ts, stamps = some ts → ∀ x ∈ ts, x ≤ maxTimestamp) (alive : ∀ e ∈ snap, e.live) :
    ∃ neighbours v' bitmap', getNeighboursOf info bitmap v [] maxTimestamp =
        .ok (true, neighbours, v', bitmap') ∧
      neighbours.Perm (scan WeightedEdge.idx WeightedEdge.live snap log) := by
  have filled : arr.edge.isSome := by simp [laid.edge]
  have found : v.next.findIdx? (·.readableAt maxTimestamp) = some 0 := by
    rw [chain, List.findIdx?_cons, if_pos (by simp [WeightedEdgeArray.readableAt, recent, filled])]
  have same : (listed [] snap (visibleLog maxTimestamp stamps log)).Perm
      (scan WeightedEdge.idx WeightedEdge.live snap log) := by
    rw [visibleLog_of_le laid.stamped dated, listed]
    split
    · rename_i none
      have kept : snap.reverse.filter (fun e => e.live) = snap.reverse :=
        List.filter_eq_self.mpr fun e member => alive e (List.mem_reverse.mp member)
      subst none
      simp [scan, survivors, kept]
    · rw [List.nil_append]
  cases mixed : info.isMixedWorkloads with
  | false =>
      obtain ⟨bitmap', read, -⟩ := readArray_spec laid clean maxTimestamp []
      refine ⟨_, { v with next := arr :: older }, bitmap', ?_, same⟩
      simp only [getNeighboursOf, found]
      simp [mixed, chain, read]
  | true =>
      obtain ⟨bitmap', read, -⟩ := readArray_spec laid.acquire clean maxTimestamp []
      refine ⟨_, { v with next := arr.acquire.release :: older }, bitmap', ?_, same⟩
      simp only [getNeighboursOf, found]
      simp [mixed, chain, read, leave]

end

namespace OneVertex

variable {setting : Setting W} {calls : Nat → Request W} {first t : Nat} {o : Origin W}
  {cur : WeightedEdgeArray W} {c c' : State W}

/-! ## Runs -/

theorem step_sound (proper : Proper setting calls) (sound : Sound calls c.local' o c.shared cur first)
    (locks : Locks c.local' c.shared) (unused : NoUser c t)
    (taken : Threads.step (nextOf setting calls) c t = some c') : ∃ pc' o' cur',
      c'.local' = Function.update c.local' t pc' ∧ Sound calls c'.local' o' c'.shared cur' first ∧
      Locks c'.local' c'.shared ∧ Evolves calls t o cur o' ∧ Storing (c.local' t) pc' ∧
      (c.local' t).finished = false := by
  obtain ⟨s', pc', moved, rfl⟩ := Threads.step_eq_some.mp taken
  obtain ⟨⟨o', cur', sound', evolves⟩, locks'⟩ := next_arrives proper sound locks unused moved
  exact ⟨pc', o', cur', rfl, sound', locks', evolves, next_storing moved, next_unfinished moved⟩

def writes (setting : Setting W) (calls : Nat → Request W) (v : Vertex W) (info : GlobalInfo)
    (schedule : List Nat) : List Write :=
  Threads.trace (nextOf setting calls) stores (initial calls v info) schedule

variable {v : Vertex W} {head : WeightedEdgeArray W} {snap log : List (WeightedEdge W)}
  {stamps : Option (List Int)} {info : GlobalInfo} {schedule : List Nat}

theorem run_recorded (proper : Proper setting calls) (stored : Stored v.next head snap log stamps)
    (recent : head.snapshotTimestamp ≤ maxTimestamp)
    (dated : ∀ ts, stamps = some ts → ∀ x ∈ ts, x ≤ maxTimestamp)
    (meets : Threads.Meets (nextOf setting calls) NoUser (initial calls v info) schedule)
    (ran : Threads.run (nextOf setting calls) (initial calls v info) schedule = some c) :
    ∃ o cur, Sound calls c.local' o c.shared cur (v.next.length - 1) ∧ Locks c.local' c.shared ∧
      Recorded c.local' (writes setting calls v info schedule) := by
  have keeps (c : State W) (t : Nat) (c' : State W) (seen : List Write)
      (held : ∃ o cur, Sound calls c.local' o c.shared cur (v.next.length - 1) ∧
        Locks c.local' c.shared ∧ Recorded c.local' seen)
      (unused : NoUser c t) (taken : Threads.step (nextOf setting calls) c t = some c') :
      ∃ o cur, Sound calls c'.local' o c'.shared cur (v.next.length - 1) ∧
        Locks c'.local' c'.shared ∧ Recorded c'.local' (seen ++ (stores c t).toList) := by
    obtain ⟨o, cur, sound, locks, recorded⟩ := held
    obtain ⟨pc', o', cur', moved, sound', locks', -, storing, -⟩ :=
      step_sound proper sound locks unused taken
    exact ⟨o', cur', sound', locks', moved ▸ recorded.step sound storing⟩
  have unwritten (t : Nat) : ((initial calls v info).local' t).written = false := by
    change (calls t).start.written = false
    cases calls t <;> rfl
  have start : Recorded (initial calls v info).local' [] := by
    refine ⟨nofun, fun t wrote => ?_, .nil⟩
    rw [unwritten] at wrote
    cases wrote
  exact Threads.run_history keeps meets ran
    ⟨_, _, initial_sound stored recent dated calls info, initial_locks calls v info, start⟩

theorem run_after (proper : Proper setting calls) {p i u : Nat}
    (sound : Sound calls c.local' o c.shared cur first) (locks : Locks c.local' c.shared)
    (returned : c.local' t = .inserted p i) (unbegun : (c.local' u).place = none)
    (meets : Threads.Meets (nextOf setting calls) NoUser c schedule)
    (ran : Threads.run (nextOf setting calls) c schedule = some c') {q j : Nat}
    (there : c'.local' u = .inserted q j) : Precedes p i q j := by
  have keeps (c : State W) (t : Nat) (c' : State W)
      (held : ∃ o cur, Sound calls c.local' o c.shared cur first ∧ Locks c.local' c.shared ∧
        After p i u c.local' o)
      (unused : NoUser c t) (taken : Threads.step (nextOf setting calls) c t = some c') :
      ∃ o cur, Sound calls c'.local' o c'.shared cur first ∧ Locks c'.local' c'.shared ∧
        After p i u c'.local' o := by
    obtain ⟨o, cur, sound, locks, after⟩ := held
    obtain ⟨pc', o', cur', moved, sound', locks', evolves, storing, -⟩ :=
      step_sound proper sound locks unused taken
    exact ⟨o', cur', sound', locks', moved ▸ after.step sound storing evolves⟩
  obtain ⟨_, _, -, -, after⟩ :=
    Threads.run_invariant keeps meets ran ⟨o, cur, sound, locks, sound.after returned unbegun⟩
  exact after.returned q j there

structure Inserts (earlier : List (WeightedEdge W)) (request : Request W) : Prop where
  alive : request.entry.live
  fresh : request.entry.idx ∉ earlier.map WeightedEdge.idx
  one : request.deltaDeg = 1

theorem Sound.claims_inserting (sound : Sound calls c.local' o c.shared cur first) (member : t ∈ o.claims) :
    (calls t).inserting = true := by
  obtain ⟨k, at_k⟩ := List.mem_iff_getElem?.mp member
  have placed := sound.layout.placed k t at_k
  rw [← sound.kinds]
  generalize c.local' t = pc at placed
  cases pc <;> first | rfl | cases placed

structure Gathered (calls : Nat → Request W) (schedule : List Nat) (earlier : List (WeightedEdge W))
    (pcs : Nat → Pc W) (o : Origin W) (drawn : List Nat) : Prop where
  filled : Filled pcs o drawn
  begun : ∀ t ∈ drawn, t ∈ schedule ∧ (calls t).inserting = true
  gathers : Gathers calls o (earlier ++ drawn.map fun t => (calls t).entry)

theorem Gathered.step {earlier : List (WeightedEdge W)} {drawn : List Nat}
    (gathered : Gathered calls schedule earlier c.local' o drawn) (proper : Proper setting calls)
    (sound : Sound calls c.local' o c.shared cur first) (locks : Locks c.local' c.shared)
    (inserts : ∀ t ∈ schedule, (calls t).inserting = true → Inserts earlier (calls t))
    (distinct : ∀ t ∈ schedule, ∀ u ∈ schedule, (calls t).inserting = true → (calls u).inserting = true →
      (calls t).entry.idx = (calls u).entry.idx → t = u)
    (unused : NoUser c t) (inside : t ∈ schedule)
    (taken : Threads.step (nextOf setting calls) c t = some c') : ∃ o' cur' drawn',
      Sound calls c'.local' o' c'.shared cur' first ∧ Locks c'.local' c'.shared ∧
      Gathered calls schedule earlier c'.local' o' drawn' := by
  obtain ⟨pc', o', cur', moved, sound', locks', evolves, storing, unfinished⟩ :=
    step_sound proper sound locks unused taken
  have filled := gathered.filled.step sound unfinished storing evolves
  have gathers := gathered.gathers.step sound.layout evolves fun new fresh => by
    have inserting := sound'.claims_inserting new
    obtain ⟨alive, absent, one⟩ := inserts t inside inserting
    refine ⟨alive, fun member => ?_, one⟩
    rw [List.map_append, List.mem_append, List.map_map] at member
    refine member.elim absent fun again => ?_
    obtain ⟨u, earlier', same⟩ := List.mem_map.mp again
    obtain ⟨begun, inserting'⟩ := gathered.begun u earlier'
    obtain rfl := distinct u begun t inside inserting' inserting same
    cases gathered.filled.open_or_done u earlier' with
    | inl claimed => exact fresh claimed
    | inr finished =>
        rw [unfinished] at finished
        cases finished
  rw [← moved] at filled
  refine ⟨o', cur', _, sound', locks', filled, fun u member => ?_, ?_⟩
  · split at member
    · rename_i new
      cases List.mem_append.mp member with
      | inl old => exact gathered.begun u old
      | inr last =>
          rw [List.mem_singleton.mp last]
          exact ⟨inside, sound'.claims_inserting new.1⟩
    · exact gathered.begun u member
  · split at gathers
    · rename_i new
      rwa [if_pos new, List.map_append, ← List.append_assoc]
    · rename_i none
      rwa [if_neg none]

theorem run_gathered {earlier : List (WeightedEdge W)} (proper : Proper setting calls)
    (sound : Sound calls c.local' o c.shared cur first) (locks : Locks c.local' c.shared)
    (start : Gathered calls schedule earlier c.local' o [])
    (inserts : ∀ t ∈ schedule, (calls t).inserting = true → Inserts earlier (calls t))
    (distinct : ∀ t ∈ schedule, ∀ u ∈ schedule, (calls t).inserting = true → (calls u).inserting = true →
      (calls t).entry.idx = (calls u).entry.idx → t = u)
    (meets : Threads.Meets (nextOf setting calls) NoUser c schedule)
    (ran : Threads.run (nextOf setting calls) c schedule = some c') : ∃ o' cur' drawn,
      Sound calls c'.local' o' c'.shared cur' first ∧ Locks c'.local' c'.shared ∧
      Gathered calls schedule earlier c'.local' o' drawn := by
  have keeps (c : State W) (t : Nat) (c' : State W)
      (held : ∃ o cur drawn, Sound calls c.local' o c.shared cur first ∧ Locks c.local' c.shared ∧
        Gathered calls schedule earlier c.local' o drawn)
      (allowed : NoUser c t ∧ t ∈ schedule)
      (taken : Threads.step (nextOf setting calls) c t = some c') :
      ∃ o cur drawn, Sound calls c'.local' o c'.shared cur first ∧ Locks c'.local' c'.shared ∧
        Gathered calls schedule earlier c'.local' o drawn := by
    obtain ⟨o, cur, drawn, sound, locks, gathered⟩ := held
    exact gathered.step proper sound locks inserts distinct allowed.1 allowed.2 taken
  exact Threads.run_invariant keeps (meets.within fun _ member => member) ran
    ⟨o, cur, [], sound, locks, start⟩

theorem Sound.read (sound : Sound calls c.local' o c.shared cur first)
    (done : ∀ t ∈ o.claims, (c.local' t).finished = true) (alive : ∀ e ∈ o.snap, e.live)
    {bitmap : SegmentedBitmap} (clean : bitmap.Clean) : ∃ neighbours v' bitmap',
      getNeighboursOf c.shared.info bitmap c.shared.vertex [] maxTimestamp =
        .ok (true, neighbours, v', bitmap') ∧
      neighbours.Perm (scan WeightedEdge.idx WeightedEdge.live o.snap (o.entries calls)) := by
  have chain : c.shared.vertex.next = cur :: o.older.filterMap fun p => c.shared.memory[p]? := by
    rw [Source.vertex, sound.chain, List.filterMap_cons, sound.current]
  refine read_current c.shared.info clean chain (sound.layout.laid done)
    sound.layout.dated.snapshotTimestamp (fun ts present x member => ?_) alive
  obtain ⟨old, found, rfl⟩ := Option.map_eq_some_iff.mp present
  cases List.mem_append.mp member with
  | inl before => exact sound.layout.dated.stamps old found x before
  | inr drawn =>
      obtain ⟨t, -, rfl⟩ := List.mem_map.mp drawn
      exact sound.layout.dated.stamp t

/-! ## What a run leaves -/

structure Lossless (setting : Setting W) (calls : Nat → Request W) (v : Vertex W) (info : GlobalInfo)
    (schedule : List Nat) (c : State W) : Prop where
  /-- A call that has returned has written one slot. -/
  once : ∀ t p i, c.local' t = .inserted p i → ∃ cap, i < cap ∧
    (writes setting calls v info schedule).filter (·.call = t) = [⟨t, p, i, cap⟩]
  /-- No two stores go to the same slot of the same version. -/
  apart : (writes setting calls v info schedule).Pairwise fun w w' =>
    ¬ (w.version = w'.version ∧ w.slot = w'.slot)
  /-- A version that is being compacted has been written to its last slot. -/
  full : ∀ t p newArray, c.local' t = .compact p newArray → ∃ arr, c.shared.memory[p]? = some arr ∧
    ∀ i < arr.cap, ∃ e, arr.read i = .ok e ∧ e.idx ≠ -1
  /-- A call that returns before another begins has the earlier slot. -/
  ordered : ∀ before rest c₁ a b p i q j, schedule = before ++ rest →
    Threads.run (nextOf setting calls) (initial calls v info) before = some c₁ →
    c₁.local' a = .inserted p i → b ∉ before → c.local' b = .inserted q j → Precedes p i q j
  /-- When all calls have returned that insert new edges, each stands beside the earlier ones. -/
  listed : ∀ bitmap : SegmentedBitmap, bitmap.Clean →
    (∀ head older, v.next = head :: older → head.Simple) →
    (∀ t ∈ schedule, (calls t).inserting = true → (c.local' t).finished = true) →
    ∃ earlier v' bitmap', getNeighboursOf info bitmap v [] maxTimestamp =
        .ok (true, earlier, v', bitmap') ∧
      ((∀ t ∈ schedule, (calls t).inserting = true → Inserts earlier (calls t)) →
        (∀ t ∈ schedule, ∀ u ∈ schedule, (calls t).inserting = true → (calls u).inserting = true →
          (calls t).entry.idx = (calls u).entry.idx → t = u) →
        ∃ final v' bitmap', getNeighboursOf c.shared.info bitmap c.shared.vertex [] maxTimestamp =
            .ok (true, final, v', bitmap') ∧
          final.Perm (earlier ++ (schedule.dedup.filter fun t => (calls t).inserting).map fun t =>
            (calls t).entry))

theorem Sound.compacting (sound : Sound calls c.local' o c.shared cur first) {p : Nat}
    {newArray : WeightedEdgeArray W} (here : c.local' t = .compact p newArray) :
    ∃ arr, c.shared.memory[p]? = some arr ∧ ∀ i < arr.cap, ∃ e, arr.read i = .ok e ∧ e.idx ≠ -1 := by
  have known := sound.knows t
  rw [here] at known
  obtain ⟨rfl, full, -⟩ := known
  obtain ⟨count, -, done⟩ := sound.layout.full full
  have laid := sound.layout.laid done
  refine ⟨cur, sound.current, fun i below => ?_⟩
  have inside : i < (o.snap ++ o.entries calls).length := by
    rw [← count, Origin.base] at below
    simp only [Origin.entries, List.length_append, List.length_map]
    omega
  have nonneg := laid.indexed _ (List.getElem_mem inside)
  exact ⟨_, laid.readable i _ (List.getElem?_eq_getElem inside), by omega⟩

theorem initial_gathered (stored : Stored v.next head snap log stamps) (simple : head.Simple)
    {earlier : List (WeightedEdge W)}
    (same : earlier.Perm (scan WeightedEdge.idx WeightedEdge.live snap log)) (p : Nat) (older : List Nat)
    (stamp : Nat → Int) : Gathered calls schedule earlier (initial calls v info).local'
      ⟨p, older, snap, log, stamps, head.deg, [], stamp⟩ [] where
  filled := by
    refine ⟨List.nodup_nil, nofun, nofun, fun t finished => ?_⟩
    change (calls t).start.finished = true at finished
    cases calls_t : calls t <;> rw [calls_t] at finished <;> cases finished
  begun := nofun
  gathers := by
    have entries (o : Origin W) (none : o.claims = []) : o.entries calls = o.log := by
      rw [Origin.entries, none, List.map_nil, List.append_nil]
    refine ⟨?_, ?_, fun all => ?_⟩
    · have alive := simple.snapshot
      rwa [stored.laid.slots.1] at alive
    · rw [entries _ rfl, List.map_nil, List.append_nil]
      exact same.symm
    · rw [entries _ rfl, List.map_nil, List.append_nil]
      refine (simple.perm stored.laid ?_).symm.trans same.symm
      rw [stored.laid.physicalSize]
      simpa [Origin.base] using all

theorem lossless_of_stored (proper : Proper setting calls) (stored : Stored v.next head snap log stamps)
    (recent : head.snapshotTimestamp ≤ maxTimestamp)
    (dated : ∀ ts, stamps = some ts → ∀ x ∈ ts, x ≤ maxTimestamp)
    (meets : Threads.Meets (nextOf setting calls) NoUser (initial calls v info) schedule)
    (ran : Threads.run (nextOf setting calls) (initial calls v info) schedule = some c) :
    Lossless setting calls v info schedule c := by
  obtain ⟨o, cur, sound, locks, recorded⟩ := run_recorded proper stored recent dated meets ran
  refine ⟨fun t p i returned => ?_, recorded.apart, fun t p newArray => sound.compacting,
    fun before rest c₁ a b p i q j split ran₁ returned unbegun there => ?_,
    fun bitmap clean simple finished => ?_⟩
  · obtain ⟨w, single⟩ := recorded.once t (by rw [returned]; rfl)
    have member : w ∈ (writes setting calls v info schedule).filter (·.call = t) := by simp [single]
    obtain ⟨member, same⟩ := List.mem_filter.mp member
    obtain ⟨-, place, below⟩ := recorded.owned w member
    have call : w.call = t := of_decide_eq_true same
    rw [call, returned] at place
    cases place
    exact ⟨w.cap, below, by rw [single, ← call]⟩
  · subst split
    obtain ⟨first, rest⟩ := meets.append ran₁
    obtain ⟨o₁, cur₁, sound₁, locks₁, -⟩ := run_recorded proper stored recent dated first ran₁
    have start : (c₁.local' b).place = none := by
      rw [Threads.run_local_absent unbegun ran₁]
      change (calls b).start.place = none
      cases calls b <;> rfl
    rw [Threads.run_append, ran₁, Option.bind_some] at ran
    exact run_after proper sound₁ locks₁ returned start rest ran there
  · obtain ⟨older, chain, -⟩ := stored.chain
    have simple := simple head older chain
    have alive := simple.snapshot
    rw [stored.laid.slots.1] at alive
    obtain ⟨earlier, v', bitmap', read, same⟩ :=
      read_current info clean chain stored.laid recent dated alive
    refine ⟨earlier, v', bitmap', read, fun inserts distinct => ?_⟩
    obtain ⟨o', cur', drawn, sound', -, gathered⟩ := run_gathered proper
      (initial_sound stored recent dated calls info) (initial_locks calls v info)
      (initial_gathered stored simple same _ _ _) inserts distinct meets ran
    have done (t : Nat) (member : t ∈ drawn) : (c.local' t).finished = true :=
      finished t (gathered.begun t member).1 (gathered.begun t member).2
    obtain ⟨final, v'', bitmap'', read', same'⟩ := sound'.read
      (fun t member => done t (gathered.filled.claimed t member)) gathered.gathers.alive clean
    have all : drawn.Perm (schedule.dedup.filter fun t => (calls t).inserting) := by
      apply (List.perm_ext_iff_of_nodup gathered.filled.nodup (schedule.nodup_dedup.filter _)).mpr
      intro t
      rw [List.mem_filter, List.mem_dedup]
      exact ⟨gathered.begun t, fun begun => gathered.filled.done t (finished t begun.1 begun.2)⟩
    exact ⟨final, v'', bitmap'', read',
      same'.trans (gathered.gathers.scanned.trans ((all.map _).append_left _))⟩

open RadixGraph

/-- Concurrent calls of `Insert` on a vertex of any graph lose no entry and overwrite none, as long as
no step deletes a version whose counter or capacity another call is about to use. -/
theorem insertions_kept (P : Platform W) (global : GlobalInfo) {index : SORT W} {ws : List Nat}
    (constructed : SORT.Constructed index ws) {L : Nat} (positive : 0 < L) {acts : List (Action W)}
    {g : RadixGraph W} (reached : actions P (construct global index L positive) acts = .ok g) {k : Nat}
    (at_k : g.vertexIndex.vertexTable[k]? = some v) (info : GlobalInfo) (proper : Proper setting calls)
    (meets : Threads.Meets (nextOf setting calls) NoUser (initial calls v info) schedule)
    (ran : Threads.run (nextOf setting calls) (initial calls v info) schedule = some c) :
    Lossless setting calls v info schedule c := by
  obtain ⟨g', A, reached', holds, -⟩ :=
    actions_holds P (construct_holds .lax global constructed positive) acts
  obtain rfl : g = g' := Except.ok.inj (reached.symm.trans reached')
  obtain ⟨-, head, snap, log, stamps, past, stored, -, carries⟩ := holds.kept k v.revived (by
    simp [revived, SORT.revived, at_k])
  exact lossless_of_stored proper stored carries.shown.1 carries.shown.2 meets ran

def reusing : Setting Nat where
  platform := .exact
  expandRate := 2
  bitmap _ := .new 1 0 (by decide)
  address := id
  reused _ := .new 8
  unwritten _ _ := 0

def insertions (t : Nat) : Request Nat := .insert (t + 2) 1 1

theorem insertions_proper : Proper reusing insertions where
  rate := by norm_num [reusing]
  clean _ := SegmentedBitmap.new_clean _ _
  nonneg t _ := by
    simp [insertions, Request.entry]
    omega

def denselyStored : List (Action Nat) :=
  .op (.insertEdge 1 0 1) ::
    (List.range 6).map (fun i => .op (.insertEdge (2 * i + 2) (2 * i + 3) 1)) ++
      [.op (.createSnapshots false true)]

/-- Two calls find the array full, and the second waits while the first replaces it. -/
theorem insertions_kept_expanding : ∃ g v c,
    actions .exact (construct ⟨0, false⟩ (.ofVector [4]) 1 (by decide)) denselyStored = .ok g ∧
      g.vertexIndex.vertexTable[1]? = some v ∧
      Threads.run (nextOf reusing insertions) (initial insertions v g.global)
        ([0, 1, 0, 1, 0, 1] ++ List.replicate 10 0 ++ [1, 1, 1, 1, 1] ++ List.replicate 5 0 ++
          List.replicate 5 1) = some c ∧
      Lossless reusing insertions v g.global
        ([0, 1, 0, 1, 0, 1] ++ List.replicate 10 0 ++ [1, 1, 1, 1, 1] ++ List.replicate 5 0 ++
          List.replicate 5 1) c := by
  generalize at_schedule : [0, 1, 0, 1, 0, 1] ++ List.replicate 10 0 ++ [1, 1, 1, 1, 1] ++
    List.replicate 5 0 ++ List.replicate 5 1 = schedule
  have evaluated : (do
      let g ← (actions .exact (construct ⟨0, false⟩ (.ofVector [4]) 1 (by decide)) denselyStored).toOption
      let v ← g.vertexIndex.vertexTable[1]?
      some ((Threads.run (nextOf reusing insertions) (initial insertions v g.global) schedule).isSome,
        Threads.trace (nextOf reusing insertions) (fun c t => deletes c.shared (c.local' t))
          (initial insertions v g.global) schedule)) = some (true, []) := by
    subst at_schedule
    decide +kernel
  obtain ⟨g, reached, evaluated⟩ := Option.bind_eq_some_iff.mp evaluated
  obtain ⟨v, at_k, evaluated⟩ := Option.bind_eq_some_iff.mp evaluated
  obtain ⟨ran, undeleted⟩ := Prod.mk.inj (Option.some.inj evaluated)
  obtain ⟨c, ran⟩ := Option.isSome_iff_exists.mp ran
  have reached := toOption_eq_some.mp reached
  have meets : Threads.Meets (nextOf reusing insertions) NoUser (initial insertions v g.global) schedule :=
    .of_trace (fun c t none dead doomed => by
      rw [none] at doomed
      cases doomed) undeleted
  exact ⟨g, v, c, reached, at_k, ran,
    insertions_kept .exact ⟨0, false⟩ (.vector (by decide)) (by decide) reached at_k g.global insertions_proper meets
      ran⟩

/-- A call takes the pointer to the array and stalls; two expansions later the array is deleted, and
the call writes its entry into the memory. -/
def stalled : List Nat :=
  [0] ++ List.replicate 18 1 ++ (List.range 9).flatMap (fun k => List.replicate 7 (k + 2)) ++
    List.replicate 18 11 ++ List.replicate 6 0

/-- All twelve calls return, and a read lists eleven edges: the one to 2 is lost. -/
theorem insertion_lost : (do
    let g ← (actions .exact (construct ⟨0, false⟩ (.ofVector [4]) 1 (by decide)) denselyStored).toOption
    let v ← g.vertexIndex.vertexTable[1]?
    let c ← Threads.run (nextOf reusing insertions) (initial insertions v g.global) stalled
    let (_, listed, _) ← (getNeighboursOf c.shared.info (reusing.bitmap 0) c.shared.vertex []
      maxTimestamp).toOption
    some (stalled.all fun t => (c.local' t).finished, listed.map WeightedEdge.idx)) =
      some (true, [13, 12, 11, 10, 9, 8, 7, 6, 5, 4, 3]) := by decide +kernel

end OneVertex

end Radix
