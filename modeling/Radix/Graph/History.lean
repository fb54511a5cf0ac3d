import Radix.Graph.Model

/-!
# The history of a vertex

What is remembered of a vertex is every log entry ever written for it, with its timestamp if it has
one. The current array holds a snapshot of a past part of the history, and its log is the rest.
-/

namespace Radix

open Lib Lib.LastWrite

variable {W : Type} [Zero W]

abbrev History (W : Type) [Zero W] := List (Option Int × WeightedEdge W)

def History.edges (h : History W) : List (WeightedEdge W) := h.map Prod.snd

def stamped (stamps : Option (List Int)) (log : List (WeightedEdge W)) : History W :=
  match stamps with
  | none => log.map fun e => (none, e)
  | some ts => (ts.map some).zip log

theorem History.edges_append (h more : History W) : (h ++ more).edges = h.edges ++ more.edges :=
  List.map_append

theorem stamped_edges {stamps : Option (List Int)} {log : List (WeightedEdge W)}
    (length : ∀ ts, stamps = some ts → ts.length = log.length) :
    History.edges (stamped stamps log) = log := by
  cases stamps with
  | none => simp [stamped, History.edges, Function.comp_def]
  | some ts => exact List.map_snd_zip (by simp [length ts rfl])

theorem stamped_snoc {stamps : Option (List Int)} {log : List (WeightedEdge W)}
    (length : ∀ ts, stamps = some ts → ts.length = log.length) (s : Int) (e : WeightedEdge W) :
    stamped (stamps.map (· ++ [s])) (log ++ [e]) =
      stamped stamps log ++ [(stamps.map fun _ => s, e)] := by
  cases stamps with
  | none => simp [stamped]
  | some ts =>
      rw [Option.map_some, stamped, stamped, List.map_append, List.zip_append (by simp [length ts rfl])]
      rfl

theorem mem_stamped {stamps : Option (List Int)} {log : List (WeightedEdge W)}
    (length : ∀ ts, stamps = some ts → ts.length = log.length) {ts : List Int}
    (present : stamps = some ts) {s : Int} (member : s ∈ ts) :
    ∃ d, (some s, d) ∈ stamped stamps log := by
  subst present
  obtain ⟨i, inside, rfl⟩ := List.mem_iff_getElem.mp member
  have here : i < log.length := length ts rfl ▸ inside
  refine ⟨log[i], List.mem_iff_getElem.mpr ⟨i, by simp [stamped, inside, here], ?_⟩⟩
  simp [stamped]

variable [DecidableEq W]

abbrev replayEdges (log : List (WeightedEdge W)) : Int → Option (WeightedEdge W) :=
  replay WeightedEdge.idx WeightedEdge.live (fun _ => none) log

theorem replayEdges_sound (log : List (WeightedEdge W)) :
    Sound WeightedEdge.idx WeightedEdge.live (replayEdges log) :=
  Sound.replay (by simp [Sound]) log

theorem replayEdges_append (log more : List (WeightedEdge W)) :
    replayEdges (log ++ more) = replay WeightedEdge.idx WeightedEdge.live (replayEdges log) more :=
  replay_append _ _ _

inductive Rules where
  | lax
  /-- Insertions have a weight and insert absent edges. -/
  | tidy
  /-- Moreover updates have a weight, and they and deletions find their edge. -/
  | strict

namespace Rules

def Tidy : Rules → Prop
  | lax => False
  | tidy | strict => True

def Strict : Rules → Prop
  | lax | tidy => False
  | strict => True

theorem Strict.tidy {rules : Rules} (everything : rules.Strict) : rules.Tidy := by
  cases rules <;> trivial

end Rules

/-- An array with this snapshot and log carries the history `h`, the snapshot standing for `past`.
`deg` equals the number of slots only while all log entries are insertions, and it counts the edges
exactly under strict rules. Timestamps are compared while the counter has not wrapped. -/
structure Carries (rules : Rules) (ticks : Nat) (deg snapshotTimestamp : Int)
    (snap log : List (WeightedEdge W)) (stamps : Option (List Int)) (past h : History W) : Prop where
  split : h = past ++ stamped stamps log
  length : ∀ ts, stamps = some ts → ts.length = log.length
  snapshot : rules.Tidy → Represents WeightedEdge.idx snap (replayEdges past.edges)
  few : deg ≤ snap.length + log.length
  copied : rules.Tidy → deg = snap.length + log.length →
    Represents WeightedEdge.idx (snap ++ log) (replayEdges h.edges)
  count : rules.Strict → ∃ l, Represents WeightedEdge.idx l (replayEdges h.edges) ∧ deg = l.length
  shown : snapshotTimestamp ≤ maxTimestamp ∧ ∀ ts, stamps = some ts → ∀ s ∈ ts, s ≤ maxTimestamp
  old : ticks < 2 ^ 31 → snapshotTimestamp ≤ ticks ∧
    ∀ p ∈ past, ∀ s, p.1 = some s → s ≤ snapshotTimestamp
  sorted : ticks < 2 ^ 31 → ∀ ts, stamps = some ts → ts.Pairwise (· < ·)
  drawn : ticks < 2 ^ 31 → ∀ p ∈ h, ∀ s, p.1 = some s → s < ticks

namespace Carries

variable {rules : Rules} {ticks : Nat} {deg snapshotTimestamp : Int}
  {snap log : List (WeightedEdge W)} {stamps : Option (List Int)} {past h : History W}

theorem edges (carries : Carries rules ticks deg snapshotTimestamp snap log stamps past h) :
    h.edges = past.edges ++ log := by
  rw [carries.split, History.edges_append, stamped_edges carries.length]

theorem later (carries : Carries rules ticks deg snapshotTimestamp snap log stamps past h)
    {ticks' : Nat} (le : ticks ≤ ticks') :
    Carries rules ticks' deg snapshotTimestamp snap log stamps past h :=
  { carries with
    old := fun few => by
      obtain ⟨bound, all⟩ := carries.old (by omega)
      exact ⟨by omega, all⟩
    sorted := fun few => carries.sorted (by omega)
    drawn := fun few p member s stamp => by
      have := carries.drawn (by omega) p member s stamp
      omega }

theorem scanned (carries : Carries rules ticks deg snapshotTimestamp snap log stamps past h)
    (tidy : rules.Tidy) : Represents WeightedEdge.idx (scan WeightedEdge.idx WeightedEdge.live snap log)
      (replayEdges h.edges) := by
  have alive := (carries.snapshot tidy).alive (replayEdges_sound _)
  rw [carries.edges, replayEdges_append]
  exact scan_represents (carries.snapshot tidy) alive

theorem compacted {arr : WeightedEdgeArray W}
    (carries : Carries rules ticks arr.deg snapshotTimestamp snap log stamps past h)
    (size : arr.physicalSize = snap.length + log.length) (tidy : rules.Tidy) :
    Represents WeightedEdge.idx (compacted arr snap log) (replayEdges h.edges) := by
  rw [Radix.compacted]
  split
  · rename_i insertions
    exact carries.copied tidy (by rw [← insertions, size, Nat.cast_add])
  · exact carries.scanned tidy

theorem compact (carries : Carries rules ticks deg snapshotTimestamp snap log stamps past h)
    {snap' : List (WeightedEdge W)}
    (represents : rules.Tidy → Represents WeightedEdge.idx snap' (replayEdges h.edges)) (info : GlobalInfo)
    {drawn : Nat} (from_now : ticks ≤ drawn) {ticks' : Nat} (until_then : drawn < ticks') :
    Carries rules ticks' snap'.length (GlobalInfo.timestampAt drawn) snap' [] info.freshStamps h h where
  split := by
    cases mixed : info.isMixedWorkloads <;> simp [GlobalInfo.freshStamps, mixed, stamped]
  length ts fresh := by
    cases mixed : info.isMixedWorkloads <;> simp_all [GlobalInfo.freshStamps]
  snapshot := represents
  few := by simp
  copied tidy _ := by simpa using represents tidy
  count everything := ⟨snap', represents everything.tidy, rfl⟩
  shown := ⟨timestampAt_le drawn, fun ts fresh s member => by
    cases mixed : info.isMixedWorkloads <;> simp_all [GlobalInfo.freshStamps]⟩
  old few := by
    rw [GlobalInfo.timestampAt_eq (by omega)]
    refine ⟨by omega, fun p member s stamp => ?_⟩
    have := carries.drawn (by omega) p member s stamp
    omega
  sorted few ts fresh := by
    cases mixed : info.isMixedWorkloads <;> simp_all [GlobalInfo.freshStamps]
  drawn few p member s stamp := by
    have := carries.drawn (by omega) p member s stamp
    omega

inductive Permitted (rules : Rules) (m : Int → Option (WeightedEdge W)) (e : WeightedEdge W) :
    Int → Prop
  | insertion : (rules.Tidy → e.live ∧ m e.idx = none) → Permitted rules m e 1
  | update : (rules.Strict → e.live ∧ m e.idx ≠ none) → Permitted rules m e 0
  | deletion : (rules.Strict → e.live = false ∧ m e.idx ≠ none) → Permitted rules m e (-1)

theorem freshStamps_isSome (info : GlobalInfo) : info.freshStamps.isSome = info.isMixedWorkloads := by
  cases mixed : info.isMixedWorkloads <;> simp [GlobalInfo.freshStamps, mixed]

def ticksAfter (stamps : Option (List Int)) (ticks : Nat) : Nat :=
  if stamps.isSome then ticks + 1 else ticks

theorem le_ticksAfter (stamps : Option (List Int)) (ticks : Nat) : ticks ≤ ticksAfter stamps ticks := by
  rw [ticksAfter]
  split <;> omega

theorem append (carries : Carries rules ticks deg snapshotTimestamp snap log stamps past h)
    {e : WeightedEdge W} {delta : Int} (permitted : Permitted rules (replayEdges h.edges) e delta) :
    Carries rules (ticksAfter stamps ticks) (deg + delta) snapshotTimestamp snap (log ++ [e])
      (stamps.map (· ++ [GlobalInfo.timestampAt ticks])) past
      (h ++ [(stamps.map fun _ => GlobalInfo.timestampAt ticks, e)]) := by
  have le := le_ticksAfter stamps ticks
  have few := carries.few
  have written : replayEdges (History.edges (h ++ [(stamps.map fun _ => GlobalInfo.timestampAt ticks, e)])) =
      write WeightedEdge.idx WeightedEdge.live (replayEdges h.edges) e := by
    rw [History.edges_append, replayEdges_append]
    rfl
  refine ⟨?_, ?_, carries.snapshot, ?_, ?_, ?_, ⟨carries.shown.1, ?_⟩, ?_, ?_, ?_⟩
  · rw [stamped_snoc carries.length, ← List.append_assoc, ← carries.split]
  · rintro ts present
    obtain ⟨old, found, rfl⟩ := Option.map_eq_some_iff.mp present
    simp [carries.length old found]
  · cases permitted <;> simp only [List.length_append, List.length_singleton] <;> push_cast <;> omega
  · intro tidy all
    rw [written, ← List.append_assoc]
    cases permitted with
    | insertion allowed =>
        obtain ⟨alive, absent⟩ := allowed tidy
        have before : deg = snap.length + log.length := by
          simp only [List.length_append, List.length_singleton] at all
          push_cast at all
          omega
        exact (carries.copied tidy before).snoc absent alive
    | update _ | deletion _ =>
        simp only [List.length_append, List.length_singleton] at all
        push_cast at all
        omega
  · intro exactly
    obtain ⟨l, represents, rfl⟩ := carries.count exactly
    refine ⟨_, written ▸ represents.rewrite e, ?_⟩
    cases permitted with
    | insertion allowed =>
        obtain ⟨alive, absent⟩ := allowed exactly.tidy
        have outside := represents.absent.mp absent
        have same : l.filter (fun d => d.idx ≠ e.idx) = l := by
          rw [List.filter_eq_self]
          intro d member
          simpa using fun equal => outside (List.mem_map.mpr ⟨d, member, equal⟩)
        rw [same]
        simp [alive]
    | update allowed =>
        obtain ⟨alive, present⟩ := allowed exactly
        have := represents.erase_length present
        simp [alive] at this ⊢
        omega
    | deletion allowed =>
        obtain ⟨dead, present⟩ := allowed exactly
        have := represents.erase_length present
        simp [dead] at this ⊢
        omega
  · intro ts present s member
    obtain ⟨old, found, rfl⟩ := Option.map_eq_some_iff.mp present
    rcases List.mem_append.mp member with inside | last
    · exact carries.shown.2 old found s inside
    · rw [List.mem_singleton.mp last]
      exact timestampAt_le ticks
  · intro bound
    obtain ⟨low, all⟩ := carries.old (by omega)
    exact ⟨by omega, all⟩
  · intro bound ts present
    obtain ⟨old, found, rfl⟩ := Option.map_eq_some_iff.mp present
    refine List.pairwise_append.mpr ⟨carries.sorted (by omega) old found, by simp, ?_⟩
    intro s member s' last
    rw [List.mem_singleton.mp last, GlobalInfo.timestampAt_eq (by omega)]
    obtain ⟨d, paired⟩ := mem_stamped carries.length found member
    exact carries.drawn (by omega) (some s, d) (by simp [carries.split, paired]) s rfl
  · intro bound p member s stamp
    rcases List.mem_append.mp member with inside | last
    · have := carries.drawn (by omega) p inside s stamp
      omega
    · obtain rfl := List.mem_singleton.mp last
      cases stamps with
      | none => simp at stamp
      | some ts =>
          simp only [ticksAfter, Option.isSome_some, if_true] at bound ⊢
          simp only [Option.map_some, Option.some.injEq] at stamp
          rw [← stamp, GlobalInfo.timestampAt_eq (by omega)]
          omega

end Carries

/-! ## Reading -/

def History.upTo (h : History W) (timestamp : Int) : History W :=
  h.filter fun p => p.1.all (· ≤ timestamp)

omit [DecidableEq W] in
theorem stamped_upTo {ts : List Int} {log : List (WeightedEdge W)} (length : ts.length = log.length)
    (sorted : ts.Pairwise (· < ·)) (timestamp : Int) :
    History.upTo (stamped (some ts) log) timestamp =
      (stamped (some ts) log).take (visibleCount timestamp ts) := by
  induction ts using List.reverseRecOn generalizing log with
  | nil => simp [stamped, History.upTo]
  | append_singleton ts s ih =>
      obtain ⟨log, e, rfl⟩ := (log.eq_nil_or_concat').resolve_left (by
        rintro rfl
        simp at length)
      have lengths : ts.length = log.length := by simpa using length
      obtain ⟨before, -, below⟩ := List.pairwise_append.mp sorted
      have lengths' : ∀ ts', some ts = some ts' → ts'.length = log.length := by simpa using lengths
      have snoc := stamped_snoc lengths' s e
      rw [Option.map_some] at snoc
      have size : (stamped (some ts) log).length = ts.length := by simp [stamped, lengths]
      rw [snoc, visibleCount_snoc, History.upTo, List.filter_append]
      by_cases old : s ≤ timestamp
      · have all : (stamped (some ts) log).filter (fun p => p.1.all (· ≤ timestamp)) =
            stamped (some ts) log := by
          rw [List.filter_eq_self]
          rintro ⟨r, d⟩ member
          obtain ⟨s', inside, rfl⟩ := List.mem_map.mp (List.of_mem_zip member).1
          have := below s' inside s (by simp)
          simp
          omega
        rw [all, if_pos old, List.take_of_length_le (by simp [size])]
        simp [old]
      · rw [if_neg old, List.take_append_of_le_length (by rw [size]; exact visibleCount_le _ _)]
        have := ih lengths before
        rw [History.upTo] at this
        simp [this, old]

namespace Carries

variable {rules : Rules} {ticks : Nat} {deg snapshotTimestamp : Int}
  {snap log : List (WeightedEdge W)} {stamps : Option (List Int)} {past h : History W}

theorem upTo (carries : Carries rules ticks deg snapshotTimestamp snap log stamps past h)
    (few : ticks < 2 ^ 31) {timestamp : Int} (recent : snapshotTimestamp ≤ timestamp) :
    History.edges (h.upTo timestamp) = past.edges ++ visibleLog timestamp stamps log := by
  have kept : History.upTo past timestamp = past := by
    rw [History.upTo, List.filter_eq_self]
    rintro ⟨r, d⟩ member
    cases r with
    | none => rfl
    | some s =>
        have := (carries.old few).2 _ member s rfl
        simp
        omega
  have split : History.upTo h timestamp =
      History.upTo past timestamp ++ History.upTo (stamped stamps log) timestamp := by
    rw [carries.split, History.upTo, List.filter_append]
    rfl
  rw [split, kept, History.edges_append]
  congr 1
  cases stamps with
  | none =>
      have all : History.upTo (stamped none log) timestamp = stamped none log := by
        rw [History.upTo, List.filter_eq_self]
        intro p member
        obtain ⟨e, -, rfl⟩ := List.mem_map.mp member
        rfl
      rw [all, stamped_edges carries.length, visibleLog]
  | some ts =>
      rw [stamped_upTo (carries.length ts rfl) (carries.sorted few ts rfl), History.edges, List.map_take,
        ← History.edges, stamped_edges carries.length, visibleLog]

theorem listed (carries : Carries rules ticks deg snapshotTimestamp snap log stamps past h)
    (tidy : rules.Tidy) (visible : List (WeightedEdge W)) :
    Represents WeightedEdge.idx (listed [] snap visible) (replayEdges (past.edges ++ visible)) := by
  rw [Radix.listed]
  split
  · rename_i none
    simpa [none] using carries.snapshot tidy
  · have alive := (carries.snapshot tidy).alive (replayEdges_sound _)
    rw [replayEdges_append]
    simpa using scan_represents (carries.snapshot tidy) alive

theorem visible_of_le (carries : Carries rules ticks deg snapshotTimestamp snap log stamps past h)
    {timestamp : Int} (late : ∀ ts, stamps = some ts → ∀ s ∈ ts, s ≤ timestamp) :
    visibleLog timestamp stamps log = log := visibleLog_of_le carries.length late

theorem visible_all (carries : Carries rules ticks deg snapshotTimestamp snap log stamps past h) :
    visibleLog maxTimestamp stamps log = log := carries.visible_of_le carries.shown.2

theorem visible_now (carries : Carries rules ticks deg snapshotTimestamp snap log stamps past h)
    (few : ticks < 2 ^ 31) {timestamp : Int} (now : ticks ≤ timestamp) :
    visibleLog timestamp stamps log = log :=
  carries.visible_of_le fun ts present s member => by
    obtain ⟨d, inside⟩ := mem_stamped carries.length present member
    have := carries.drawn few (some s, d) (by simp [carries.split, inside]) s rfl
    omega

end Carries

/-! ## One vertex -/

omit [DecidableEq W] in
theorem Laid.acquire {arr : WeightedEdgeArray W} {snap log : List (WeightedEdge W)}
    {stamps : Option (List Int)} (laid : Laid arr snap log stamps) :
    Laid arr.acquire snap log stamps :=
  ⟨laid.room, laid.edge, laid.physicalSize, laid.snapshotDeg, laid.indexed,
    laid.timestamp, laid.stamped⟩

theorem getNeighboursOf_spec (info : GlobalInfo) {bitmap : SegmentedBitmap} (clean : bitmap.Clean)
    {src : Vertex W} {head : WeightedEdgeArray W} {snap log : List (WeightedEdge W)}
    {stamps : Option (List Int)} (stored : Stored src.next head snap log stamps) (timestamp : Int)
    (neighbours : List (WeightedEdge W)) :
    ∃ bitmap', getNeighboursOf info bitmap src neighbours timestamp =
        .ok (if head.snapshotTimestamp ≤ timestamp then
          (true, listed neighbours snap (visibleLog timestamp stamps log), src, bitmap')
        else (false, neighbours, src, bitmap')) ∧ bitmap'.Clean := by
  obtain ⟨older, chain, retired⟩ := stored.chain
  have freed : older.findIdx? (·.readableAt timestamp) = none := by
    rw [List.findIdx?_eq_none_iff]
    intro arr member
    simp [WeightedEdgeArray.readableAt, (retired arr member).1]
  have filled : head.edge.isSome := by simp [stored.laid.edge]
  by_cases recent : head.snapshotTimestamp ≤ timestamp
  · have found : src.next.findIdx? (·.readableAt timestamp) = some 0 := by
      rw [chain, List.findIdx?_cons, if_pos (by simp [WeightedEdgeArray.readableAt, recent, filled])]
    simp only [getNeighboursOf, found, if_pos recent]
    cases mixed : info.isMixedWorkloads with
    | false =>
        obtain ⟨bitmap', read, clean'⟩ := readArray_spec stored.laid clean timestamp neighbours
        refine ⟨bitmap', ?_, clean'⟩
        simp [chain, read]
        cases src
        simp_all
    | true =>
        obtain ⟨bitmap', read, clean'⟩ :=
          readArray_spec stored.laid.acquire clean timestamp neighbours
        refine ⟨bitmap', ?_, clean'⟩
        have back : head.acquire.release = head := by cases head; rfl
        simp [chain, read, leave, back]
        cases src
        simp_all
  · have found : src.next.findIdx? (·.readableAt timestamp) = none := by
      rw [chain, List.findIdx?_cons, if_neg (by simp [WeightedEdgeArray.readableAt, recent]), freed]
      rfl
    exact ⟨bitmap, by simp only [getNeighboursOf, found, if_neg recent], clean⟩

structure SameCounters (arr arr' : WeightedEdgeArray W) : Prop where
  size : arr'.size = arr.size
  cap : arr'.cap = arr.cap
  physicalSize : arr'.physicalSize = arr.physicalSize
  deg : arr'.deg = arr.deg
  snapshotTimestamp : arr'.snapshotTimestamp = arr.snapshotTimestamp
  threadsRead : arr'.threadsRead = arr.threadsRead

omit [DecidableEq W] in
theorem sortEdges_spec (P : Platform W) (sortNeighbours : Bool) {arr : WeightedEdgeArray W}
    {snap : List (WeightedEdge W)} {stamps : Option (List Int)} (laid : Laid arr snap [] stamps) :
    ∃ snap', snap'.Perm snap ∧ (sortNeighbours → snap'.Pairwise fun a b => a.idx ≤ b.idx) ∧
      Laid (RadixGraph.sortEdges P sortNeighbours arr) snap' [] stamps ∧
      SameCounters arr (RadixGraph.sortEdges P sortNeighbours arr) := by
  rw [RadixGraph.sortEdges]
  split
  · have perm := P.sort_perm snap
    have size : arr.physicalSize = snap.length := laid.physicalSize
    refine ⟨P.sort snap, perm, fun _ => P.sort_sorted snap,
      ⟨?_, ?_, ?_, ?_, fun e member => ?_, ?_, laid.stamped⟩,
      ⟨rfl, rfl, rfl, rfl, rfl, rfl⟩⟩
    · rw [perm.length_eq]
      exact laid.room
    · simp [laid.edge, size, perm.length_eq]
    · rw [perm.length_eq]
      exact laid.physicalSize
    · rw [perm.length_eq]
      exact laid.snapshotDeg
    · exact laid.indexed e (by simpa [perm.mem_iff] using member)
    · rw [perm.length_eq]
      exact laid.timestamp
  · rename_i unsorted
    refine ⟨snap, .refl _, fun sorted => ?_, laid, ⟨rfl, rfl, rfl, rfl, rfl, rfl⟩⟩
    have short : snap.length ≤ 1 := by
      have := laid.physicalSize
      rw [List.length_nil] at this
      by_contra long
      exact unsorted ⟨sorted, by omega⟩
    match snap, short with
    | [], _ => exact .nil
    | [e], _ => exact List.pairwise_singleton _ _

/-- A vertex whose current array carries its history; with timestamps if it is versioned. -/
def Kept (rules : Rules) (ticks : Nat) (versioned : Bool) (v : Vertex W) (h : History W) : Prop :=
  v.delTime = -1 ∧ ∃ head snap log stamps past, Stored v.next head snap log stamps ∧
    stamps.isSome = versioned ∧
    Carries rules ticks head.deg head.snapshotTimestamp snap log stamps past h

namespace Kept

variable {rules : Rules} {ticks : Nat} {versioned : Bool} {v : Vertex W} {h : History W}

theorem later (kept : Kept rules ticks versioned v h) {ticks' : Nat} (le : ticks ≤ ticks') :
    Kept rules ticks' versioned v h := by
  obtain ⟨alive, head, snap, log, stamps, past, stored, aligned, carries⟩ := kept
  exact ⟨alive, head, snap, log, stamps, past, stored, aligned, carries.later le⟩

omit [DecidableEq W] in
theorem newArray_stored (info : GlobalInfo) :
    Stored [(SORT.newArray info : WeightedEdgeArray W)] (SORT.newArray info) [] [] info.freshStamps := by
  refine ⟨⟨[], rfl, by simp [Retired]⟩, ⟨by simp, rfl, rfl, rfl, by simp [Indexed], ?_, ?_⟩, rfl, rfl⟩
  · cases mixed : info.isMixedWorkloads <;>
      simp [SORT.newArray, WeightedEdgeArray.new, GlobalInfo.freshStamps, mixed]
  · cases mixed : info.isMixedWorkloads <;> simp [GlobalInfo.freshStamps, mixed]

theorem fresh (rules : Rules) (info : GlobalInfo) {v : Vertex W} (alive : v.delTime = -1)
    (next : v.next = [SORT.newArray info]) : Kept rules info.ticks info.isMixedWorkloads v [] := by
  refine ⟨alive, SORT.newArray info, [], [], info.freshStamps, [], next ▸ newArray_stored info, ?_, ?_⟩
  · cases mixed : info.isMixedWorkloads <;> simp [GlobalInfo.freshStamps, mixed]
  · refine ⟨?_, ?_, fun _ => Represents.nil, by simp [SORT.newArray, WeightedEdgeArray.new], fun _ _ => Represents.nil,
      fun _ => ⟨[], Represents.nil, rfl⟩, ⟨by simp [SORT.newArray, WeightedEdgeArray.new, maxTimestamp], ?_⟩,
      fun _ => ⟨by simp [SORT.newArray, WeightedEdgeArray.new], by simp⟩, ?_, by simp⟩
    all_goals cases mixed : info.isMixedWorkloads <;> simp [GlobalInfo.freshStamps, mixed, stamped]

/-- The timestamp that an operation leaves in the log: the last one drawn until it ends. -/
def logTimestamp (info : GlobalInfo) : Option Int :=
  if info.isMixedWorkloads then some (GlobalInfo.timestampAt (info.ticks - 1)) else none

theorem insert (P : Platform W) {expandRate : ℚ} (rate : 1 < expandRate) {info : GlobalInfo}
    {bitmap : SegmentedBitmap} (clean : bitmap.Clean)
    (kept : Kept rules info.ticks info.isMixedWorkloads v h) {e : WeightedEdge W}
    (nonneg : 0 ≤ e.idx) {delta : Int}
    (permitted : Carries.Permitted rules (replayEdges h.edges) e delta) :
    ∃ next bitmap' info', Radix.insert P expandRate info bitmap v e.idx e.weight delta =
        .ok ({ v with next := next }, bitmap', info') ∧ bitmap'.Clean ∧ info.ticks ≤ info'.ticks ∧
      info'.isMixedWorkloads = info.isMixedWorkloads ∧
      Kept rules info'.ticks info'.isMixedWorkloads { v with next := next }
        (h ++ [(logTimestamp info', e)]) := by
  obtain ⟨alive, head, snap, log, stamps, past, stored, aligned, carries⟩ := kept
  obtain ⟨next, bitmap', info₁, head₁, head', snap', log', stamps', inserted, clean', prepared, stored',
    deg, timestamp, -⟩ := insert_spec P rate info clean stored nonneg e.weight delta
  obtain ⟨past', carries', le, mixed, aligned'⟩ : ∃ past',
      Carries rules info₁.ticks head₁.deg head₁.snapshotTimestamp snap' log' stamps' past' h ∧
        info.ticks ≤ info₁.ticks ∧ info₁.isMixedWorkloads = info.isMixedWorkloads ∧
        stamps'.isSome = info.isMixedWorkloads := by
    cases prepared with
    | room same snap_same log_same stamps_same deg timestamp =>
        subst same snap_same log_same stamps_same
        rw [deg, timestamp]
        exact ⟨past, carries, le_rfl, rfl, aligned⟩
    | full more mixed snap_new log_new stamps_new deg timestamp =>
        subst snap_new log_new stamps_new
        rw [deg, timestamp]
        exact ⟨h, carries.compact (carries.compacted stored.laid.physicalSize) info (by omega) (by omega),
          by omega, mixed, Carries.freshStamps_isSome info⟩
  have appended := carries'.append permitted
  rw [← deg, ← timestamp] at appended
  have versioned : info₁.isMixedWorkloads = stamps'.isSome := mixed.trans aligned'.symm
  have after : (if stamps'.isSome then info₁.tick else info₁).ticks =
      Carries.ticksAfter stamps' info₁.ticks := by
    cases stamps' <;> rfl
  have stamp : (stamps'.map fun _ => GlobalInfo.timestampAt info₁.ticks) =
      logTimestamp (if stamps'.isSome then info₁.tick else info₁) := by
    cases stamps' <;> simp [logTimestamp, versioned]
  refine ⟨next, bitmap', _, inserted, clean', ?_, ?_, alive, head', snap', _, _, past', stored', ?_, ?_⟩
  · rw [after, Carries.ticksAfter]
    split <;> omega
  · split
    · exact mixed
    · exact mixed
  · rw [Option.isSome_map, ← versioned]
    split <;> rfl
  · rw [after, ← stamp]
    exact appended

/-- The body of the loop of `CreateSnapshots` keeps the history; it makes the vertex versioned in
mixed mode. -/
theorem snapshot (P : Platform W) {expandRate : ℚ} (rate : 1 < expandRate) (info : GlobalInfo)
    {bitmap : SegmentedBitmap} (clean : bitmap.Clean) (kept : Kept rules info.ticks versioned v h)
    (sortNeighbours makeDense : Bool) :
    ∃ next older newArr bitmap', v.next = next :: older ∧
      logCompaction info bitmap next
        (RadixGraph.snapshotArray P expandRate makeDense next.deg) = .ok (newArr, bitmap', info.tick) ∧
      bitmap'.Clean ∧ Kept rules (info.ticks + 1) info.isMixedWorkloads
        { v with next := RadixGraph.sortEdges P sortNeighbours newArr :: older } h := by
  obtain ⟨alive, head, snap, log, stamps, past, stored, -, carries⟩ := kept
  obtain ⟨older, chain, retired⟩ := stored.chain
  obtain ⟨newArr, bitmap', compaction, clean', laid, deg, size, timestamp, unread, -⟩ :=
    logCompaction_spec stored.laid info clean (m := if makeDense then (max head.deg 0).toNat else
      P.snapshotCapacity (max head.deg 0).toNat expandRate) (fun insertions => by
        have := P.snapshotCapacity_ge (max head.deg 0).toNat rate
        split <;> omega)
  have represents := carries.compacted stored.laid.physicalSize
  obtain ⟨snap', same, -, laid', others⟩ := sortEdges_spec P sortNeighbours laid
  have compact := carries.compact (fun tidy => (represents tidy).of_perm same) info le_rfl (Nat.lt_succ_self info.ticks)
  have exactly : newArr.deg = snap'.length := by
    rw [deg, laid.physicalSize, same.length_eq, List.length_nil, Nat.add_zero]
  refine ⟨head, older, newArr, bitmap', chain, compaction, clean', alive, _, snap', [], info.freshStamps,
    h, ⟨⟨older, rfl, retired⟩, laid', ?_, ?_⟩, Carries.freshStamps_isSome info, ?_⟩
  · rw [others.size, others.physicalSize, size]
  · rw [others.threadsRead, unread]
  · rw [others.deg, others.snapshotTimestamp, exactly, timestamp]
    exact compact

end Kept

end Radix
