import Radix.Graph.Pages

/-!
# Which destinations a page lists

`LogCompaction` copies an array whose entries are all counted as insertions, live or not, so that the
destinations listed are known exactly only where insertions have a weight.
-/

namespace Radix

open Lib Lib.LastWrite

variable {W : Type} [Zero W] [DecidableEq W]

namespace Page

/-- What the page lists without a bound on the time lies among the destinations, and where all insertions have
a weight each of them is listed. -/
structure Spans (weighted : Prop) (p : Page W) (dests : Int → Prop) : Prop where
  scanned : ∀ e ∈ scan WeightedEdge.idx WeightedEdge.live p.snap p.log, dests e.idx
  copied : p.deg = p.size → ∀ e ∈ p.snap ++ p.log, dests e.idx
  few : p.deg ≤ p.size
  unlogged : p.log = [] → p.deg = p.size
  full : weighted → ∀ i, dests i → ∃ e ∈ scan WeightedEdge.idx WeightedEdge.live p.snap p.log, e.idx = i
  recent : p.snapshotTimestamp ≤ maxTimestamp
  stamped : ∀ ts, p.stamps = some ts → ts.length = p.log.length ∧ ∀ t ∈ ts, t ≤ maxTimestamp

namespace Spans

variable {weighted : Prop} {p p' : Page W} {dests dests' : Int → Prop} {info : GlobalInfo}

theorem congr (spans : p.Spans weighted dests) (same : ∀ i, dests i ↔ dests' i) : p.Spans weighted dests' := by
  obtain rfl : dests = dests' := funext fun i => propext (same i)
  exact spans

theorem fresh (info : GlobalInfo) : (Page.fresh info : Page W).Spans weighted fun _ => False where
  scanned e member := by simp [Page.fresh, scan, survivors] at member
  copied _ e member := by simp [Page.fresh] at member
  few := by simp [Page.fresh, Page.size]
  unlogged _ := by simp [Page.fresh, Page.size]
  full _ _ none := none.elim
  recent := by simp [Page.fresh, maxTimestamp]
  stamped := by
    cases mixed : info.isMixedWorkloads <;> simp [Page.fresh, GlobalInfo.freshStamps, mixed]

theorem kept (spans : p.Spans weighted dests) {e : WeightedEdge W} (member : e ∈ p.kept) : dests e.idx := by
  rw [Page.kept] at member
  split at member
  · rename_i counted
    exact spans.copied counted.symm e member
  · exact spans.scanned e member

theorem kept_full (spans : p.Spans weighted dests) (all : weighted) {i : Int} (present : dests i) :
    ∃ e ∈ p.kept, e.live ∧ e.idx = i := by
  obtain ⟨e, member, idx⟩ := spans.full all i present
  refine ⟨e, ?_, scan_live member, idx⟩
  rw [Page.kept]
  split
  · exact List.mem_append.mpr (mem_of_mem_scan member)
  · exact member

theorem ofSnapshot (spans : p.Spans weighted dests) (info : GlobalInfo) (drawn free : Nat)
    {snap : List (WeightedEdge W)} (same : snap.Perm p.kept) :
    (Page.ofSnapshot info drawn snap free).Spans weighted dests where
  scanned e member := spans.kept (same.subset (by simpa [Page.ofSnapshot] using mem_of_mem_scan member))
  copied _ e member := spans.kept (same.subset (by simpa [Page.ofSnapshot] using member))
  few := by simp [Page.ofSnapshot, Page.size]
  unlogged _ := by simp [Page.ofSnapshot, Page.size]
  full all i present := by
    obtain ⟨e, member, live, idx⟩ := spans.kept_full all present
    exact ⟨e, mem_scan.mpr ⟨live, .inr ⟨by simp [Page.ofSnapshot], same.mem_iff.mpr member⟩⟩, idx⟩
  recent := timestampAt_le drawn
  stamped := by
    cases mixed : info.isMixedWorkloads <;> simp [Page.ofSnapshot, GlobalInfo.freshStamps, mixed]

theorem logged (spans : p.Spans weighted dests) (ticks : Nat) {e : WeightedEdge W} {delta : Int} (small : delta ≤ 1)
    (weighs : weighted → delta = 1 → e.live) :
    (p.logged ticks e delta).Spans weighted fun i => if i = e.idx then e.live ∨ delta = 1 else dests i := by
  have older {d : WeightedEdge W} (other : d.idx ≠ e.idx) :
      d ∈ scan WeightedEdge.idx WeightedEdge.live p.snap (p.log ++ [e]) ↔
        d ∈ scan WeightedEdge.idx WeightedEdge.live p.snap p.log := by
    rw [mem_scan, mem_scan]
    simp [Ne.symm other, other]
  constructor
  · intro d member
    dsimp only [Page.logged] at member ⊢
    by_cases same : d.idx = e.idx
    · rw [if_pos same]
      exact .inl (mem_scan_last member same ▸ scan_live member)
    · rw [if_neg same]
      exact spans.scanned d ((older same).mp member)
  · intro counted d member
    dsimp only [Page.logged, Page.size] at counted member ⊢
    have few := spans.few
    rw [Page.size] at few
    rw [List.length_append, List.length_singleton] at counted
    split
    · exact .inr (by omega)
    · rename_i other
      refine spans.copied (by rw [Page.size]; omega) d ?_
      rw [← List.append_assoc] at member
      exact (List.mem_append.mp member).resolve_right fun last => other (by rw [List.mem_singleton.mp last])
  · have few := spans.few
    simp only [Page.logged, Page.size, List.length_append, List.length_singleton] at few ⊢
    omega
  · intro none
    simp [Page.logged] at none
  · intro all i present
    dsimp only [Page.logged]
    by_cases same : i = e.idx
    · rw [if_pos same] at present
      exact ⟨e, last_mem_scan (present.elim id (weighs all)), same.symm⟩
    · rw [if_neg same] at present
      obtain ⟨d, member, rfl⟩ := spans.full all i present
      exact ⟨d, (older same).mpr member, rfl⟩
  · exact spans.recent
  · intro ts stamps
    obtain ⟨old, found, rfl⟩ := Option.map_eq_some_iff.mp stamps
    obtain ⟨length, late⟩ := spans.stamped old found
    refine ⟨by simp [Page.logged, length], fun t member => ?_⟩
    rcases List.mem_append.mp member with before | last
    · exact late t before
    · rw [List.mem_singleton.mp last]
      exact timestampAt_le ticks

theorem logs (spans : p.Spans weighted dests) {e : WeightedEdge W} {delta : Int} {ticks' : Nat}
    (logs : p.Logs info e delta ticks' p') (small : delta ≤ 1) (weighs : weighted → delta = 1 → e.live) :
    p'.Spans weighted fun i => if i = e.idx then e.live ∨ delta = 1 else dests i := by
  cases logs with
  | room => exact spans.logged _ small weighs
  | full drawn free => exact (spans.ofSnapshot info drawn (free + 1) (List.Perm.refl _)).logged _ small weighs

theorem snapshot (spans : p.Spans weighted dests) {sorted : Bool} {ticks' : Nat}
    (snapshot : p.Snapshot info sorted ticks' p') : p'.Spans weighted dests := by
  obtain ⟨drawn, free, snap, same, -, -, -⟩ := snapshot
  exact spans.ofSnapshot info drawn free same

theorem read (spans : p.Spans weighted dests) : p.read maxTimestamp = (true, listed [] p.snap p.log) := by
  rw [Page.read, if_pos spans.recent, visibleLog_of_le (fun ts stamps => (spans.stamped ts stamps).1)
    fun ts stamps => (spans.stamped ts stamps).2]

theorem read_nothing (spans : p.Spans weighted dests) (nothing : ∀ i, ¬ dests i) :
    p.read maxTimestamp = (true, []) := by
  rw [spans.read, listed]
  split
  · rename_i none
    have empty : p.snap = [] := List.eq_nil_iff_forall_not_mem.mpr fun e member =>
      nothing e.idx (spans.copied (spans.unlogged none) e (List.mem_append_left _ member))
    rw [empty]
  · have empty : scan WeightedEdge.idx WeightedEdge.live p.snap p.log = [] :=
      List.eq_nil_iff_forall_not_mem.mpr fun e member => nothing e.idx (spans.scanned e member)
    rw [empty, List.append_nil]

theorem read_present (spans : p.Spans weighted dests) (all : weighted) {i : Int} (present : dests i) :
    ∃ e ∈ (p.read maxTimestamp).2, e.idx = i := by
  obtain ⟨e, member, idx⟩ := spans.full all i present
  refine ⟨e, ?_, idx⟩
  rw [spans.read]
  dsimp only [listed]
  split
  · rename_i none
    rw [none] at member
    simpa using mem_of_mem_scan member
  · exact List.mem_append_right _ member

end Spans

def Blank (p : Page W) : Prop := p.snap = [] ∧ p.log = [] ∧ p.snapshotTimestamp = 0

theorem Blank.read {p : Page W} (blank : p.Blank) (timestamp : Int) :
    p.read timestamp = (decide (0 ≤ timestamp), []) := by
  obtain ⟨snap, log, stamp⟩ := blank
  rw [Page.read, stamp, snap, log]
  by_cases late : 0 ≤ timestamp
  · rw [if_pos late, decide_eq_true late, visibleLog_nil]
    rfl
  · rw [if_neg late, decide_eq_false late]

end Page

end Radix
