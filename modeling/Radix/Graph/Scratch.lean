import Radix.Graph.Pages

/-!
# The scratch bitmaps of the threads

Every thread marks destinations in a bitmap of its own. `GetNeighbours` and `LogCompaction` take back
every mark that they set, whatever the array holds, and a run whose operations and loop iterations fall
to any threads leaves all bitmaps clean.
-/

namespace Radix

open Lib

variable {W : Type} [Zero W] [DecidableEq W]

/-! ## The two loops, for any array -/

def Marked (skipUnwritten : Bool) (arr : WeightedEdgeArray W) (n pos : Nat) : Prop :=
  ∃ i e, arr.snapshotDeg ≤ i ∧ i < n ∧ arr.read i = .ok e ∧ ¬ (skipUnwritten ∧ e.idx = -1) ∧ e.bit = .ok pos

omit [DecidableEq W] in
theorem Marked.mono {skipUnwritten : Bool} {arr : WeightedEdgeArray W} {n m pos : Nat}
    (marked : Marked skipUnwritten arr n pos) (le : n ≤ m) : Marked skipUnwritten arr m pos := by
  obtain ⟨i, e, log, below, rest⟩ := marked
  exact ⟨i, e, log, below.trans_le le, rest⟩

theorem backwardScan_marks {σ : Type} {push : σ → WeightedEdge W → Result σ} {skipUnwritten : Bool}
    {arr : WeightedEdgeArray W} {n : Nat} {acc acc' : σ} {bitmap bitmap' : SegmentedBitmap}
    (ran : backwardScan push skipUnwritten arr n acc bitmap = .ok (acc', bitmap')) {pos : Nat}
    (set : bitmap'.getBit pos) : bitmap.getBit pos ∨ Marked skipUnwritten arr n pos := by
  induction n generalizing acc bitmap with
  | zero =>
      cases ran
      exact .inl set
  | succ n ih =>
      rw [backwardScan, bind_eq_ok] at ran
      obtain ⟨e, read, ran⟩ := ran
      split at ran
      next => exact (ih ran).imp_right fun marked => marked.mono (Nat.le_succ n)
      next written =>
        obtain ⟨bit, known, ran⟩ := bind_eq_ok.mp ran
        split at ran
        next => exact (ih ran).imp_right fun marked => marked.mono (Nat.le_succ n)
        next =>
          obtain ⟨acc₁, -, ran⟩ := bind_eq_ok.mp ran
          rcases ih ran with here | marked
          · by_cases log : arr.snapshotDeg ≤ n
            · rw [if_pos log, SegmentedBitmap.getBit_setBit] at here
              by_cases same : pos = bit
              · exact .inr ⟨n, e, log, Nat.lt_succ_self n, read, written, same ▸ known⟩
              · exact .inl (by simpa [same] using here)
            · rw [if_neg log] at here
              exact .inl here
          · exact .inr (marked.mono (Nat.le_succ n))

omit [DecidableEq W] in
theorem clearMarks_clears {skipUnwritten : Bool} {arr : WeightedEdgeArray W} {i n : Nat}
    {bitmap bitmap' : SegmentedBitmap} (ran : clearMarks skipUnwritten arr i n bitmap = .ok bitmap') {pos : Nat}
    (set : bitmap'.getBit pos) : bitmap.getBit pos ∧ ∀ j e, i ≤ j → j < i + n → arr.read j = .ok e →
      ¬ (skipUnwritten ∧ e.idx = -1) → e.bit ≠ .ok pos := by
  induction n generalizing i bitmap with
  | zero =>
      cases ran
      exact ⟨set, fun j e from_i below => absurd below (by omega)⟩
  | succ n ih =>
      rw [clearMarks, bind_eq_ok] at ran
      obtain ⟨e, read, ran⟩ := ran
      split at ran
      next unwritten =>
        obtain ⟨before, others⟩ := ih ran
        refine ⟨before, fun j d from_i below read' written => ?_⟩
        by_cases first : j = i
        · subst first
          obtain rfl := Except.ok.inj (read.symm.trans read')
          exact absurd unwritten written
        · exact others j d (by omega) (by omega) read' written
      next =>
        obtain ⟨bit, known, ran⟩ := bind_eq_ok.mp ran
        obtain ⟨before, others⟩ := ih ran
        rw [SegmentedBitmap.getBit_clearBit] at before
        have other : pos ≠ bit := fun same => by simp [same] at before
        refine ⟨by simpa [other] using before, fun j d from_i below read' written here => ?_⟩
        by_cases first : j = i
        · subst first
          obtain rfl := Except.ok.inj (read.symm.trans read')
          exact other (Except.ok.inj (here.symm.trans known))
        · exact others j d (by omega) (by omega) read' written here

theorem marks_cleared {σ : Type} {push : σ → WeightedEdge W → Result σ} {skipUnwritten : Bool}
    {arr : WeightedEdgeArray W} {n : Nat} {acc acc' : σ} {bitmap bitmap₁ bitmap₂ : SegmentedBitmap}
    (scanned : backwardScan push skipUnwritten arr n acc bitmap = .ok (acc', bitmap₁))
    (cleared : clearMarks skipUnwritten arr arr.snapshotDeg (n - arr.snapshotDeg) bitmap₁ = .ok bitmap₂)
    (clean : bitmap.Clean) : bitmap₂.Clean := by
  intro pos
  rw [Bool.eq_false_iff]
  intro left
  obtain ⟨before, others⟩ := clearMarks_clears cleared left
  rcases backwardScan_marks scanned before with old | ⟨i, e, log, below, read, written, here⟩
  · rw [clean pos] at old
    cases old
  · exact others i e log (by omega) read written here

theorem readArray_clean {arr : WeightedEdgeArray W} {timestamp : Int} {neighbours neighbours' : List (WeightedEdge W)}
    {bitmap bitmap' : SegmentedBitmap} (ran : readArray bitmap arr timestamp neighbours = .ok (neighbours', bitmap'))
    (clean : bitmap.Clean) : bitmap'.Clean := by
  unfold readArray at ran
  split at ran
  · obtain ⟨⟨cnt, found⟩, -, ran⟩ := bind_eq_ok.mp ran
    obtain ⟨⟨found', bitmap₁⟩, scanned, ran⟩ := bind_eq_ok.mp ran
    obtain ⟨bitmap₂, cleared, ran⟩ := bind_eq_ok.mp ran
    cases ran
    exact marks_cleared scanned cleared clean
  · obtain ⟨found, -, ran⟩ := bind_eq_ok.mp ran
    cases ran
    exact clean

theorem getNeighboursOf_clean {info : GlobalInfo} {src src' : Vertex W} {timestamp : Int} {found : Bool}
    {neighbours neighbours' : List (WeightedEdge W)} {bitmap bitmap' : SegmentedBitmap}
    (ran : getNeighboursOf info bitmap src neighbours timestamp = .ok (found, neighbours', src', bitmap'))
    (clean : bitmap.Clean) : bitmap'.Clean := by
  unfold getNeighboursOf at ran
  split at ran
  · cases ran
    exact clean
  · dsimp only at ran
    generalize (if info.isMixedWorkloads then _ else src.next) = chain at ran
    split at ran
    · cases ran
    · obtain ⟨⟨read, bitmap₁⟩, reading, ran⟩ := bind_eq_ok.mp ran
      cases ran
      exact readArray_clean reading clean

theorem logCompaction_clean {info info' : GlobalInfo} {oldArr newArr result : WeightedEdgeArray W}
    {bitmap bitmap' : SegmentedBitmap}
    (ran : logCompaction info bitmap oldArr newArr = .ok (result, bitmap', info')) (clean : bitmap.Clean) :
    bitmap'.Clean := by
  obtain ⟨⟨⟨filled, num⟩, bitmap₁⟩, compacted, ran⟩ := bind_eq_ok.mp ran
  cases ran
  unfold compactEdges at compacted
  split at compacted
  · obtain ⟨copied, -, compacted⟩ := bind_eq_ok.mp compacted
    cases compacted
    exact clean
  · obtain ⟨⟨acc, bitmap₂⟩, scanned, compacted⟩ := bind_eq_ok.mp compacted
    obtain ⟨bitmap₃, cleared, compacted⟩ := bind_eq_ok.mp compacted
    cases compacted
    exact marks_cleared scanned cleared clean

namespace RadixGraph

/-! ## Runs on many threads -/

omit [DecidableEq W] in
/-- The graph and the array `bitmap` with an entry for each thread; the graph's own bitmap is not used. -/
structure Team (W : Type) [Zero W] where
  graph : RadixGraph W
  bitmaps : Nat → SegmentedBitmap

namespace Team

omit [DecidableEq W] in
def withThread (team : Team W) (thread : Nat) (step : RadixGraph W → Result (RadixGraph W)) : Result (Team W) := do
  let g ← step { team.graph with bitmap := team.bitmaps thread }
  .ok { graph := g, bitmaps := Function.update team.bitmaps thread g.bitmap }

/-- An action of one thread; the iterations of the loop of `CreateSnapshots` fall to the threads that
`share` names. -/
def act (P : Platform W) (team : Team W) (thread : Nat) (share : Nat → Nat) : Action W → Result (Team W)
  | .op (.createSnapshots sortNeighbours makeDense) => do
      let team ← (P.order team.graph.global team.graph.vertexIndex.cnt).foldlM (fun team i =>
        team.withThread (share i) fun g => snapshotVertex P sortNeighbours makeDense g i) team
      .ok { team with graph := { team.graph with isSorted := sortNeighbours } }
  | action => team.withThread thread fun g => RadixGraph.act P g action

def actions (P : Platform W) (team : Team W) (acts : List (Nat × (Nat → Nat) × Action W)) : Result (Team W) :=
  acts.foldlM (fun team (thread, share, action) => team.act P thread share action) team

/-- The team just constructed: `bitmap[i] = new SegmentedBitmap(); bitmap[i]->reset();` for each thread. -/
def construct (global : GlobalInfo) (vertexIndex : SORT W) (L : Nat) (positive : 0 < L) : Team W where
  graph := RadixGraph.construct global vertexIndex L positive
  bitmaps _ := (SegmentedBitmap.new L 0 positive).reset

variable {ws : List Nat} {team : Team W} {A : Ledger W}

structure Keeps (ws : List Nat) (team : Team W) (A : Ledger W) : Prop where
  holds : Holds .lax ws team.graph A
  clean : ∀ thread, (team.bitmaps thread).Clean

theorem Keeps.turn (keeps : Keeps ws team A) (thread : Nat) {g : RadixGraph W} {A' : Ledger W}
    (holds : Holds .lax ws g A') :
    Keeps ws { graph := g, bitmaps := Function.update team.bitmaps thread g.bitmap } A' := by
  refine ⟨holds, fun other => ?_⟩
  change (Function.update team.bitmaps thread g.bitmap other).Clean
  by_cases same : other = thread
  · subst same
    rw [Function.update_self]
    exact holds.clean
  · rw [Function.update_of_ne same]
    exact keeps.clean other

theorem Keeps.withThread (keeps : Keeps ws team A) (thread : Nat) {step : RadixGraph W → Result (RadixGraph W)}
    {Q : Ledger W → Prop}
    (steps : ∀ g, Holds .lax ws g A → ∃ g' A', step g = .ok g' ∧ Holds .lax ws g' A' ∧ Q A') :
    ∃ team' A', team.withThread thread step = .ok team' ∧ Keeps ws team' A' ∧ Q A' := by
  obtain ⟨g', A', stepped, holds', more⟩ := steps _ (keeps.holds.rebitmap (keeps.clean thread))
  exact ⟨_, A', by rw [Team.withThread, stepped, ok_bind], keeps.turn thread holds', more⟩

end Team

theorem snapshotVertex_holds (P : Platform W) {rules : Rules} {ws : List Nat} {g : RadixGraph W} {A : Ledger W}
    (holds : Holds rules ws g A) (sortNeighbours makeDense : Bool) {i : Nat} (inside : i < A.ids.length) :
    ∃ g', snapshotVertex P sortNeighbours makeDense g i = .ok g' ∧ Holds rules ws g' A := by
  have midway : Midway rules ws g.global.isMixedWorkloads g.revived A [] g.revived :=
    ⟨holds.index, holds.clean, rfl, le_rfl, rfl, fun k v at_k => by
      rw [if_neg List.not_mem_nil]
      exact holds.kept k v at_k⟩
  obtain ⟨g₁, made, after⟩ := snapshotVertex_spec P holds.rate sortNeighbours makeDense midway inside
  rw [snapshotVertex_revived, map_eq_ok] at made
  obtain ⟨g', made, rfl⟩ := made
  refine ⟨g', made, after.index, after.clean, after.expandRate ▸ holds.rate, fun k v at_k => ?_, holds.closed⟩
  have mixed : g'.global.isMixedWorkloads = g.global.isMixedWorkloads := after.mixed
  have kept := after.kept k v at_k
  change Kept _ _ (if k ∈ [] ++ [i] then g'.global.isMixedWorkloads else g.global.isMixedWorkloads) _ _ at kept
  rwa [← mixed, ite_self] at kept

namespace Team

variable {ws : List Nat} {team : Team W} {A : Ledger W}

theorem Keeps.act (P : Platform W) (keeps : Keeps ws team A) (thread : Nat) (share : Nat → Nat) (action : Action W) :
    ∃ team' A', team.act P thread share action = .ok team' ∧ Keeps ws team' A' := by
  have plain (action : Action W) : ∃ team' A',
      team.withThread thread (fun g => RadixGraph.act P g action) = .ok team' ∧ Keeps ws team' A' := by
    obtain ⟨team', A', ran, keeps', -⟩ := keeps.withThread (Q := fun _ => True) thread fun g holds => by
      obtain ⟨g', acted, holds', -⟩ := act_holds P id holds (Ledger.admits_lax ws.sum A action)
      exact ⟨g', _, acted, holds', trivial⟩
    exact ⟨team', A', ran, keeps'⟩
  cases action with
  | deleteVertex id => exact plain _
  | getNeighboursByOffset src timestamp => exact plain _
  | op op =>
      cases op with
      | createSnapshots sortNeighbours makeDense =>
          have perm := P.order_perm team.graph.global team.graph.vertexIndex.cnt
          have iteration (done : List Nat) (i : Nat) (s : Team W)
              (earlier : done ++ [i] <+: P.order team.graph.global team.graph.vertexIndex.cnt)
              (before : Keeps ws s A) : ∃ s', s.withThread (share i)
                (fun g => snapshotVertex P sortNeighbours makeDense g i) = .ok s' ∧ Keeps ws s' A := by
            have member : i ∈ List.range team.graph.vertexIndex.cnt := perm.subset (earlier.subset (by simp))
            rw [List.mem_range, keeps.holds.dictionary.cnt] at member
            obtain ⟨s', A', ran, after, rfl⟩ := before.withThread (Q := (· = A)) (share i) fun g holds => by
              obtain ⟨g', made, holds'⟩ := snapshotVertex_holds P holds sortNeighbours makeDense member
              exact ⟨g', A, made, holds', rfl⟩
            exact ⟨s', ran, after⟩
          obtain ⟨team', looped, keeps'⟩ := foldlM_invariant _ (fun _ s => Keeps ws s A) iteration keeps
          have holds := keeps'.holds
          have settled : Holds .lax ws { team'.graph with isSorted := sortNeighbours } A :=
            ⟨holds.index, holds.clean, holds.rate, holds.kept, holds.closed⟩
          exact ⟨{ team' with graph := { team'.graph with isSorted := sortNeighbours } }, A,
            by rw [Team.act, looped, ok_bind], settled, keeps'.clean⟩
      | _ => exact plain _

theorem actions_keeps (P : Platform W) (keeps : Keeps ws team A) (acts : List (Nat × (Nat → Nat) × Action W)) :
    ∃ team' A', team.actions P acts = .ok team' ∧ Keeps ws team' A' := by
  have steps (team : Team W) (turn : Nat × (Nat → Nat) × Action W) (before : ∃ A, Keeps ws team A) (_ : True) :
      ∃ team', team.act P turn.1 turn.2.1 turn.2.2 = .ok team' ∧ ∃ A, Keeps ws team' A := by
    obtain ⟨A, keeps⟩ := before
    obtain ⟨team', A', acted, keeps'⟩ := keeps.act P turn.1 turn.2.1 turn.2.2
    exact ⟨team', acted, A', keeps'⟩
  obtain ⟨team', ran, A', keeps'⟩ := foldlM_along steps ⟨A, keeps⟩ (along_of_forall (fun _ _ => trivial) team acts)
  exact ⟨team', A', ran, keeps'⟩

theorem Keeps.same_read (keeps : Keeps ws team A) {bitmap bitmap' : SegmentedBitmap} (clean : bitmap.Clean)
    (clean' : bitmap'.Clean) (id : NodeID) (timestamp : Int) :
    ∃ answer, readVertex { team.graph with bitmap := bitmap } id timestamp = .ok answer ∧
      readVertex { team.graph with bitmap := bitmap' } id timestamp = .ok answer := by
  have holds := keeps.holds.rebitmap clean
  have holds' := keeps.holds.rebitmap clean'
  cases known : SORT.position ws.sum A.ids id with
  | none => exact ⟨_, readVertex_unknown holds known timestamp, readVertex_unknown holds' known timestamp⟩
  | some k =>
      obtain ⟨p, -, paged, -⟩ := keeps.holds.page (SORT.position_isLt known)
      have here : ({ team.graph with bitmap := bitmap } : RadixGraph W).Paged k p := paged
      have here' : ({ team.graph with bitmap := bitmap' } : RadixGraph W).Paged k p := paged
      exact ⟨_, here.readVertex holds known timestamp, here'.readVertex holds' known timestamp⟩

theorem Keeps.same_offset (keeps : Keeps ws team A) {bitmap bitmap' : SegmentedBitmap} (clean : bitmap.Clean)
    (clean' : bitmap'.Clean) (k : Nat) (timestamp : Int) :
    ∃ answer, readOffset { team.graph with bitmap := bitmap } k timestamp = .ok answer ∧
      readOffset { team.graph with bitmap := bitmap' } k timestamp = .ok answer := by
  have holds := keeps.holds.rebitmap clean
  have holds' := keeps.holds.rebitmap clean'
  by_cases inside : k < A.ids.length
  · obtain ⟨p, -, paged, -⟩ := keeps.holds.page inside
    have here : ({ team.graph with bitmap := bitmap } : RadixGraph W).Paged k p := paged
    have here' : ({ team.graph with bitmap := bitmap' } : RadixGraph W).Paged k p := paged
    exact ⟨_, here.readOffset holds timestamp, here'.readOffset holds' timestamp⟩
  · have outside := Nat.not_lt.mp inside
    exact ⟨_, readOffset_unknown holds outside timestamp, readOffset_unknown holds' outside timestamp⟩

/-- A scratch bitmap that is clean before a read or a compaction is clean after it, for every array,
snapshot boundary and timestamp. In a run on any number of threads all bitmaps are clean in every state,
and no read depends on which of them it uses. -/
theorem scratch_clean (P : Platform W) (global : GlobalInfo) {index : SORT W}
    (constructed : SORT.Constructed index ws) {L : Nat} (positive : 0 < L)
    (acts : List (Nat × (Nat → Nat) × Action W)) :
    (∀ (info : GlobalInfo) (bitmap : SegmentedBitmap) (src : Vertex W) neighbours timestamp answer,
      bitmap.Clean → getNeighboursOf info bitmap src neighbours timestamp = .ok answer → answer.2.2.2.Clean) ∧
    (∀ (info : GlobalInfo) (bitmap : SegmentedBitmap) (oldArr newArr : WeightedEdgeArray W) result,
      bitmap.Clean → logCompaction info bitmap oldArr newArr = .ok result → result.2.1.Clean) ∧
    ∃ team, actions P (construct global index L positive) acts = .ok team ∧
      (∀ thread, (team.bitmaps thread).Clean) ∧
      ∀ (thread : Nat) (bitmap : SegmentedBitmap), bitmap.Clean →
        (∀ id timestamp, ∃ answer,
          readVertex { team.graph with bitmap := team.bitmaps thread } id timestamp = .ok answer ∧
          readVertex { team.graph with bitmap := bitmap } id timestamp = .ok answer) ∧
        ∀ (k : Nat) timestamp, ∃ answer,
          readOffset { team.graph with bitmap := team.bitmaps thread } k timestamp = .ok answer ∧
          readOffset { team.graph with bitmap := bitmap } k timestamp = .ok answer := by
  refine ⟨fun info bitmap src neighbours timestamp answer clean ran => getNeighboursOf_clean ran clean,
    fun info bitmap oldArr newArr result clean ran => logCompaction_clean ran clean, ?_⟩
  have start : Keeps ws (construct global index L positive) {} :=
    ⟨construct_holds .lax global constructed positive, fun _ => SegmentedBitmap.reset_clean _⟩
  obtain ⟨team, A, ran, keeps⟩ := actions_keeps P start acts
  exact ⟨team, ran, keeps.clean, fun thread bitmap clean =>
    ⟨keeps.same_read (keeps.clean thread) clean, keeps.same_offset (keeps.clean thread) clean⟩⟩

/-- Two threads, a snapshot loop that is split between them, and a read in the past. -/
theorem scratch_clean_shared :
    (∀ (info : GlobalInfo) (bitmap : SegmentedBitmap) (src : Vertex Nat) neighbours timestamp answer,
      bitmap.Clean → getNeighboursOf info bitmap src neighbours timestamp = .ok answer → answer.2.2.2.Clean) ∧
    (∀ (info : GlobalInfo) (bitmap : SegmentedBitmap) (oldArr newArr : WeightedEdgeArray Nat) result,
      bitmap.Clean → logCompaction info bitmap oldArr newArr = .ok result → result.2.1.Clean) ∧
    ∃ team, actions Platform.exact (construct ⟨0, true⟩ (.ofVector [1]) 1 (by decide))
        [(0, id, .op (.insertEdge 0 1 1)), (1, id, .op (.deleteEdge 0 1)),
          (0, (· % 2), .op (.createSnapshots true false)), (1, id, .op (.getNeighbours 0 0))] = .ok team ∧
      (∀ thread, (team.bitmaps thread).Clean) ∧
      ∀ (thread : Nat) (bitmap : SegmentedBitmap), bitmap.Clean →
        (∀ id timestamp, ∃ answer,
          readVertex { team.graph with bitmap := team.bitmaps thread } id timestamp = .ok answer ∧
          readVertex { team.graph with bitmap := bitmap } id timestamp = .ok answer) ∧
        ∀ (k : Nat) timestamp, ∃ answer,
          readOffset { team.graph with bitmap := team.bitmaps thread } k timestamp = .ok answer ∧
          readOffset { team.graph with bitmap := bitmap } k timestamp = .ok answer := by
  have constructed : SORT.Constructed (SORT.ofVector [1] : SORT Nat) [1] := .vector (by decide)
  exact scratch_clean Platform.exact ⟨0, true⟩ constructed (by decide) _

end Team

end RadixGraph

end Radix
