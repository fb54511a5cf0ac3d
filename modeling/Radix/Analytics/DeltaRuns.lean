import Radix.Analytics.Relaxing

/-!
# A run of the bins

Every round relaxes the vertices of the frontier and of the current bin and takes up the next bin that is not
empty. The work that is left gets less in every round.
-/

namespace Radix.Analytics

open Lib RadixGraph Lib.Distances Lib.Buckets

/-! ## The frontier -/

structure PVector.Shows (frontier : PVector Nat) (n : Nat) (items : List Nat) : Prop where
  length : frontier.cells.length = n
  item : ∀ i u, items[i]? = some u → frontier.get i = .ok u

section Copy

variable {n copyStart : Nat}

theorem copyBin_from (vs : List Nat) : ∀ {frontier : PVector Nat} {j : Nat}, frontier.cells.length = n →
    copyStart + j + vs.length ≤ n →
    ∃ frontier', (vs.zipIdx j).foldlM (fun (frontier : PVector Nat) (v, k) => frontier.set (copyStart + k) v) frontier =
        .ok frontier' ∧ frontier'.cells.length = n ∧
      (∀ i < copyStart + j, frontier'.get i = frontier.get i) ∧
      ∀ i u, vs[i]? = some u → frontier'.get (copyStart + j + i) = .ok u := by
  induction vs with
  | nil =>
      intro frontier j length _
      exact ⟨frontier, rfl, length, fun _ _ => rfl, fun i u none => by cases none⟩
  | cons v vs ih =>
      intro frontier j length fits
      rw [List.length_cons] at fits
      have inside : copyStart + j < frontier.cells.length := by omega
      obtain ⟨frontier', copied, length', before, items⟩ := ih (j := j + 1)
        (show (⟨frontier.cells.set (copyStart + j) (some v)⟩ : PVector Nat).cells.length = n by simpa using length)
          (by omega)
      refine ⟨frontier', ?_, length', fun i earlier => ?_, fun i u here => ?_⟩
      · rw [List.zipIdx_cons, List.foldlM_cons]
        dsimp only
        rw [PVector.set, if_pos inside, ok_bind]
        exact copied
      · rw [before i (by omega), PVector.get, PVector.get, List.getElem?_set_ne (by omega)]
      · cases i with
        | zero =>
            obtain rfl := Option.some.inj here
            rw [Nat.add_zero, before _ (by omega), PVector.get, List.getElem?_set_self inside]
        | succ i =>
            rw [← items i u here]
            congr 1
            omega

theorem copyBin_overflow (vs : List Nat) : ∀ {frontier : PVector Nat} {j : Nat}, frontier.cells.length = n →
    copyStart + j ≤ n → n < copyStart + j + vs.length →
    ∃ e, (vs.zipIdx j).foldlM (fun (frontier : PVector Nat) (v, k) => frontier.set (copyStart + k) v) frontier =
      .error e := by
  induction vs with
  | nil =>
      intro frontier j _ within beyond
      exact absurd beyond (Nat.not_lt.mpr within)
  | cons v vs ih =>
      intro frontier j length within beyond
      rw [List.length_cons] at beyond
      rw [List.zipIdx_cons, List.foldlM_cons]
      dsimp only
      rw [PVector.set]
      split
      · rw [ok_bind]
        apply ih
        · simpa using length
        · omega
        · omega
      · exact ⟨_, rfl⟩

end Copy

theorem copyBin_spec {n : Nat} {frontier : PVector Nat} (length : frontier.cells.length = n) (vs : List Nat) :
    if vs.length ≤ n then ∃ frontier', copyBin frontier 0 vs = .ok frontier' ∧ frontier'.Shows n vs
    else ∃ e, copyBin frontier 0 vs = .error e := by
  split
  · rename_i fits
    obtain ⟨frontier', copied, length', -, items⟩ := copyBin_from vs length (show 0 + 0 + vs.length ≤ n by omega)
    exact ⟨frontier', copied, length', by simpa using items⟩
  · rename_i large
    exact copyBin_overflow vs length (Nat.zero_le n) (by omega)

/-! ## The next bin -/

theorem firstBin_none {localBins : List (List Nat)} {c : Nat} (none : firstBin localBins c = none) {i : Nat}
    (later : c ≤ i) :
    bin localBins i = [] := by
  rcases Nat.lt_or_ge i localBins.length with inside | beyond
  · have empty := List.find?_eq_none.mp none i (List.mem_range'_1.mpr ⟨later, by omega⟩)
    simpa using empty
  · rw [bin, List.getElem?_eq_none beyond]
    rfl

theorem firstBin_some {localBins : List (List Nat)} {c b : Nat} (some : firstBin localBins c = some b) :
    c ≤ b ∧ b < localBins.length ∧ bin localBins b ≠ [] ∧ ∀ i, c ≤ i → i < b → bin localBins i = [] := by
  obtain ⟨full, member, empty⟩ := List.find?_range'_eq_some.mp some
  rw [List.mem_range'_1] at member
  exact ⟨member.1, by omega, by simpa using full, fun i later before => by simpa using empty i later before⟩

/-! ## The loops -/

variable {R : Run} {c : Nat} {rest : List Nat} {s : Relaxation} {f : Nat → ℚ}

namespace Resting

theorem drop {u : Nat} (resting : Resting R c (u :: rest) s f) (overtaken : f u < R.delta * c) :
    Resting R c rest s f := by
  refine ⟨resting.toWaiting.drop (.inr overtaken), fun roomy => ?_⟩
  obtain ⟨done, covered⟩ := resting.covered roomy
  exact ⟨done, covered.drop⟩

theorem take (proper : R.Proper) (resting : Resting R c [] s f) {b : Nat} (later : c ≤ b)
    (empty : ∀ i, c ≤ i → i < b → bin s.localBins i = []) :
    Resting R b (bin s.localBins b) { s with localBins := s.localBins.set b [] } f := by
  have nonneg := resting.tentative.nonneg proper.positive
  refine ⟨⟨resting.serves, resting.dist, resting.tentative, ?_, ?_, resting.inside b, ?_, resting.onGrid⟩,
    fun roomy => ?_⟩
  · rw [bin_cleared]
    exact resting.pending.take proper.wide nonneg empty
  · intro i v member
    apply resting.inside i v
    rw [bin_cleared] at member
    by_cases same : i = b
    · rw [same, Function.update_self] at member
      cases member
    · rwa [Function.update_of_ne same] at member
  · rw [List.length_set]
    exact resting.room
  · obtain ⟨done, covered⟩ := resting.covered roomy
    refine ⟨done, ?_⟩
    rw [Covered, bin_cleared]
    apply covered.take proper.wide later
    exact Nat.le.intro (entries_cleared s.localBins b)

theorem fits (proper : R.Proper) (resting : Resting R c rest s f) {b : Nat}
    (met : R.met (.cells (bin s.localBins b).length)) : (bin s.localBins b).length ≤ R.room.numEdges := by
  rcases proper.met _ met with direct | roomy
  · exact direct
  · obtain ⟨done, covered⟩ := resting.covered roomy
    have cleared := entries_cleared s.localBins b
    calc (bin s.localBins b).length ≤ entries s.localBins := by omega
      _ ≤ ∑ u ∈ done, (R.adj u).length := covered.count
      _ ≤ ∑ u ∈ Finset.range R.A.ids.length, (R.adj u).length := by
        apply Finset.sum_le_sum_of_ne_zero
        intro u _ listed
        rw [Finset.mem_range]
        by_contra beyond
        rw [proper.answers.outside u (Nat.le_of_not_lt beyond)] at listed
        exact listed rfl
      _ ≤ R.room.numEdges := roomy.cells

end Resting

theorem work_taken (R : Run) (s : Relaxation) (f : Nat → ℚ) {b : Nat} (full : bin s.localBins b ≠ []) :
    work R { s with localBins := s.localBins.set b [] } f < work R s f := by
  have cleared := entries_cleared s.localBins b
  have entry := List.length_pos_iff.mpr full
  change potential _ _ f + entries (s.localBins.set b []) < potential _ _ f + entries s.localBins
  omega

theorem visits_spec (proper : R.Proper) {items : List Nat} {frontier : PVector Nat}
    (shows : frontier.Shows R.room.numEdges items) (resting : Resting R c items s f) :
    ((List.range items.length).foldlM (visit R.room R.delta c frontier) s).Reaches (R.met) fun s' =>
      ∃ f', Resting R c [] s' f' ∧ work R s' f' ≤ work R s f := by
  let holds (done : List Nat) (t : Relaxation) : Prop :=
    ∃ f', Resting R c (items.drop done.length) t f' ∧ work R t f' ≤ work R s f
  have looped : ((List.range items.length).foldlM (visit R.room R.delta c frontier) s).Reaches (R.met)
      (holds (List.range items.length)) := by
    apply Traced.reaches_foldlM
    · rintro done i t earlier ⟨f', resting', less⟩
      obtain ⟨after, split⟩ := earlier
      have place : (List.range items.length)[done.length]? = some i := by
        rw [← split]
        simp
      obtain ⟨inside, equal⟩ := List.getElem?_eq_some_iff.mp place
      rw [List.length_range] at inside
      obtain rfl : done.length = i := by rw [← equal, List.getElem_range]
      have count : (done ++ [done.length]).length = done.length + 1 := List.length_append
      rw [List.drop_eq_getElem_cons inside] at resting'
      have member := resting'.rest _ List.mem_cons_self
      unfold visit
      apply Traced.reaches_lift_bind (shows.item _ _ (List.getElem?_eq_getElem inside))
      apply Traced.reaches_lift_bind (resting'.dist.get (member.trans_le proper.size))
      split
      · rename_i here
        apply (relaxEdges_spec proper resting' here).mono
        rintro t' ⟨f'', resting'', -, less'⟩
        exact ⟨f'', count ▸ resting'', less'.trans less⟩
      · rename_i overtaken
        apply Traced.reaches_pure
        exact ⟨f', count ▸ resting'.drop (lt_of_not_ge overtaken), less⟩
    · exact ⟨f, resting, le_refl _⟩
  apply looped.mono
  rintro s' ⟨f', resting', less⟩
  rw [List.length_range, List.drop_length] at resting'
  exact ⟨f', resting', less⟩

theorem round_spec (proper : R.Proper) {items : List Nat} (resting : Resting R c items s f)
    (here : ∀ u ∈ items, R.delta * c ≤ f u) :
    (items.foldlM (relaxEdges R.room R.delta) s).Reaches (R.met) fun s' =>
      ∃ f', Resting R c [] s' f' ∧ work R s' f' ≤ work R s f := by
  let holds (done : List Nat) (t : Relaxation) : Prop :=
    ∃ f', Resting R c (items.drop done.length) t f' ∧ Lowers R c f f' ∧ work R t f' ≤ work R s f
  have looped : (items.foldlM (relaxEdges R.room R.delta) s).Reaches (R.met) (holds items) := by
    apply Traced.reaches_foldlM
    · rintro done u t ⟨after, split⟩ ⟨f', resting', lowers, less⟩
      have left : items.drop done.length = u :: after := by
        rw [← split, List.append_assoc]
        exact List.drop_left
      have left' : items.drop (done ++ [u]).length = after := by
        rw [← split]
        exact List.drop_left
      have member : u ∈ items := by
        rw [← split]
        simp
      rw [left] at resting'
      apply (relaxEdges_spec proper resting' (lowers.here (here u member))).mono
      rintro t' ⟨f'', resting'', lowers', less'⟩
      exact ⟨f'', left' ▸ resting'', lowers.trans lowers', less'.trans less⟩
    · exact ⟨f, resting, .refl .., le_refl _⟩
  apply looped.mono
  rintro s' ⟨f', resting', -, less⟩
  rw [List.drop_length] at resting'
  exact ⟨f', resting', less⟩

theorem fuse_spec (proper : R.Proper) (n : Nat) : ∀ {s : Relaxation} {f : Nat → ℚ}, Resting R c [] s f → work R s f = n →
    Traced.Settles (R.met) (fun s' => ∃ f', Resting R c [] s' f' ∧ work R s' f' ≤ n)
      fun fuel => fuse R.room R.delta c fuel s := by
  induction n using Nat.strong_induction_on with
  | h n ih =>
      intro s f resting count
      apply Traced.Settles.succ
      by_cases small : c < s.localBins.length ∧ bin s.localBins c ≠ [] ∧ (bin s.localBins c).length < kBinSizeThreshold
      · have taken := resting.take proper le_rfl fun i later before => absurd later (Nat.not_le.mpr before)
        have fewer := work_taken R s f small.2.1
        simp only [fuse, if_pos small]
        apply (round_spec proper taken resting.pending.current).settles.bind
        rintro s' ⟨f', resting', less⟩
        -- every push is paid for by a lower distance, so the copied entries are gone
        have progress : work R s' f' < n := count ▸ less.trans_lt fewer
        apply (ih _ progress resting' rfl).mono
        rintro s'' ⟨f'', resting'', less'⟩
        exact ⟨f'', resting'', less'.trans progress.le⟩
      · simp only [fuse, if_neg small]
        exact (Traced.reaches_pure ⟨f, resting, count.le⟩).settles

theorem fuse_stable (room : Room) (delta : ℚ) (c n : Nat) (s : Relaxation) :
    Traced.Stable .hang (fun fuel => fuse room delta c fuel s) n := by
  induction n generalizing s with
  | zero => exact fun enough => absurd rfl enough
  | succ n ih =>
      change Traced.Stable .hang (fun fuel => fuse room delta c (fuel + 1) s) n
      simp only [fuse]
      split
      · exact (Traced.stable_const _).bind ih
      · exact Traced.stable_const _

namespace Stepping

theorem steps_stable (room : Room) (delta : ℚ) (n : Nat) (s : Stepping) :
    Traced.Stable .hang (fun fuel => s.steps room delta fuel) n := by
  induction n generalizing s with
  | zero => exact fun enough => absurd rfl enough
  | succ n ih =>
      change Traced.Stable .hang (fun fuel => s.steps room delta (fuel + 1)) n
      simp only [steps]
      split
      · exact Traced.stable_const _
      · apply (Traced.stable_const _).bind
        intro r
        apply (fuse_stable room delta s.currBinIndex n r).bind
        intro r'
        exact (Traced.stable_const _).bind ih

structure Ready (R : Run) (s : Stepping) (f : Nat → ℚ) : Prop where
  items : ∃ items, s.frontier.Shows R.room.numEdges items ∧ items.length = s.currFrontierTail ∧
    Resting R s.currBinIndex items s.toRelaxation f
  runs : s.currBinIndex ≠ kMaxBin
  nextBinIndex : s.nextBinIndex = kMaxBin
  nextFrontierTail : s.nextFrontierTail = 0

structure Final (R : Run) (s : Stepping) (f : Nat → ℚ) : Prop where
  stops : s.currBinIndex = kMaxBin
  dist : s.dist.Stores R.numNodes f
  tentative : Tentative (ListedWeight R.adj) R.source kDistInf f
  relaxed : ∀ u, f u < kDistInf → Relaxed (ListedWeight R.adj) f u

theorem advance_spec (proper : R.Proper) {s : Stepping} (frontier : s.frontier.cells.length = R.room.numEdges)
    (resting : Resting R s.currBinIndex [] s.toRelaxation f) (nextBin : s.nextBinIndex = kMaxBin)
    (nextTail : s.nextFrontierTail = 0) :
    s.advance.Reaches (R.met) fun s' =>
      Final R s' f ∨ Ready R s' f ∧ work R s'.toRelaxation f < work R s.toRelaxation f := by
  have fewBins : s.localBins.length ≤ kMaxBin := resting.room.trans proper.few
  unfold advance
  cases chosen : firstBin s.localBins s.currBinIndex with
  | none =>
      dsimp only
      rw [if_neg (nextBin ▸ fewBins.not_gt)]
      apply Traced.reaches_pure
      exact .inl ⟨nextBin, resting.dist, resting.tentative,
        fun u short => resting.pending.relaxed (fun i later => firstBin_none chosen later) short⟩
  | some b =>
      -- the bins before `b` are empty, so it may be taken up
      obtain ⟨later, inside, full, empty⟩ := firstBin_some chosen
      have least : min s.nextBinIndex b = b := min_eq_right (nextBin ▸ (inside.trans_le fewBins).le)
      have copied := copyBin_spec frontier (bin s.localBins b)
      simp only [least, if_pos inside, nextTail, Nat.zero_add]
      apply Traced.reaches_demand
      · intro met
        obtain ⟨frontier', stored, shows⟩ := (if_pos (resting.fits proper met)).mp copied
        apply Traced.reaches_lift_bind stored
        apply Traced.reaches_pure
        exact .inr ⟨⟨⟨_, shows, rfl, resting.take proper later empty⟩, (inside.trans_le fewBins).ne, rfl, rfl⟩,
          work_taken R s.toRelaxation f full⟩
      · intro unmet
        obtain ⟨e, failed⟩ := (if_neg fun small => unmet (proper.meets (.cells _) small)).mp copied
        exact ⟨e, by rw [Traced.bind_result, Traced.liftM_result, failed, error_bind]⟩

theorem steps_spec (proper : R.Proper) (n : Nat) : ∀ {s : Stepping} {f : Nat → ℚ}, Ready R s f →
    work R s.toRelaxation f = n →
    Traced.Settles (R.met) (fun s' => ∃ f', Final R s' f') fun fuel => s.steps R.room R.delta fuel := by
  induction n using Nat.strong_induction_on with
  | h n ih =>
      intro s f ready count
      obtain ⟨items, shows, tail, resting⟩ := ready.items
      apply Traced.Settles.succ
      simp only [steps, if_neg ready.runs, ← tail]
      apply (visits_spec proper shows resting).settles.bind
      rintro r ⟨f', resting', less⟩
      apply (fuse_spec proper _ resting' rfl).bind
      rintro r' ⟨f'', resting'', less'⟩
      apply (advance_spec proper (s := { s with toRelaxation := r' }) shows.length resting'' ready.nextBinIndex
        ready.nextFrontierTail).settles.bind
      rintro s' (final | ⟨ready', less''⟩)
      · apply Traced.Settles.succ
        simp only [steps, if_pos final.stops]
        exact (Traced.reaches_pure ⟨f'', final⟩).settles
      · exact ih _ (count ▸ less''.trans_le (less'.trans less)) ready' rfl

end Stepping

end Radix.Analytics
