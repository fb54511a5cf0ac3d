import Radix.Graph.Reports
import Radix.Graph.Standing

/-!
# The tree follows the calls

The tree enters, deletes and lists vertices as the calls say, and names the internal ids it lists.
-/

namespace Radix

open Lib Lib.LastWrite

variable {W : Type} [Zero W]

def Ledger.StandsFor (A : Ledger W) (i : Int) (id : NodeID) : Prop := ∃ l : Nat, i = l ∧ A.ids[l]? = some id

namespace RadixGraph

variable [DecidableEq W] {weighted : Prop} {ws : List Nat} {s : Standing} {g g' : RadixGraph W} {A A' : Ledger W}

structure Stands (weighted : Prop) (ws : List Nat) (s : Standing) (g : RadixGraph W) (A : Ledger W) : Prop where
  holds : Holds .lax ws g A
  inRange : ∀ id ∈ A.ids, id < 2 ^ ws.sum
  known : ∀ id, id ∈ A.ids ↔ id ∈ s.known
  dead : ∀ k id, A.ids[k]? = some id → (g.gone k = -1 ↔ id ∉ s.dead)
  early : ∀ k, g.gone k ≤ maxTimestamp
  sound : s.Sound
  pages : ∀ k id p, A.ids[k]? = some id → g.Paged k p → s.Lists weighted A.StandsFor id p

theorem Stands.unknown (stands : Stands weighted ws s g A) {id : NodeID} (here : id < 2 ^ ws.sum) :
    SORT.position ws.sum A.ids id = none ↔ id ∉ s.known := by
  rw [SORT.position_none_inRange stands.inRange here, stands.known]

theorem Stands.alive (stands : Stands weighted ws s g A) {id : NodeID} (here : id < 2 ^ ws.sum) :
    A.Alive ws.sum g.gone id ↔ s.Alive id := by
  cases known : SORT.position ws.sum A.ids id with
  | none =>
      have absent := (stands.unknown here).mp known
      constructor
      · rintro ⟨k, there, -⟩
        rw [known] at there
        cases there
      · exact fun alive => absurd alive.1 absent
  | some k =>
      have at_k := SORT.position_some_inRange stands.inRange here known
      have present := (stands.known id).mp (List.mem_of_getElem? at_k)
      rw [Ledger.alive_iff known, stands.dead k id at_k, Standing.Alive, and_iff_right present]

theorem getInternalID_stands (stands : Stands weighted ws s g A) {id : NodeID} (here : id < 2 ^ ws.sum)
    (gone : ¬ s.Alive id) : g.getInternalID id = .ok (-1) := by
  rw [getInternalID_holds stands.holds]
  cases known : SORT.position ws.sum A.ids id with
  | none => rfl
  | some k =>
      have dead : g.gone k ≠ -1 := fun alive =>
        gone ((stands.alive here).mp ((Ledger.alive_iff known).mpr alive))
      simp only [if_neg dead]

/-! ### The pages -/

theorem one_position (holds : Holds .lax ws g A) {j k : Nat} {id : NodeID} (here : A.ids[j]? = some id)
    (there : A.ids[k]? = some id) : j = k :=
  Option.some.inj ((holds.dictionary.position_self here).symm.trans (holds.dictionary.position_self there))

theorem getElem?_extends {ids more : List NodeID} (earlier : ids <+: more) {k : Nat} {id : NodeID}
    (here : ids[k]? = some id) : more[k]? = some id := by
  obtain ⟨rest, rfl⟩ := earlier
  rw [List.getElem?_append_left (List.getElem?_eq_some_iff.mp here).1, here]

theorem Stands.before (stands : Stands weighted ws s g A) (holds' : Holds .lax ws g' A') (more : A.ids <+: A'.ids)
    {k : Nat} {id : NodeID} (here : A'.ids[k]? = some id) {p : Page W}
    (before : g.Paged k p ∨ A.ids.length ≤ k ∧ p = .fresh g.global) : s.Lists weighted A'.StandsFor id p := by
  rcases before with paged | ⟨outside, rfl⟩
  · have inside := paged.inside stands.holds
    have there : A.ids[k]? = some id := by
      obtain ⟨rest, same⟩ := more
      rwa [← same, List.getElem?_append_left inside] at here
    refine (stands.pages k id p there paged).congr (fun _ => Iff.rfl) (List.Subset.refl _) fun i des edge => ?_
    constructor
    · rintro ⟨l, rfl, at_l⟩
      obtain ⟨j, at_j⟩ := List.mem_iff_getElem?.mp ((stands.known des).mpr (stands.sound.ends _ edge).2)
      obtain rfl := one_position holds' at_l (getElem?_extends more at_j)
      exact ⟨l, rfl, at_j⟩
    · rintro ⟨l, rfl, at_l⟩
      exact ⟨l, rfl, getElem?_extends more at_l⟩
  · refine .fresh g.global fun des edge => ?_
    obtain ⟨j, at_j⟩ := List.mem_iff_getElem?.mp ((stands.known id).mpr (stands.sound.ends _ edge).1)
    obtain rfl := one_position holds' here (getElem?_extends more at_j)
    exact absurd (List.getElem?_eq_some_iff.mp at_j).1 (Nat.not_lt.mpr outside)

theorem lists_write (holds' : Holds .lax ws g' A') {src des : NodeID} {l : Nat} (target : A'.ids[l]? = some des)
    {p p' : Page W} (lists : s.Lists weighted A'.StandsFor src p) {info : GlobalInfo} {weight : W} {delta : Int}
    {ticks' : Nat} (logs : p.Logs info { weight := weight, idx := (l : Int) } delta ticks' p') (small : delta ≤ 1)
    {present : Bool} (kind : present = true ↔ weight ≠ 0 ∨ delta = 1) (weighs : weighted → delta = 1 → weight ≠ 0) :
    (s.write src des present).Lists weighted A'.StandsFor src p' := by
  have live : ({ weight := weight, idx := (l : Int) } : WeightedEdge W).live = true ↔ weight ≠ 0 := by
    simp [WeightedEdge.live]
  refine lists.write logs ⟨l, rfl, target⟩ ?_ ?_ small (by rw [kind, live]) fun all insertion =>
    live.mpr (weighs all insertion)
  · rintro des' ⟨j, same, there⟩
    obtain rfl := Int.natCast_inj.mp same
    exact Option.some.inj (there.symm.trans target)
  · rintro i ⟨j, rfl, there⟩
    rw [one_position holds' there target]

theorem lists_other {src des id : NodeID} {p : Page W} (other : id ≠ src)
    (lists : s.Lists weighted A.StandsFor id p) (present : Bool) :
    (s.write src des present).Lists weighted A.StandsFor id p :=
  lists.congr (fun des' => by rw [Standing.mem_write, if_neg fun same => other (Prod.mk.inj same).1])
    (List.subset_cons_self _ _) fun _ _ _ => Iff.rfl

/-! ### The calls -/

theorem insertEdge_stands (P : Platform W) (stands : Stands weighted ws s g A) {src des : NodeID}
    (source : src < 2 ^ ws.sum) (target : des < 2 ^ ws.sum) {weight : W} (weighs : weighted → weight ≠ 0) :
    ∃ g' A', g.insertEdge P src des weight = .ok (true, g') ∧
      Stands weighted ws (s.after (.insertEdge src des weight)) g' A' := by
  have allowed : Rules.Tidy .lax → weight ≠ 0 ∧ A.edge ws.sum src des = none := fun tidy => tidy.elim
  obtain ⟨g', inserted, holds', times, -⟩ := insertEdge_holds P stands.holds src des allowed
  have ran : act P g (.op (.insertEdge src des weight)) = .ok g' := by rw [act, perform, inserted, ok_bind]
  have member (id : NodeID) : id ∈ SORT.enter ws.sum (SORT.enter ws.sum A.ids src) des ↔
      id = des ∨ id = src ∨ id ∈ A.ids := by
    rw [SORT.mem_enter _ target, SORT.mem_enter stands.inRange source]
    intro id inside
    rw [SORT.mem_enter stands.inRange source] at inside
    rcases inside with rfl | old
    · exact source
    · exact stands.inRange id old
  have extends' : A.ids <+: SORT.enter ws.sum (SORT.enter ws.sum A.ids src) des :=
    (enter_extends ws.sum A.ids src).trans (enter_extends ws.sum _ des)
  have ids : (A.next ws.sum (Kept.logTimestamp g'.global) (.insertEdge src des weight)).ids =
      SORT.enter ws.sum (SORT.enter ws.sum A.ids src) des := Ledger.write_ids ..
  generalize A.next ws.sum (Kept.logTimestamp g'.global) (.insertEdge src des weight) = A' at holds' ids
  have inRange' (id : NodeID) (inside : id ∈ A'.ids) : id < 2 ^ ws.sum := by
    rw [ids, member] at inside
    rcases inside with rfl | rfl | old
    · exact target
    · exact source
    · exact stands.inRange id old
  have sound : ((s.enter src).enter des).Sound := (stands.sound.enter src).enter des
  refine ⟨g', A', inserted, holds', inRange', fun id => ?_, fun k id at_k => ?_, times ▸ stands.early,
    sound.write (List.mem_cons_of_mem des List.mem_cons_self) List.mem_cons_self true, fun k id p' at_k paged => ?_⟩
  · rw [ids, member, stands.known]
    exact (List.mem_cons.trans (or_congr_right List.mem_cons)).symm
  · rw [times]
    by_cases old : k < A.ids.length
    · refine stands.dead k id ?_
      obtain ⟨more, split⟩ := extends'
      rwa [ids, ← split, List.getElem?_append_left old] at at_k
    · refine iff_of_true (stands.holds.gone_unborn (Nat.not_lt.mp old)) fun dead => old ?_
      obtain ⟨j, at_j⟩ := List.mem_iff_getElem?.mp ((stands.known id).mpr (stands.sound.buried id dead))
      obtain rfl := one_position holds' at_k (getElem?_extends (ids ▸ extends') at_j)
      exact (List.getElem?_eq_some_iff.mp at_j).1
  · obtain ⟨p, before, turned⟩ := act_pages P stands.holds ran paged
    have lists : ((s.enter src).enter des).Lists weighted A'.StandsFor id p :=
      (stands.before holds' (ids ▸ extends') at_k before).congr (fun _ => Iff.rfl) (List.Subset.refl _)
        fun _ _ _ => Iff.rfl
    cases turned with
    | logs e delta _ entry logs =>
        obtain ⟨l, from_k, to_l, rfl, rfl⟩ := Ledger.insertEntry_eq_some entry
        change SORT.position ws.sum (SORT.enter ws.sum (SORT.enter ws.sum A.ids src) des) src = some k at from_k
        change SORT.position ws.sum (SORT.enter ws.sum (SORT.enter ws.sum A.ids src) des) des = some l at to_l
        rw [← ids] at from_k to_l
        obtain rfl := Option.some.inj (at_k.symm.trans (SORT.position_some_inRange inRange' source from_k))
        exact lists_write holds' (SORT.position_some_inRange inRange' target to_l) lists logs le_rfl
          (iff_of_true rfl (.inr rfl)) fun all _ => weighs all
    | snapshot _ _ _ same => cases same
    | same silent _ =>
        refine lists_other (fun same => ?_) lists true
        subst same
        obtain ⟨l, at_l⟩ := List.mem_iff_getElem?.mp (ids ▸ (member des).mpr (.inl rfl) : des ∈ A'.ids)
        have from_k := holds'.dictionary.position_self at_k
        have to_l := holds'.dictionary.position_self at_l
        rw [ids] at from_k to_l
        exact silent { weight := weight, idx := (l : Int) } 1 (by simp only [Ledger.entry, from_k, to_l])

theorem logEdge_stands (P : Platform W) (stands : Stands weighted ws s g A) {src des : NodeID}
    (source : src < 2 ^ ws.sum) (target : des < 2 ^ ws.sum) {weight : W} {delta : Int} (small : delta < 1)
    {action : Action W} (calm : ∀ sorted makeDense, action ≠ .op (.createSnapshots sorted makeDense))
    (entry : A.entry ws.sum g.gone action = A.liveEntry ws.sum g.gone src des weight delta)
    (acts : ∀ b g', g.logEdge P src des weight delta = .ok (b, g') → act P g action = .ok g')
    (permitted : ∀ k l, SORT.position ws.sum A.ids src = some k → SORT.position ws.sum A.ids des = some l →
      Carries.Permitted .lax (replayEdges (A.hist k).edges) { weight := weight, idx := (l : Int) } delta) :
    ∃ g' A', g.logEdge P src des weight delta = .ok (decide (s.Alive src ∧ s.Alive des), g') ∧
      Stands weighted ws (if s.Alive src ∧ s.Alive des then s.write src des (weight ≠ 0) else s) g' A' := by
  obtain ⟨g', logged, holds', times, -⟩ := logEdge_holds P stands.holds src des weight delta permitted
  have ran := acts _ g' logged
  simp only [stands.alive source, stands.alive target] at logged holds'
  have ids : (if s.Alive src ∧ s.Alive des then
      A.write ws.sum (Kept.logTimestamp g'.global) src des weight else A).ids = A.ids := by
    split
    · exact Ledger.write_ids ..
    · rfl
  generalize (if s.Alive src ∧ s.Alive des then
    A.write ws.sum (Kept.logTimestamp g'.global) src des weight else A) = A' at holds' ids
  have pages (k : Nat) (id : NodeID) (p' : Page W) (at_k : A'.ids[k]? = some id) (paged : g'.Paged k p') :
      (if s.Alive src ∧ s.Alive des then s.write src des (weight ≠ 0) else s).Lists weighted A'.StandsFor id p' := by
    obtain ⟨p, before, turned⟩ := act_pages P stands.holds ran paged
    have lists := stands.before holds' (ids ▸ List.prefix_rfl) at_k before
    rw [entry] at turned
    rw [ids] at at_k
    cases turned with
    | logs e d _ written logs =>
        obtain ⟨l, from_k, to_l, alive, alive', rfl, rfl⟩ := Ledger.liveEntry_eq_some written
        obtain rfl := Option.some.inj (at_k.symm.trans (SORT.position_some_inRange stands.inRange source from_k))
        have both : s.Alive id ∧ s.Alive des := ⟨(stands.alive source).mp ((Ledger.alive_iff from_k).mpr alive),
          (stands.alive target).mp ((Ledger.alive_iff to_l).mpr alive')⟩
        rw [if_pos both]
        exact lists_write holds' (ids ▸ SORT.position_some_inRange stands.inRange target to_l) lists logs small.le
          (by simp [small.ne]) fun _ insertion => absurd insertion small.ne
    | snapshot _ _ _ same => exact absurd same (calm _ _)
    | same silent _ =>
        split
        · rename_i both
          refine lists_other (fun same => ?_) lists _
          subst same
          obtain ⟨j, from_j, alive⟩ := (stands.alive source).mpr both.1
          obtain ⟨l, to_l, alive'⟩ := (stands.alive target).mpr both.2
          obtain rfl := Option.some.inj (from_j.symm.trans (stands.holds.dictionary.position_self at_k))
          exact silent _ _ (Ledger.liveEntry_alive from_j alive to_l alive')
        · exact lists
  refine ⟨g', A', logged, holds', ids ▸ stands.inRange, fun id => ?_, fun k id at_k => ?_, times ▸ stands.early, ?_,
    pages⟩
  · rw [ids, stands.known]
    split
    · rfl
    · rfl
  · rw [ids] at at_k
    rw [times, stands.dead k id at_k]
    split
    · rfl
    · rfl
  · split
    · rename_i both
      exact stands.sound.write both.1.1 both.2.1 _
    · exact stands.sound

theorem Stands.silent (P : Platform W) (stands : Stands weighted ws s g A) {action : Action W}
    (ran : act P g action = .ok g') (silent : A.entry ws.sum g.gone action = none)
    (calm : ∀ sorted makeDense, action ≠ .op (.createSnapshots sorted makeDense)) (holds' : Holds .lax ws g' A)
    {k : Nat} {id : NodeID} (at_k : A.ids[k]? = some id) {p' : Page W} (paged : g'.Paged k p') :
    s.Lists weighted A.StandsFor id p' := by
  obtain ⟨p, before, turned⟩ := act_pages P stands.holds ran paged
  rw [silent] at turned
  cases turned with
  | logs _ _ _ entry => cases entry
  | snapshot _ _ _ same => exact absurd same (calm _ _)
  | same => exact stands.before holds' List.prefix_rfl at_k before

theorem deleteVertex_stands (P : Platform W) (stands : Stands weighted ws s g A) {id : NodeID} (here : id < 2 ^ ws.sum)
    (counter : id ∈ s.known → g.global.globalTimestamp ≠ -1) :
    ∃ g', g.deleteVertex id = .ok (decide (id ∈ s.known), g') ∧
      Stands weighted ws (s.after (.deleteVertex id : Request W)) g' A := by
  obtain ⟨g', deleted, holds', -, times⟩ := deleteVertex_holds stands.holds id
  have ran : act P g (.deleteVertex id) = .ok g' := by rw [act, deleted, ok_bind]
  have calm (sorted makeDense : Bool) : (.deleteVertex id : Action W) ≠ .op (.createSnapshots sorted makeDense) := by
    rintro ⟨⟩
  have pages (k : Nat) (other : NodeID) (p : Page W) (at_k : A.ids[k]? = some other) (paged : g'.Paged k p) :=
    stands.silent P ran rfl calm holds' at_k paged
  cases found : SORT.position ws.sum A.ids id with
  | none =>
      have unknown := (stands.unknown here).mp found
      rw [Ledger.goneAfter_unknown found] at times
      rw [found] at deleted
      rw [Standing.after, if_neg unknown, decide_eq_false unknown]
      exact ⟨g', deleted, holds', stands.inRange, stands.known, times ▸ stands.dead, times ▸ stands.early, stands.sound,
        pages⟩
  | some k =>
      have at_k := SORT.position_some_inRange stands.inRange here found
      have known := (stands.known id).mp (List.mem_of_getElem? at_k)
      rw [Ledger.goneAfter_known found] at times
      rw [found] at deleted
      rw [Standing.after, if_pos known, decide_eq_true known]
      refine ⟨g', deleted, holds', stands.inRange, stands.known, fun j other at_j => ?_, fun j => ?_,
        ⟨stands.sound.ends, fun other dead => ?_⟩, fun j other p at_j paged =>
          (pages j other p at_j paged).congr (fun _ => Iff.rfl) (List.Subset.refl _) fun _ _ _ => Iff.rfl⟩
      · rw [times, List.mem_cons]
        by_cases same : j = k
        · subst same
          obtain rfl := Option.some.inj (at_k.symm.trans at_j)
          simp [counter known]
        · have different : other ≠ id := by
            rintro rfl
            exact same (one_position stands.holds at_j at_k)
          rw [Function.update_of_ne same, or_iff_right different]
          exact stands.dead j other at_j
      · rw [times, Function.update_apply]
        split
        · exact timestampAt_le _
        · exact stands.early j
      · rcases List.mem_cons.mp dead with rfl | old
        · exact known
        · exact stands.sound.buried other old

theorem createSnapshots_stands (P : Platform W) (stands : Stands weighted ws s g A) (sortNeighbours makeDense : Bool) :
    ∃ g', g.createSnapshots P sortNeighbours makeDense = .ok g' ∧
      Stands weighted ws (s.after (.createSnapshots sortNeighbours makeDense : Request W)) g' A := by
  obtain ⟨g', made, holds', times, -⟩ := createSnapshots_holds P stands.holds sortNeighbours makeDense
  have ran : act P g (.op (.createSnapshots sortNeighbours makeDense)) = .ok g' := made
  refine ⟨g', made, holds', stands.inRange, stands.known, times ▸ stands.dead, times ▸ stands.early,
    ⟨stands.sound.ends, stands.sound.buried⟩, fun k id p' at_k paged => ?_⟩
  obtain ⟨p, before, turned⟩ := act_pages P stands.holds ran paged
  have lists := stands.before holds' List.prefix_rfl at_k before
  cases turned with
  | logs _ _ _ entry => cases entry
  | snapshot _ _ _ _ snapshot =>
      have known := (stands.known id).mp (List.mem_of_getElem? at_k)
      exact ⟨lists.spans.snapshot snapshot, fun outside => absurd (List.mem_append_left _ known) outside⟩
  | same _ calm => exact absurd rfl (calm _ _)

theorem Stands.of_chains (stands : Stands weighted ws s g A) (holds' : Holds .lax ws g' A) (times : g'.gone = g.gone)
    (chains : SameChains g g') : Stands weighted ws s g' A :=
  ⟨holds', stands.inRange, stands.known, times ▸ stands.dead, times ▸ stands.early, stands.sound,
    fun k id p at_k paged => stands.pages k id p at_k (paged.of_chains chains)⟩

theorem getNeighbours_known (stands : Stands weighted ws s g A) {src : NodeID} (known : src ∈ s.known)
    (timestamp : Int) :
    ∃ k p g', A.ids[k]? = some src ∧ s.Lists weighted A.StandsFor src p ∧ Stands weighted ws s g' A ∧
      g.getNeighbours src [] timestamp = .ok ((g.answer k p timestamp).1, (g.answer k p timestamp).2, g') := by
  obtain ⟨k, at_k⟩ := List.mem_iff_getElem?.mp ((stands.known src).mpr known)
  obtain ⟨p, -, paged, -⟩ := stands.holds.page (List.getElem?_eq_some_iff.mp at_k).1
  obtain ⟨root, dict, direct⟩ := getNeighbours_holds stands.holds src timestamp
  obtain ⟨bitmap', clean, read⟩ := paged.read stands.holds timestamp
  have rerooted := stands.of_chains (stands.holds.reroot dict) rfl fun _ => rfl
  rw [stands.holds.dictionary.position_self at_k] at direct
  simp only [read] at direct
  by_cases gone : g.gone k ≠ -1 ∧ g.gone k ≤ timestamp
  · rw [if_pos gone] at direct
    exact ⟨k, p, _, at_k, stands.pages k src p at_k paged, rerooted, by rw [direct, answer, if_pos gone]; rfl⟩
  · rw [if_neg gone] at direct
    exact ⟨k, p, _, at_k, stands.pages k src p at_k paged,
      rerooted.of_chains (rerooted.holds.rebitmap clean) rfl fun _ => rfl, by rw [direct, answer, if_neg gone]; rfl⟩

theorem getNeighbours_stands (stands : Stands weighted ws s g A) {src : NodeID} (here : src < 2 ^ ws.sum)
    {timestamp : Int} (blank : s.Blank (.getNeighbours src timestamp : Request W)) :
    ∃ g', g.getNeighbours src [] timestamp = .ok (decide (s.Alive src ∧ 0 ≤ timestamp), [], g') ∧
      Stands weighted ws s g' A := by
  by_cases known : src ∈ s.known
  · obtain ⟨k, p, g', at_k, lists, stands', read⟩ := getNeighbours_known stands known timestamp
    refine ⟨g', ?_, stands'⟩
    rw [read, answer]
    by_cases alive : s.Alive src
    · rw [if_neg fun gone => gone.1 ((stands.dead k src at_k).mpr alive.2), lists.read (blank.alive alive)]
      simp only [alive, true_and]
    · obtain ⟨dead, rfl⟩ := blank.gone known alive
      rw [if_pos ⟨fun undeleted => (stands.dead k src at_k).mp undeleted dead, stands.early k⟩]
      simp only [alive, false_and, decide_false]
  · obtain ⟨root, dict, read⟩ := getNeighbours_holds stands.holds src timestamp
    rw [(stands.unknown here).mpr known] at read
    have absent : ¬ s.Alive src := fun alive => known alive.1
    refine ⟨_, ?_, stands.of_chains (stands.holds.reroot dict) rfl fun _ => rfl⟩
    simp only [read, absent, false_and, decide_false]

theorem api_follows (P : Platform W) (ws : List Nat) (maxVertexID : Nat) :
    (api P).Follows (fun s (g : RadixGraph W) => ∃ A, Stands weighted ws s g A) ws.sum maxVertexID weighted := by
  rintro s g c ⟨A, stands⟩ inRange weighs blank counter
  have within (id : NodeID) (named : id ∈ c.ids) : id < 2 ^ ws.sum := (inRange id named).1
  cases c with
  | insertEdge src des weight =>
      obtain ⟨g', A', inserted, stands'⟩ := insertEdge_stands P stands (within src (by simp [Request.ids]))
        (within des (by simp [Request.ids])) weighs
      exact ⟨g', by simp only [Api.request, api, inserted, ok_bind, Standing.reply], A', stands'⟩
  | updateEdge src des weight =>
      have acts (b : Bool) (g' : RadixGraph W) (logged : g.logEdge P src des weight 0 = .ok (b, g')) :
          act P g (.op (.updateEdge src des weight)) = .ok g' := by
        rw [act, perform, updateEdge, logged, ok_bind]
      obtain ⟨g', A', logged, stands'⟩ := logEdge_stands P stands (within src (by simp [Request.ids]))
        (within des (by simp [Request.ids])) (by decide) (by rintro _ _ ⟨⟩) rfl acts fun _ _ _ _ => .update False.elim
      exact ⟨g', by simp only [Api.request, api, updateEdge, logged, ok_bind, Standing.reply], A', stands'⟩
  | deleteEdge src des =>
      have acts (b : Bool) (g' : RadixGraph W) (logged : g.logEdge P src des 0 (-1) = .ok (b, g')) :
          act P g (.op (.deleteEdge src des)) = .ok g' := by
        rw [act, perform, deleteEdge, logged, ok_bind]
      obtain ⟨g', A', logged, stands'⟩ := logEdge_stands P stands (within src (by simp [Request.ids]))
        (within des (by simp [Request.ids])) (by decide) (by rintro _ _ ⟨⟩) rfl acts fun _ _ _ _ => .deletion False.elim
      exact ⟨g', by simp only [Api.request, api, deleteEdge, logged, ok_bind, Standing.reply], A', by
        simpa [Standing.after] using stands'⟩
  | createSnapshots sortNeighbours makeDense =>
      obtain ⟨g', made, stands'⟩ := createSnapshots_stands P stands sortNeighbours makeDense
      exact ⟨g', by simp only [Api.request, api, made, ok_bind, Standing.reply], A, stands'⟩
  | deleteVertex id =>
      obtain ⟨g', deleted, stands'⟩ := deleteVertex_stands P stands (within id (by simp [Request.ids])) (counter id rfl)
      exact ⟨g', by simp only [Api.request, api, deleted, ok_bind, Standing.reply], A, stands'⟩
  | getNeighbours src timestamp =>
      obtain ⟨g', read, stands'⟩ := getNeighbours_stands stands (within src (by simp [Request.ids])) blank
      refine ⟨g', ?_, A, stands'⟩
      simp only [Api.request, api, read, ok_bind, Api.named, Standing.reply]
      rfl
  | getNeighboursByOffset src timestamp | getExternalID src =>
      have internal := getInternalID_stands stands (within src (by simp [Request.ids])) blank
      exact ⟨g, by simp only [Api.request, api, internal, ok_bind, if_true, Standing.reply], A, stands⟩

theorem construct_stands (weighted : Prop) (global : GlobalInfo) {index : SORT W}
    (constructed : SORT.Constructed index ws) {L : Nat} (positive : 0 < L) : Stands weighted ws {} (construct global index L positive) {} := by
  have holds := construct_holds .lax global constructed positive
  refine ⟨holds, by simp, by simp, by simp, fun k => ?_, ⟨by simp, by simp⟩, fun k id p at_k => by simp at at_k⟩
  rw [holds.gone_unborn (Nat.zero_le k)]
  decide

/-! What the tree replies to a call that is not blank. -/

theorem neighbours_named (P : Platform W) (stands : Stands True ws s g A) {src des : NodeID} (alive : s.Alive src)
    (edge : (src, des) ∈ s.edges) {r : Reply W} {g' : RadixGraph W}
    (requested : (api P).request g (.getNeighbours src maxTimestamp) = .ok (r, g')) :
    ∃ found names, r = .neighbours found names ∧ ∃ name ∈ names, name.1 = des := by
  obtain ⟨k, p, g₁, at_k, lists, stands₁, read⟩ := getNeighbours_known stands alive.1 maxTimestamp
  rw [answer, if_neg fun gone => gone.1 ((stands.dead k src at_k).mpr alive.2)] at read
  simp only [Api.request, api, read, ok_bind, bind_eq_ok] at requested
  obtain ⟨names, named, same⟩ := requested
  obtain ⟨rfl, -⟩ := Prod.mk.inj (Except.ok.inj same)
  obtain ⟨l, at_l⟩ := List.mem_iff_getElem?.mp ((stands.known des).mpr (stands.sound.ends _ edge).2)
  obtain ⟨e, member, idx⟩ := lists.spans.read_present trivial ⟨des, ⟨l, rfl, at_l⟩, edge⟩
  obtain ⟨name, inside, external⟩ := (Api.mem_named named).2 e member
  refine ⟨_, names, rfl, name, inside, ?_⟩
  have shown : g₁.getExternalID e.idx = .ok name.1 := external
  rw [idx, getExternalID_holds stands₁.holds at_l] at shown
  exact (Except.ok.inj shown).symm

theorem offset_read (P : Platform W) (stands : Stands weighted ws s g A) {src : NodeID} (here : src < 2 ^ ws.sum)
    (alive : s.Alive src) {r : Reply W} {g' : RadixGraph W}
    (requested : (api P).request g (.getNeighboursByOffset src maxTimestamp) = .ok (r, g')) :
    ∃ edges, r = .neighbours true edges := by
  obtain ⟨k, known, undeleted⟩ := (stands.alive here).mpr alive
  have inside := SORT.position_isLt known
  have internal := getInternalID_holds stands.holds src
  simp only [known, if_pos undeleted] at internal
  obtain ⟨v, head, snap, log, stamps, past, bitmap', -, -, -, carries, -, read⟩ :=
    neighboursAt_holds stands.holds inside maxTimestamp
  have below : ¬ (g.vertexIndex.cnt : Int) ≤ k := by
    rw [stands.holds.dictionary.cnt]
    omega
  have valid : (k : Int) ≠ -1 := by omega
  rw [if_neg fun dead => dead.1 undeleted, if_pos carries.shown.1] at read
  simp only [Api.request, api, internal, ok_bind, if_neg valid, getNeighboursByOffset, if_neg below,
    if_neg (show ¬ (k : Int) < 0 by omega), Int.toNat_natCast, read] at requested
  obtain ⟨edges, -, same⟩ := bind_eq_ok.mp requested
  obtain ⟨rfl, -⟩ := Prod.mk.inj (Except.ok.inj same)
  exact ⟨edges, rfl⟩

theorem external_valid (P : Platform W) (stands : Stands weighted ws s g A) {src : NodeID} (here : src < 2 ^ ws.sum)
    (alive : s.Alive src) : (api P).request g (.getExternalID src) = .ok (.vertex src, g) := by
  obtain ⟨k, known, undeleted⟩ := (stands.alive here).mpr alive
  have internal := getInternalID_holds stands.holds src
  simp only [known, if_pos undeleted] at internal
  have external := getExternalID_holds stands.holds (SORT.position_some_inRange stands.inRange here known)
  have valid : (k : Int) ≠ -1 := by omega
  simp only [Api.request, api, internal, ok_bind, if_neg valid, external]

end RadixGraph

end Radix
