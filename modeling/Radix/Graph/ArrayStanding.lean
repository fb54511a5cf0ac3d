import Radix.Graph.Standing

/-!
# The array follows the calls

The array enters, deletes and lists vertices as the calls say, but its count of vertices stays 0.
-/

namespace Radix

open Lib Lib.LastWrite

variable {W : Type} [Zero W]

def VertexArray.StandsFor (i : Int) (id : NodeID) : Prop := i = id

structure VertexArray.Entry [DecidableEq W] (weighted : Prop) (s : Standing) (id : NodeID) (v : Vertex W) : Prop where
  unknown : id ∉ s.known → v.idx = -1 ∧ v.delTime = -1
  known : id ∈ s.known → v.idx = id ∧ ∃ p : Page W, p.Heads v.next ∧ s.Lists weighted VertexArray.StandsFor id p
  dead : v.delTime = -1 ↔ id ∉ s.dead
  early : v.delTime ≤ maxTimestamp

namespace ArrayGraph

variable [DecidableEq W]

structure Stands (weighted : Prop) (n : Nat) (s : Standing) (g : ArrayGraph W) : Prop where
  cnt : g.vertexIndex.cnt = 0
  length : g.vertexIndex.vertexTable.length = n
  clean : g.bitmap.Clean
  rate : 1 < g.expandRate
  sound : s.Sound
  entry : ∀ id v, g.vertexIndex.vertexTable[id]? = some v → VertexArray.Entry weighted s id v

variable {weighted : Prop} {n : Nat} {s : Standing} {g : ArrayGraph W}

theorem Stands.at (stands : Stands weighted n s g) {id : NodeID} (inside : id < n) :
    ∃ v, g.vertexIndex.vertexAt id = .ok v ∧ g.vertexIndex.vertexTable[id]? = some v ∧
      VertexArray.Entry weighted s id v := by
  rw [← stands.length] at inside
  have here := List.getElem?_eq_getElem inside
  exact ⟨_, by rw [VertexArray.vertexAt, here], here, stands.entry id _ here⟩

theorem Stands.set (stands : Stands weighted n s g) {k : Nat} {v : Vertex W} {s' : Standing} {global : GlobalInfo}
    {bitmap : SegmentedBitmap} (clean : bitmap.Clean) (sound : s'.Sound) (entry : VertexArray.Entry weighted s' k v)
    (others : ∀ id (u : Vertex W), id ≠ k → VertexArray.Entry weighted s id u → VertexArray.Entry weighted s' id u) :
    Stands weighted n s' { g with global := global, vertexIndex := g.vertexIndex.setVertex k v, bitmap := bitmap } := by
  refine ⟨stands.cnt, ?_, clean, stands.rate, sound, fun id u at_id => ?_⟩
  · rw [← stands.length]
    exact List.length_set
  · change (g.vertexIndex.vertexTable.set k v)[id]? = some u at at_id
    by_cases here : id = k
    · subst here
      obtain ⟨inside, rfl⟩ := List.getElem?_eq_some_iff.mp at_id
      rwa [List.getElem_set_self]
    · rw [List.getElem?_set_ne (Ne.symm here)] at at_id
      exact others id u here (stands.entry id u at_id)

theorem retrieve_stands (stands : Stands weighted n s g) {id : NodeID} (inside : id < n) :
    g.vertexIndex.retrieveVertex id false = .ok (if id ∈ s.known then some id else none, g.vertexIndex) := by
  obtain ⟨v, at_id, -, entry⟩ := stands.at inside
  rw [VertexArray.retrieveVertex, at_id, ok_bind]
  by_cases known : id ∈ s.known
  · have used : v.idx ≠ -1 := by
      have index := (entry.known known).1
      omega
    simp only [if_neg used, if_pos known]
  · simp only [(entry.unknown known).1, if_true, if_neg known, Bool.false_eq_true, if_false]

theorem liveVertex_stands (stands : Stands weighted n s g) {id : NodeID} (inside : id < n) :
    ∃ v, g.vertexIndex.vertexAt id = .ok v ∧ VertexArray.Entry weighted s id v ∧
      g.liveVertex id = .ok (if s.Alive id then some (id, v) else none, g) := by
  obtain ⟨v, at_id, -, entry⟩ := stands.at inside
  refine ⟨v, at_id, entry, ?_⟩
  rw [liveVertex, retrieve_stands stands inside, ok_bind]
  by_cases known : id ∈ s.known
  · simp only [if_pos known, at_id, ok_bind]
    by_cases dead : id ∈ s.dead
    · have gone : v.delTime ≠ -1 := fun alive => entry.dead.mp alive dead
      rw [if_pos gone, if_neg fun alive => alive.2 dead]
    · rw [if_neg (not_not.mpr (entry.dead.mpr dead)), if_pos ⟨known, dead⟩]
  · simp only [if_neg known, if_neg fun alive : s.Alive id => known alive.1]

theorem getInternalID_stands (stands : Stands weighted n s g) {id : NodeID} (inside : id < n) :
    g.getInternalID id = .ok (if s.Alive id then (id : Int) else -1) := by
  obtain ⟨v, -, entry, looked⟩ := liveVertex_stands stands inside
  rw [getInternalID, looked, ok_bind]
  by_cases alive : s.Alive id
  · simp only [if_pos alive, (entry.known alive.1).1]
  · simp only [if_neg alive]

theorem getExternalID_stands (stands : Stands weighted n s g) {offset : Int} {id : NodeID}
    (named : g.getExternalID offset = .ok id) : id = NodeID.invalid := by
  rw [getExternalID, stands.cnt] at named
  split at named
  · exact (Except.ok.inj named).symm
  · rename_i negative
    rw [if_pos (by omega)] at named
    cases named

theorem enterVertex_stands (stands : Stands weighted n s g) {id : NodeID} (inside : id < n) :
    ∃ g', g.enterVertex id = .ok (id, g') ∧ Stands weighted n (s.enter id) g' := by
  obtain ⟨v, at_id, -, entry⟩ := stands.at inside
  rw [enterVertex, VertexArray.retrieveVertex, at_id, ok_bind]
  have lists {other : NodeID} {p : Page W} (lists : s.Lists weighted VertexArray.StandsFor other p) :
      (s.enter id).Lists weighted VertexArray.StandsFor other p :=
    lists.congr (fun _ => Iff.rfl) (List.Subset.refl _) fun _ _ _ => Iff.rfl
  have others (other : NodeID) (u : Vertex W) (known : other ∈ (s.enter id).known → other ∈ s.known)
      (entry : VertexArray.Entry weighted s other u) : VertexArray.Entry weighted (s.enter id) other u := by
    refine ⟨fun unknown => entry.unknown fun there => unknown (List.mem_cons_of_mem id there), fun there => ?_,
      entry.dead, entry.early⟩
    obtain ⟨idx, p, heads, listed⟩ := entry.known (known there)
    exact ⟨idx, p, heads, lists listed⟩
  by_cases known : id ∈ s.known
  · have used : v.idx ≠ -1 := by
      have index := (entry.known known).1
      omega
    refine ⟨g, by simp only [if_neg used, ok_bind], stands.cnt, stands.length, stands.clean, stands.rate,
      stands.sound.enter id, fun other u at_other => others other u (fun there => ?_) (stands.entry other u at_other)⟩
    rcases List.mem_cons.mp there with rfl | old
    · exact known
    · exact old
  · obtain ⟨fresh, undeleted⟩ := entry.unknown known
    refine ⟨{ g with vertexIndex := g.vertexIndex.setVertex id (VertexArray.newVertex v id) },
      by simp only [fresh, if_true, ok_bind], stands.set stands.clean (stands.sound.enter id) ?_
        fun other u different entry =>
          others other u (fun there => (List.mem_cons.mp there).resolve_left different) entry⟩
    refine ⟨fun unknown => absurd List.mem_cons_self unknown, fun _ => ⟨rfl, _, Page.fresh_heads ⟨0, false⟩, ?_⟩,
      entry.dead, entry.early⟩
    exact .fresh _ fun des edge => known (stands.sound.ends _ edge).1

theorem insertAt_stands (P : Platform W) (stands : Stands weighted n s g) {src des : NodeID} (inside : src < n)
    (known : src ∈ s.known) (target : des ∈ s.known) {weight : W} {delta : Int} (small : delta ≤ 1) {present : Bool}
    (kind : present = true ↔ weight ≠ 0 ∨ delta = 1) (weighs : weighted → delta = 1 → weight ≠ 0) :
    ∃ g', g.insertAt P src des weight delta = .ok g' ∧ Stands weighted n (s.write src des present) g' := by
  obtain ⟨v, at_src, -, entry⟩ := stands.at inside
  obtain ⟨index, p, heads, lists⟩ := entry.known known
  obtain ⟨chain', bitmap', info', p', inserted, clean, heads', logs⟩ :=
    heads.insert P stands.rate g.global stands.clean (Int.natCast_nonneg des) weight delta
  have live : ({ weight := weight, idx := (des : Int) } : WeightedEdge W).live = true ↔ weight ≠ 0 := by
    simp [WeightedEdge.live]
  refine ⟨_, by rw [insertAt, at_src, ok_bind, inserted, ok_bind],
    stands.set clean (stands.sound.write known target present) ?_ fun other u different entry => ?_⟩
  · refine ⟨fun unknown => absurd known unknown, fun _ => ⟨index, p', heads', ?_⟩, entry.dead, entry.early⟩
    exact lists.write logs rfl (fun _ same => (Int.natCast_inj.mp same).symm) (fun _ same => same) small
      (by rw [kind, live]) fun all insertion => live.mpr (weighs all insertion)
  · refine ⟨entry.unknown, fun there => ?_, entry.dead, entry.early⟩
    obtain ⟨idx, q, heads, listed⟩ := entry.known there
    refine ⟨idx, q, heads, listed.congr (fun des' => ?_) (List.subset_cons_self _ _) fun _ _ _ => Iff.rfl⟩
    rw [Standing.mem_write, if_neg fun same => different (Prod.mk.inj same).1]

theorem insertEdge_stands (P : Platform W) (stands : Stands weighted n s g) {src des : NodeID} (source : src < n)
    (target : des < n) {weight : W} (weighs : weighted → weight ≠ 0) :
    ∃ g', g.insertEdge P src des weight = .ok (true, g') ∧
      Stands weighted n (s.after (.insertEdge src des weight)) g' := by
  obtain ⟨g₁, entered, stands₁⟩ := enterVertex_stands stands source
  obtain ⟨g₂, entered', stands₂⟩ := enterVertex_stands stands₁ target
  obtain ⟨v, at_des, -, entry⟩ := stands₂.at target
  have kind : true = true ↔ weight ≠ 0 ∨ (1 : Int) = 1 := iff_of_true rfl (.inr rfl)
  obtain ⟨g₃, inserted, stands₃⟩ := insertAt_stands P stands₂ source
    (List.mem_cons_of_mem des List.mem_cons_self) List.mem_cons_self le_rfl kind fun all _ => weighs all
  refine ⟨g₃, ?_, stands₃⟩
  rw [insertEdge, entered, ok_bind]
  simp only [entered', ok_bind, at_des, (entry.known List.mem_cons_self).1, inserted]

theorem logEdge_stands (P : Platform W) (stands : Stands weighted n s g) {src des : NodeID} (source : src < n)
    (target : des < n) (weight : W) {delta : Int} (small : delta < 1) :
    ∃ g', g.logEdge P src des weight delta = .ok (decide (s.Alive src ∧ s.Alive des), g') ∧
      Stands weighted n (if s.Alive src ∧ s.Alive des then s.write src des (weight ≠ 0) else s) g' := by
  obtain ⟨v, -, -, looked⟩ := liveVertex_stands stands source
  obtain ⟨u, -, entry, looked'⟩ := liveVertex_stands stands target
  rw [logEdge, looked, ok_bind]
  by_cases alive : s.Alive src
  · simp only [if_pos alive, looked', ok_bind]
    by_cases alive' : s.Alive des
    · have both : s.Alive src ∧ s.Alive des := ⟨alive, alive'⟩
      have kind : decide (weight ≠ 0) = true ↔ weight ≠ 0 ∨ delta = 1 := by simp [small.ne]
      obtain ⟨g', inserted, stands'⟩ := insertAt_stands P stands source alive.1 alive'.1 small.le kind
        fun _ insertion => absurd insertion small.ne
      exact ⟨g', by simp only [if_pos alive', (entry.known alive'.1).1, inserted, ok_bind, decide_eq_true both],
        by rwa [if_pos both]⟩
    · have absent : ¬ (s.Alive src ∧ s.Alive des) := fun both => alive' both.2
      exact ⟨g, by simp only [if_neg alive', decide_eq_false absent], by rwa [if_neg absent]⟩
  · have absent : ¬ (s.Alive src ∧ s.Alive des) := fun both => alive both.1
    exact ⟨g, by simp only [if_neg alive, decide_eq_false absent], by rwa [if_neg absent]⟩

theorem deleteVertex_stands (stands : Stands weighted n s g) {id : NodeID} (inside : id < n)
    (counter : id ∈ s.known → g.global.globalTimestamp ≠ -1) :
    ∃ g', g.deleteVertex id = .ok (decide (id ∈ s.known), g') ∧
      Stands weighted n (s.after (.deleteVertex id : Request W)) g' := by
  obtain ⟨v, at_id, -, entry⟩ := stands.at inside
  rw [deleteVertex, VertexArray.deleteVertex, retrieve_stands stands inside, ok_bind]
  by_cases known : id ∈ s.known
  · refine ⟨{ g with vertexIndex := g.vertexIndex.setVertex id { v with delTime := g.global.globalTimestamp } },
      by simp only [if_pos known, at_id, ok_bind, decide_eq_true known], ?_⟩
    rw [Standing.after, if_pos known]
    have lists {other : NodeID} {u : Vertex W}
        (listed : u.idx = other ∧ ∃ p : Page W, p.Heads u.next ∧ s.Lists weighted VertexArray.StandsFor other p) :
        u.idx = other ∧ ∃ p : Page W, p.Heads u.next ∧
          ({ s with dead := id :: s.dead } : Standing).Lists weighted VertexArray.StandsFor other p := by
      obtain ⟨idx, p, heads, listed⟩ := listed
      exact ⟨idx, p, heads, listed.congr (fun _ => Iff.rfl) (List.Subset.refl _) fun _ _ _ => Iff.rfl⟩
    refine stands.set stands.clean ⟨stands.sound.ends, fun other dead => ?_⟩ ?_ fun other u different entry => ?_
    · rcases List.mem_cons.mp dead with rfl | old
      · exact known
      · exact stands.sound.buried other old
    · refine ⟨fun unknown => absurd known unknown, fun there => lists (entry.known there), ?_, timestampAt_le _⟩
      simp [counter known]
    · refine ⟨entry.unknown, fun there => lists (entry.known there), entry.dead.trans (not_congr ?_), entry.early⟩
      rw [List.mem_cons, or_iff_right different]
  · exact ⟨g, by simp only [if_neg known, ok_bind, decide_eq_false known], by rwa [Standing.after, if_neg known]⟩

theorem createSnapshots_stands (P : Platform W) (stands : Stands weighted n s g) (sortNeighbours makeDense : Bool) :
    ∃ g', g.createSnapshots P sortNeighbours makeDense = .ok g' ∧
      Stands weighted n (s.after (.createSnapshots sortNeighbours makeDense : Request W)) g' := by
  have nobody : P.order g.global g.vertexIndex.cnt = [] := by
    have order := P.order_perm g.global 0
    rw [stands.cnt]
    exact List.Perm.eq_nil order
  refine ⟨{ g with isSorted := sortNeighbours }, ?_, stands.cnt, stands.length, stands.clean, stands.rate,
    ⟨stands.sound.ends, stands.sound.buried⟩, fun id v at_id => ?_⟩
  · rw [createSnapshots, nobody]
    rfl
  · have entry := stands.entry id v at_id
    refine ⟨entry.unknown, fun there => ?_, entry.dead, entry.early⟩
    obtain ⟨idx, p, heads, listed⟩ := entry.known there
    exact ⟨idx, p, heads, listed.congr (fun _ => Iff.rfl) (List.subset_append_right _ _) fun _ _ _ => Iff.rfl⟩

theorem neighboursAt_stands (stands : Stands weighted n s g) {id : NodeID} (inside : id < n) (known : id ∈ s.known)
    (timestamp : Int) :
    ∃ (v : Vertex W) (p : Page W) (bitmap' : SegmentedBitmap), VertexArray.Entry weighted s id v ∧
      s.Lists weighted VertexArray.StandsFor id p ∧ Stands weighted n s { g with bitmap := bitmap' } ∧
      g.neighboursAt id [] timestamp =
        .ok (if v.delTime ≠ -1 ∧ v.delTime ≤ timestamp then (false, [], g)
          else ((p.read timestamp).1, (p.read timestamp).2, { g with bitmap := bitmap' })) := by
  obtain ⟨v, at_id, here, entry⟩ := stands.at inside
  obtain ⟨-, p, ⟨head, stored, -, stamp, -⟩, lists⟩ := entry.known known
  obtain ⟨bitmap', read, clean⟩ := getNeighboursOf_spec g.global stands.clean stored timestamp []
  refine ⟨v, p, bitmap', entry, lists,
    ⟨stands.cnt, stands.length, clean, stands.rate, stands.sound, stands.entry⟩, ?_⟩
  have unchanged : g.vertexIndex.setVertex id v = g.vertexIndex := by
    obtain ⟨below, rfl⟩ := List.getElem?_eq_some_iff.mp here
    rw [VertexArray.setVertex, List.set_getElem_self]
  rw [neighboursAt, at_id, ok_bind]
  split
  · rfl
  · rw [read, ok_bind, Page.read, stamp]
    by_cases recent : p.snapshotTimestamp ≤ timestamp
    · simp only [if_pos recent, unchanged]
    · simp only [if_neg recent, unchanged]

theorem getNeighbours_stands (stands : Stands weighted n s g) {src : NodeID} (inside : src < n) {timestamp : Int}
    (blank : s.Blank (.getNeighbours src timestamp : Request W)) :
    ∃ g', g.getNeighbours src [] timestamp = .ok (decide (s.Alive src ∧ 0 ≤ timestamp), [], g') ∧
      Stands weighted n s g' := by
  rw [getNeighbours, retrieve_stands stands inside, ok_bind]
  by_cases known : src ∈ s.known
  · obtain ⟨v, p, bitmap', entry, lists, stands', read⟩ := neighboursAt_stands stands inside known timestamp
    simp only [if_pos known, read]
    by_cases alive : s.Alive src
    · rw [if_neg fun gone => gone.1 (entry.dead.mpr alive.2), lists.read (blank.alive alive)]
      exact ⟨_, by simp only [alive, true_and], stands'⟩
    · obtain ⟨dead, rfl⟩ := blank.gone known alive
      rw [if_pos ⟨fun undeleted => entry.dead.mp undeleted dead, entry.early⟩]
      exact ⟨g, by simp only [alive, false_and, decide_false], stands⟩
  · have absent : ¬ s.Alive src := fun alive => known alive.1
    exact ⟨g, by simp only [if_neg known, absent, false_and, decide_false], stands⟩

theorem api_follows (P : Platform W) (B maxVertexID : Nat) :
    (api P).Follows (Stands weighted (maxVertexID + 1)) B maxVertexID weighted := by
  intro s g c stands inRange weighs blank counter
  have within (id : NodeID) (named : id ∈ c.ids) : id < maxVertexID + 1 := Nat.lt_succ_of_le (inRange id named).2
  cases c with
  | insertEdge src des weight =>
      obtain ⟨g', inserted, stands'⟩ := insertEdge_stands P stands (within src (by simp [Request.ids]))
        (within des (by simp [Request.ids])) weighs
      exact ⟨g', by simp only [Api.request, api, inserted, ok_bind, Standing.reply], stands'⟩
  | updateEdge src des weight =>
      obtain ⟨g', logged, stands'⟩ := logEdge_stands P stands (within src (by simp [Request.ids]))
        (within des (by simp [Request.ids])) weight (show (0 : Int) < 1 by decide)
      exact ⟨g', by simp only [Api.request, api, updateEdge, logged, ok_bind, Standing.reply], stands'⟩
  | deleteEdge src des =>
      obtain ⟨g', logged, stands'⟩ := logEdge_stands P stands (within src (by simp [Request.ids]))
        (within des (by simp [Request.ids])) 0 (show (-1 : Int) < 1 by decide)
      exact ⟨g', by simp only [Api.request, api, deleteEdge, logged, ok_bind, Standing.reply], by
        simpa [Standing.after] using stands'⟩
  | createSnapshots sortNeighbours makeDense =>
      obtain ⟨g', made, stands'⟩ := createSnapshots_stands P stands sortNeighbours makeDense
      exact ⟨g', by simp only [Api.request, api, made, ok_bind, Standing.reply], stands'⟩
  | deleteVertex id =>
      obtain ⟨g', deleted, stands'⟩ := deleteVertex_stands stands (within id (by simp [Request.ids])) (counter id rfl)
      exact ⟨g', by simp only [Api.request, api, deleted, ok_bind, Standing.reply], stands'⟩
  | getNeighbours src timestamp =>
      obtain ⟨g', read, stands'⟩ := getNeighbours_stands stands (within src (by simp [Request.ids])) blank
      refine ⟨g', ?_, stands'⟩
      simp only [Api.request, api, read, ok_bind, Api.named, Standing.reply]
      rfl
  | getNeighboursByOffset src timestamp | getExternalID src =>
      have gone : ¬ s.Alive src := blank
      have internal := getInternalID_stands stands (within src (by simp [Request.ids]))
      exact ⟨g, by simp only [Api.request, api, internal, if_neg gone, ok_bind, if_true, Standing.reply], stands⟩

theorem construct_stands (weighted : Prop) (global : GlobalInfo) (maxVertexID : Nat) {L : Nat} (positive : 0 < L) :
    Stands weighted (maxVertexID + 1) {} (construct (W := W) global maxVertexID L positive) := by
  refine ⟨rfl, List.length_replicate, SegmentedBitmap.reset_clean _, by norm_num [construct], ⟨by simp, by simp⟩,
    fun id v at_id => ?_⟩
  obtain rfl := List.eq_of_mem_replicate (List.mem_of_getElem? at_id)
  exact ⟨fun _ => ⟨rfl, rfl⟩, fun known => (List.not_mem_nil known).elim, by simp, by simp [maxTimestamp]⟩

/-! What the array replies to a call that is not blank. -/

theorem neighbours_unnamed (P : Platform W) (stands : Stands weighted n s g) {src : NodeID} (inside : src < n)
    {timestamp : Int} {r : Reply W} {g' : ArrayGraph W}
    (requested : (api P).request g (.getNeighbours src timestamp) = .ok (r, g')) :
    ∃ found names, r = .neighbours found names ∧ ∀ name ∈ names, name.1 = NodeID.invalid := by
  simp only [Api.request, bind_eq_ok] at requested
  obtain ⟨⟨found, edges, g₁⟩, read, names, named, same⟩ := requested
  obtain ⟨rfl, rfl⟩ := Prod.mk.inj (Except.ok.inj same)
  have stands₁ : Stands weighted n s g₁ := by
    have read : g.getNeighbours src [] timestamp = .ok (found, edges, g₁) := read
    rw [getNeighbours, retrieve_stands stands inside, ok_bind] at read
    by_cases known : src ∈ s.known
    · obtain ⟨v, p, bitmap', -, -, stands', read'⟩ := neighboursAt_stands stands inside known timestamp
      simp only [if_pos known, read'] at read
      split at read
      · cases read
        exact stands
      · cases read
        exact stands'
    · simp only [if_neg known] at read
      cases read
      exact stands
  refine ⟨found, names, rfl, fun name member => ?_⟩
  obtain ⟨e, -, external⟩ := (Api.mem_named named).1 name member
  exact getExternalID_stands stands₁ external

theorem offset_unread (P : Platform W) (stands : Stands weighted n s g) {src : NodeID} (inside : src < n)
    (alive : s.Alive src) (timestamp : Int) :
    (api P).request g (.getNeighboursByOffset src timestamp) = .ok (.neighbours false [], g) := by
  have internal := getInternalID_stands stands inside
  rw [if_pos alive] at internal
  have above : (g.vertexIndex.cnt : Int) ≤ src := by rw [stands.cnt]; omega
  have valid : (src : Int) ≠ -1 := by omega
  simp only [Api.request, api, internal, ok_bind, if_neg valid, getNeighboursByOffset, if_pos above]
  rfl

theorem external_invalid (P : Platform W) (stands : Stands weighted n s g) {src : NodeID} (inside : src < n)
    (alive : s.Alive src) : (api P).request g (.getExternalID src) = .ok (.vertex NodeID.invalid, g) := by
  have internal := getInternalID_stands stands inside
  rw [if_pos alive] at internal
  have above : (g.vertexIndex.cnt : Int) ≤ src := by rw [stands.cnt]; omega
  have valid : (src : Int) ≠ -1 := by omega
  simp only [Api.request, api, internal, ok_bind, if_neg valid, getExternalID, if_pos above]

end ArrayGraph

end Radix
