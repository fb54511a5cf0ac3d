import Radix.Graph.Integrity
import Radix.Graph.Standing
import Radix.Graph.Translation
import Radix.Sort.Tuning

/-!
# Transforms of the vertex index

`Transform` may be called on the index of a graph between any two calls of a client. No reply shows it.
-/

namespace Radix

open Lib

variable {W : Type} [Zero W] [DecidableEq W]

theorem insert_record {P : Platform W} {expandRate : ℚ} {info info' : GlobalInfo} {bitmap bitmap' : SegmentedBitmap}
    {src src' : Vertex W} {des : Int} {weight : W} {deltaDeg : Int}
    (inserted : insert P expandRate info bitmap src des weight deltaDeg = .ok (src', bitmap', info')) :
    src'.node = src.node ∧ src'.idx = src.idx := by
  rw [insert, bind_eq_ok] at inserted
  obtain ⟨⟨i, chain, bitmap₁, info₁⟩, -, written⟩ := inserted
  cases chain with
  | nil => cases written
  | cons next older =>
      simp only [bind_eq_ok] at written
      obtain ⟨r, -, next', -, ⟨⟩⟩ := written
      exact ⟨rfl, rfl⟩

theorem getNeighboursOf_record {info : GlobalInfo} {bitmap bitmap' : SegmentedBitmap} {src src' : Vertex W}
    {neighbours neighbours' : List (WeightedEdge W)} {timestamp : Int} {found : Bool}
    (read : getNeighboursOf info bitmap src neighbours timestamp = .ok (found, neighbours', src', bitmap')) :
    src'.node = src.node ∧ src'.idx = src.idx := by
  rw [getNeighboursOf] at read
  cases searched : src.next.findIdx? (·.readableAt timestamp) with
  | none =>
      rw [searched] at read
      cases read
      exact ⟨rfl, rfl⟩
  | some k =>
      rw [searched] at read
      dsimp only at read
      generalize (if info.isMixedWorkloads = true then src.next.modify k .acquire else src.next) = chain at read
      cases here : chain[k]? with
      | none =>
          rw [here] at read
          cases read
      | some next =>
          rw [here, bind_eq_ok] at read
          obtain ⟨r, -, ⟨⟩⟩ := read
          exact ⟨rfl, rfl⟩

namespace RadixGraph

def transform (g : RadixGraph W) (d : Nat) (numBits vertexSet : List Nat) : Result (RadixGraph W) := do
  let t ← g.vertexIndex.transform d numBits vertexSet
  .ok { g with vertexIndex := t }

/-- The graphs differ in their trees only, of which the first may have been transformed. -/
def Beside (depth B : Nat) (stage : SORT.Stage) (g h : RadixGraph W) : Prop :=
  ∃ t, g = { h with vertexIndex := t } ∧ SORT.Beside depth B stage t h.vertexIndex

namespace Beside

variable {depth B : Nat} {stage : SORT.Stage} {g h : RadixGraph W} {id : NodeID}

omit [DecidableEq W] in
theorem enterVertex (beside : Beside depth B stage g h) (inRange : id < 2 ^ B) (safe : stage.spoiled = true → id ≠ 0) :
    Agree (Same (Beside depth B (stage.retrieved id true))) (g.enterVertex id) (h.enterVertex id) := by
  obtain ⟨t, rfl, beside⟩ := beside
  apply (beside.retrieveVertex h.global inRange safe true).bind
  rintro ⟨ptr, t'⟩ ⟨_, s'⟩ ⟨⟨⟩, beside'⟩
  cases ptr with
  | empty => exact .error _
  | leaf k => exact .ok ⟨rfl, t', rfl, beside'⟩
  | node c => exact .error _

omit [DecidableEq W] in
theorem liveVertex (beside : Beside depth B stage g h) (inRange : id < 2 ^ B) (safe : stage.spoiled = true → id ≠ 0) :
    Agree (Same (Beside depth B (stage.retrieved id false))) (g.liveVertex id) (h.liveVertex id) := by
  obtain ⟨t, rfl, beside⟩ := beside
  apply (beside.retrieveVertex h.global inRange safe false).bind
  rintro ⟨ptr, t'⟩ ⟨_, s'⟩ ⟨⟨⟩, beside'⟩
  cases ptr with
  | empty => exact .ok ⟨rfl, t', rfl, beside'⟩
  | node c => exact .error _
  | leaf k =>
      dsimp only
      rw [beside'.vertexAt]
      apply (Agree.common (s'.vertexAt k)).bind
      rintro v _ rfl
      exact .ok ⟨rfl, t', rfl, beside'⟩

theorem insertAt (P : Platform W) (beside : Beside depth B stage g h) (k : Nat) (des : Int) (weight : W) (deltaDeg : Int) :
    Agree (Beside depth B stage) (g.insertAt P k des weight deltaDeg) (h.insertAt P k des weight deltaDeg) := by
  obtain ⟨t, rfl, beside⟩ := beside
  rw [RadixGraph.insertAt, RadixGraph.insertAt, beside.vertexAt]
  cases here : h.vertexIndex.vertexAt k with
  | error e => exact .error e
  | ok src =>
      rw [ok_bind, ok_bind]
      cases inserted : insert P h.expandRate h.global h.bitmap src des weight deltaDeg with
      | error e => exact .error e
      | ok r =>
          obtain ⟨src', bitmap, info⟩ := r
          obtain ⟨node, idx⟩ := insert_record inserted
          exact .ok ⟨_, rfl, beside.setVertex here node idx⟩

theorem insertEdge (P : Platform W) (beside : Beside depth B stage g h) {src des : NodeID} (weight : W)
    (inRange : ∀ id ∈ [src, des], id < 2 ^ B) (safe : ∀ id ∈ [src, des], stage.spoiled = true → id ≠ 0) :
    Agree (Same (Beside depth B ((stage.retrieved src true).retrieved des true))) (g.insertEdge P src des weight)
      (h.insertEdge P src des weight) := by
  apply (beside.enterVertex (inRange src (by simp)) (safe src (by simp))).bind
  rintro ⟨k, g₁⟩ ⟨_, h₁⟩ ⟨⟨⟩, beside₁⟩
  apply (beside₁.enterVertex (inRange des (by simp)) (safe des (by simp))).bind
  rintro ⟨l, g₂⟩ ⟨_, h₂⟩ ⟨⟨⟩, beside₂⟩
  have same : g₂.vertexIndex.vertexAt l = h₂.vertexIndex.vertexAt l := by
    obtain ⟨t, rfl, trees⟩ := beside₂
    exact trees.vertexAt l
  dsimp only
  rw [same]
  apply (Agree.common (h₂.vertexIndex.vertexAt l)).bind
  rintro v _ rfl
  apply (beside₂.insertAt P k v.idx weight 1).bind
  intro g₃ h₃ beside₃
  exact .ok ⟨rfl, beside₃⟩

theorem logEdge (P : Platform W) (beside : Beside depth B stage g h) {src des : NodeID} (weight : W) (deltaDeg : Int)
    (inRange : ∀ id ∈ [src, des], id < 2 ^ B) (safe : ∀ id ∈ [src, des], stage.spoiled = true → id ≠ 0) :
    Agree (Same (Beside depth B (stage.retrieved src false))) (g.logEdge P src des weight deltaDeg)
      (h.logEdge P src des weight deltaDeg) := by
  apply (beside.liveVertex (inRange src (by simp)) (safe src (by simp))).bind
  rintro ⟨found, g₁⟩ ⟨_, h₁⟩ ⟨⟨⟩, beside₁⟩
  cases found with
  | none => exact .ok ⟨rfl, beside₁⟩
  | some r =>
      apply (beside₁.liveVertex (inRange des (by simp)) (safe des (by simp))).bind
      rintro ⟨found', g₂⟩ ⟨_, h₂⟩ ⟨⟨⟩, beside₂⟩
      cases found' with
      | none => exact .ok ⟨rfl, beside₂⟩
      | some r' =>
          apply (beside₂.insertAt P r.1 r'.2.idx weight deltaDeg).bind
          intro g₃ h₃ beside₃
          exact .ok ⟨rfl, beside₃⟩

theorem neighboursAt (beside : Beside depth B stage g h) (k : Nat) (neighbours : List (WeightedEdge W)) (timestamp : Int) :
    Agree (fun a b => a.1 = b.1 ∧ Same (Beside depth B stage) a.2 b.2) (g.neighboursAt k neighbours timestamp)
      (h.neighboursAt k neighbours timestamp) := by
  obtain ⟨t, rfl, beside⟩ := beside
  rw [RadixGraph.neighboursAt, RadixGraph.neighboursAt, beside.vertexAt]
  cases here : h.vertexIndex.vertexAt k with
  | error e => exact .error e
  | ok src =>
      rw [ok_bind, ok_bind]
      split
      · exact .ok ⟨rfl, rfl, t, rfl, beside⟩
      · dsimp only
        cases read : getNeighboursOf h.global h.bitmap src neighbours timestamp with
        | error e => exact .error e
        | ok r =>
            obtain ⟨found, neighbours', src', bitmap⟩ := r
            obtain ⟨node, idx⟩ := getNeighboursOf_record read
            exact .ok ⟨rfl, rfl, _, rfl, beside.setVertex here node idx⟩

theorem getNeighbours (beside : Beside depth B stage g h) (inRange : id < 2 ^ B) (safe : stage.spoiled = true → id ≠ 0)
    (neighbours : List (WeightedEdge W)) (timestamp : Int) :
    Agree (fun a b => a.1 = b.1 ∧ Same (Beside depth B (stage.retrieved id false)) a.2 b.2)
      (g.getNeighbours id neighbours timestamp) (h.getNeighbours id neighbours timestamp) := by
  obtain ⟨t, rfl, beside⟩ := beside
  apply (beside.retrieveVertex h.global inRange safe false).bind
  rintro ⟨ptr, t'⟩ ⟨_, s'⟩ ⟨⟨⟩, beside'⟩
  cases ptr with
  | empty => exact .ok ⟨rfl, rfl, t', rfl, beside'⟩
  | node c => exact .error _
  | leaf k =>
      have moved : Beside depth B (stage.retrieved id false) { h with vertexIndex := t' } { h with vertexIndex := s' } :=
        ⟨t', rfl, beside'⟩
      exact moved.neighboursAt k neighbours timestamp

omit [DecidableEq W] in
theorem cnt (beside : Beside depth B stage g h) : g.vertexIndex.cnt = h.vertexIndex.cnt := by
  obtain ⟨t, rfl, beside⟩ := beside
  exact beside.cnt

theorem getNeighboursByOffset (beside : Beside depth B stage g h) (src : Int) (neighbours : List (WeightedEdge W))
    (timestamp : Int) :
    Agree (fun a b => a.1 = b.1 ∧ Same (Beside depth B stage) a.2 b.2) (g.getNeighboursByOffset src neighbours timestamp)
      (h.getNeighboursByOffset src neighbours timestamp) := by
  rw [RadixGraph.getNeighboursByOffset, RadixGraph.getNeighboursByOffset, beside.cnt]
  split
  · exact .ok ⟨rfl, rfl, beside⟩
  · split
    · exact .error _
    · exact beside.neighboursAt src.toNat neighbours timestamp

omit [DecidableEq W] in
theorem getInternalID (beside : Beside depth B stage g h) (inRange : id < 2 ^ B) (safe : stage.spoiled = true → id ≠ 0) :
    g.getInternalID id = h.getInternalID id := by
  have both : Agree (fun a b => a = b) (g.getInternalID id) (h.getInternalID id) := by
    apply (beside.liveVertex inRange safe).bind
    rintro ⟨found, g'⟩ ⟨_, h'⟩ ⟨⟨⟩, -⟩
    cases found with
    | none => exact .ok rfl
    | some r => exact .ok rfl
  exact both.eq

omit [DecidableEq W] in
theorem getExternalID (beside : Beside depth B stage g h) (offset : Int) : g.getExternalID offset = h.getExternalID offset := by
  have same : g.vertexIndex.vertexAt offset.toNat = h.vertexIndex.vertexAt offset.toNat := by
    obtain ⟨t, rfl, beside⟩ := beside
    exact beside.vertexAt _
  rw [RadixGraph.getExternalID, RadixGraph.getExternalID, beside.cnt, same]

omit [DecidableEq W] in
theorem deleteVertex (beside : Beside depth B stage g h) (inRange : id < 2 ^ B) (safe : stage.spoiled = true → id ≠ 0) :
    Agree (Same (Beside depth B (stage.retrieved id false))) (g.deleteVertex id) (h.deleteVertex id) := by
  obtain ⟨t, rfl, beside⟩ := beside
  apply (beside.deleteVertex h.global inRange safe).bind
  rintro ⟨b, t'⟩ ⟨_, s'⟩ ⟨⟨⟩, beside'⟩
  exact .ok ⟨rfl, t', rfl, beside'⟩

theorem snapshotVertex (P : Platform W) (beside : Beside depth B stage g h) (sortNeighbours makeDense : Bool) (i : Nat) :
    Agree (Beside depth B stage) (g.snapshotVertex P sortNeighbours makeDense i)
      (h.snapshotVertex P sortNeighbours makeDense i) := by
  obtain ⟨t, rfl, beside⟩ := beside
  rw [RadixGraph.snapshotVertex, RadixGraph.snapshotVertex, beside.vertexAt]
  cases here : h.vertexIndex.vertexAt i with
  | error e => exact .error e
  | ok src =>
      rw [ok_bind, ok_bind]
      cases src.next with
      | nil => exact .error _
      | cons next older =>
          apply (Agree.common _).bind
          rintro ⟨newArray, bitmap, info⟩ _ rfl
          exact .ok ⟨_, rfl, beside.setVertex here rfl rfl⟩

theorem createSnapshots (P : Platform W) (beside : Beside depth B stage g h) (sortNeighbours makeDense : Bool) :
    Agree (Beside depth B stage) (g.createSnapshots P sortNeighbours makeDense)
      (h.createSnapshots P sortNeighbours makeDense) := by
  have drawn : P.order g.global g.vertexIndex.cnt = P.order h.global h.vertexIndex.cnt := by
    rw [beside.cnt]
    obtain ⟨t, rfl, -⟩ := beside
    rfl
  rw [RadixGraph.createSnapshots, RadixGraph.createSnapshots, drawn]
  apply (Agree.foldlM (fun i _ _ _ here => here.snapshotVertex P sortNeighbours makeDense i) beside).bind
  rintro _ h' ⟨t', rfl, beside'⟩
  exact .ok ⟨t', rfl, beside'⟩

theorem named (P : Platform W) (beside : Beside depth B stage g h) (edges : List (WeightedEdge W)) :
    (api P).named g edges = (api P).named h edges := by
  have same : (api P).getExternalID g = (api P).getExternalID h := funext beside.getExternalID
  rw [Api.named, Api.named, same]

end Beside

end RadixGraph

/-! ## Requests -/

def Request.stage (stage : SORT.Stage) : Request W → SORT.Stage
  | .insertEdge src des _ => (stage.retrieved src true).retrieved des true
  | .updateEdge id _ _ | .deleteEdge id _ | .deleteVertex id | .getNeighbours id _ => stage.retrieved id false
  | .createSnapshots _ _ | .getNeighboursByOffset _ _ | .getExternalID _ => stage

namespace RadixGraph

theorem Beside.request (P : Platform W) {depth B : Nat} {stage : SORT.Stage} {g h : RadixGraph W}
    (beside : Beside depth B stage g h) {c : Request W} (inRange : ∀ id ∈ c.ids, id < 2 ^ B)
    (safe : ∀ id ∈ c.ids, stage.spoiled = true → id ≠ 0) :
    Agree (Same (Beside depth B (c.stage stage))) ((api P).request g c) ((api P).request h c) := by
  have self {id : NodeID} (named : id ∈ c.ids) := beside.getInternalID (inRange id named) (safe id named)
  cases c with
  | insertEdge src des weight =>
      apply (beside.insertEdge P weight inRange safe).bind
      rintro ⟨b, g'⟩ ⟨_, h'⟩ ⟨⟨⟩, beside'⟩
      exact .ok ⟨rfl, beside'⟩
  | updateEdge src des weight =>
      apply (beside.logEdge P weight 0 inRange safe).bind
      rintro ⟨b, g'⟩ ⟨_, h'⟩ ⟨⟨⟩, beside'⟩
      exact .ok ⟨rfl, beside'⟩
  | deleteEdge src des =>
      apply (beside.logEdge P 0 (-1) inRange safe).bind
      rintro ⟨b, g'⟩ ⟨_, h'⟩ ⟨⟨⟩, beside'⟩
      exact .ok ⟨rfl, beside'⟩
  | createSnapshots sortNeighbours makeDense =>
      apply (beside.createSnapshots P sortNeighbours makeDense).bind
      intro g' h' beside'
      exact .ok ⟨rfl, beside'⟩
  | deleteVertex id =>
      apply (beside.deleteVertex (inRange id (by simp [Request.ids])) (safe id (by simp [Request.ids]))).bind
      rintro ⟨b, g'⟩ ⟨_, h'⟩ ⟨⟨⟩, beside'⟩
      exact .ok ⟨rfl, beside'⟩
  | getNeighbours src timestamp =>
      apply (beside.getNeighbours (inRange src (by simp [Request.ids])) (safe src (by simp [Request.ids])) [] timestamp).bind
      rintro ⟨found, edges, g'⟩ ⟨_, _, h'⟩ ⟨⟨⟩, ⟨⟩, beside'⟩
      dsimp only
      rw [beside'.named P]
      apply (Agree.common _).bind
      rintro edges' _ rfl
      exact .ok ⟨rfl, beside'⟩
  | getNeighboursByOffset src timestamp =>
      have same : (api P).getInternalID g src = (api P).getInternalID h src := self (by simp [Request.ids])
      rw [Api.request, Api.request, same]
      apply (Agree.common _).bind
      rintro k _ rfl
      split
      · exact .ok ⟨rfl, beside⟩
      · apply (beside.getNeighboursByOffset k [] timestamp).bind
        rintro ⟨found, edges, g'⟩ ⟨_, _, h'⟩ ⟨⟨⟩, ⟨⟩, beside'⟩
        dsimp only
        rw [beside'.named P]
        apply (Agree.common _).bind
        rintro edges' _ rfl
        exact .ok ⟨rfl, beside'⟩
  | getExternalID id =>
      have same : (api P).getInternalID g id = (api P).getInternalID h id := self (by simp [Request.ids])
      have name : (api P).getExternalID g = (api P).getExternalID h := funext beside.getExternalID
      rw [Api.request, Api.request, same, name]
      apply (Agree.common _).bind
      rintro k _ rfl
      split
      · exact .ok ⟨rfl, beside⟩
      · apply (Agree.common _).bind
        rintro name _ rfl
        exact .ok ⟨rfl, beside⟩

/-! ## Requests are served -/

variable {ws : List Nat} {h h' : RadixGraph W} {A : Ledger W}

theorem mem_of_mem_answer {k : Nat} {p : Page W} {timestamp : Int} {e : WeightedEdge W}
    (member : e ∈ (h.answer k p timestamp).2) : e ∈ p.snap ++ p.log := by
  rw [answer, Page.read] at member
  split at member
  · cases member
  · split at member
    · obtain ⟨later, split⟩ := visibleLog_prefix timestamp p.stamps p.log
      rw [split, ← List.append_assoc]
      exact List.mem_append_left _ (Page.mem_of_mem_listed member)
    · cases member

theorem InRange.named (P : Platform W) (inRange : InRange ws h A) {edges : List (WeightedEdge W)}
    (nonneg : ∀ e ∈ edges, 0 ≤ e.idx) : ∃ names, (api P).named h edges = .ok names := by
  refine ⟨_, mapM_ok (g := fun e => (A.ids.getD e.idx.toNat NodeID.invalid, e.weight)) fun e member => ?_⟩
  have name : (api P).getExternalID h e.idx = .ok (A.ids.getD e.idx.toNat NodeID.invalid) :=
    getExternalID_order inRange (nonneg e member)
  rw [name, ok_bind]

theorem InRange.page (inRange : InRange ws h A) {k : Nat} (inside : k < A.ids.length) :
    ∃ p, h.Paged k p ∧ ∀ timestamp, ∀ e ∈ (h.answer k p timestamp).2, 0 ≤ e.idx := by
  obtain ⟨p, -, paged, -⟩ := inRange.holds.page inside
  exact ⟨p, paged, fun timestamp e member => (inRange.leads k p paged e (mem_of_mem_answer member)).1⟩

theorem InRange.internal (inRange : InRange ws h A) (id : NodeID) :
    h.getInternalID id = .ok (-1) ∨ ∃ k : Nat, k < A.ids.length ∧ h.getInternalID id = .ok (k : Int) := by
  rw [getInternalID_holds inRange.holds]
  cases known : SORT.position ws.sum A.ids id with
  | none => exact .inl rfl
  | some k =>
      by_cases alive : h.gone k = -1
      · exact .inr ⟨k, SORT.position_isLt known, congrArg Except.ok (if_pos alive)⟩
      · exact .inl (congrArg Except.ok (if_neg alive))

theorem InRange.request (P : Platform W) (inRange : InRange ws h A) {c : Request W}
    (small : ∀ id ∈ c.ids, id < 2 ^ ws.sum) :
    ∃ reply h' A', (api P).request h c = .ok (reply, h') ∧ InRange ws h' A' := by
  have acts (action : Action W) (known : ∀ id ∈ action.ids, id < 2 ^ ws.sum) :
      ∃ h', RadixGraph.act P h action = .ok h' ∧ InRange ws h' (A.liveNext ws.sum h.gone (Kept.logTimestamp h'.global) action) :=
    inRange.act P known
  cases c with
  | insertEdge src des weight =>
      obtain ⟨h', acted, inRange'⟩ := acts (.op (.insertEdge src des weight)) small
      obtain ⟨⟨b, _⟩, done, ⟨⟩⟩ := bind_eq_ok.mp acted
      have called : (api P).insertEdge h src des weight = .ok (b, h') := done
      exact ⟨.flag b, h', _, by rw [Api.request, called, ok_bind], inRange'⟩
  | updateEdge src des weight =>
      obtain ⟨h', acted, inRange'⟩ := acts (.op (.updateEdge src des weight)) small
      obtain ⟨⟨b, _⟩, done, ⟨⟩⟩ := bind_eq_ok.mp acted
      have called : (api P).updateEdge h src des weight = .ok (b, h') := done
      exact ⟨.flag b, h', _, by rw [Api.request, called, ok_bind], inRange'⟩
  | deleteEdge src des =>
      obtain ⟨h', acted, inRange'⟩ := acts (.op (.deleteEdge src des)) small
      obtain ⟨⟨b, _⟩, done, ⟨⟩⟩ := bind_eq_ok.mp acted
      have called : (api P).deleteEdge h src des = .ok (b, h') := done
      exact ⟨.flag b, h', _, by rw [Api.request, called, ok_bind], inRange'⟩
  | createSnapshots sortNeighbours makeDense =>
      obtain ⟨h', acted, inRange'⟩ := acts (.op (.createSnapshots sortNeighbours makeDense)) small
      have called : (api P).createSnapshots h sortNeighbours makeDense = .ok h' := acted
      exact ⟨.done, h', _, by rw [Api.request, called, ok_bind], inRange'⟩
  | deleteVertex id =>
      obtain ⟨h', acted, inRange'⟩ := acts (.deleteVertex id) small
      obtain ⟨⟨b, _⟩, done, ⟨⟩⟩ := bind_eq_ok.mp acted
      have called : (api P).deleteVertex h id = .ok (b, h') := done
      exact ⟨.flag b, h', _, by rw [Api.request, called, ok_bind], inRange'⟩
  | getNeighbours src timestamp =>
      obtain ⟨h', acted, inRange'⟩ := acts (.op (.getNeighbours src timestamp)) small
      obtain ⟨⟨found, edges, _⟩, done, ⟨⟩⟩ := bind_eq_ok.mp acted
      have called : (api P).getNeighbours h src [] timestamp = .ok (found, edges, h') := done
      have read : h.readVertex src timestamp = .ok (found, edges) := by rw [readVertex, done, ok_bind]
      have nonneg : ∀ e ∈ edges, 0 ≤ e.idx := by
        cases known : SORT.position ws.sum A.ids src with
        | none =>
            rw [readVertex_unknown inRange.holds known] at read
            cases read
            exact fun _ impossible => absurd impossible List.not_mem_nil
        | some k =>
            obtain ⟨p, paged, nonneg⟩ := inRange.page (SORT.position_isLt known)
            rw [paged.readVertex inRange.holds known] at read
            have same := Except.ok.inj read
            have all := nonneg timestamp
            rwa [same] at all
      obtain ⟨names, named⟩ := inRange'.named P nonneg
      exact ⟨.neighbours found names, h', _, by rw [Api.request, called, ok_bind]; simp only [named, ok_bind], inRange'⟩
  | getNeighboursByOffset src timestamp =>
      obtain internal | ⟨k, inside, internal⟩ := inRange.internal src
      · have absent : (api P).getInternalID h src = .ok (-1) := internal
        exact ⟨.absent, h, A, by rw [Api.request, absent, ok_bind, if_pos rfl], inRange⟩
      · have present : (api P).getInternalID h src = .ok (k : Int) := internal
        obtain ⟨h', acted, inRange'⟩ := acts (.getNeighboursByOffset k timestamp)
          fun _ none => absurd none List.not_mem_nil
        obtain ⟨⟨found, edges, _⟩, done, ⟨⟩⟩ := bind_eq_ok.mp acted
        have called : (api P).getNeighboursByOffset h k [] timestamp = .ok (found, edges, h') := done
        have read : h.readOffset k timestamp = .ok (found, edges) := by rw [readOffset, done, ok_bind]
        obtain ⟨p, paged, nonneg⟩ := inRange.page inside
        rw [paged.readOffset inRange.holds] at read
        have same := Except.ok.inj read
        have all := nonneg timestamp
        rw [same] at all
        obtain ⟨names, named⟩ := inRange'.named P all
        refine ⟨.neighbours found names, h', _, ?_, inRange'⟩
        rw [Api.request, present, ok_bind, if_neg (by omega), called, ok_bind]
        simp only [named, ok_bind]
  | getExternalID id =>
      obtain internal | ⟨k, -, internal⟩ := inRange.internal id
      · have absent : (api P).getInternalID h id = .ok (-1) := internal
        exact ⟨.absent, h, A, by rw [Api.request, absent, ok_bind, if_pos rfl], inRange⟩
      · have present : (api P).getInternalID h id = .ok (k : Int) := internal
        have name : (api P).getExternalID h k = .ok _ := getExternalID_order inRange (Int.natCast_nonneg k)
        exact ⟨_, h, A, by rw [Api.request, present, ok_bind, if_neg (by omega), name, ok_bind], inRange⟩

end RadixGraph

/-! ## Runs -/

inductive Move (W : Type) where
  | request (c : Request W)
  | transform (d : Nat) (numBits vertexSet : List Nat)
  deriving DecidableEq

namespace Move

def asked : Move W → Option (Request W)
  | .request c => some c
  | .transform _ _ _ => none

def requests (moves : List (Move W)) : List (Request W) := moves.filterMap asked

def next (depth : Nat) (stage : SORT.Stage) : Move W → SORT.Stage
  | .request c => c.stage stage
  | .transform d _ vertexSet => if d = depth then stage.transformed vertexSet else stage

/-- The ids are in range, the slot of no id is spoiled, and a transform is one the client may make. -/
def Allowed (depth B : Nat) (stage : SORT.Stage) : Move W → Prop
  | .request c => ∀ id ∈ c.ids, id < 2 ^ B ∧ (stage.spoiled = true → id ≠ 0)
  | .transform d numBits vertexSet => d = depth → stage.Transforms depth B numBits vertexSet

end Move

namespace RadixGraph

def serveMoves (P : Platform W) : RadixGraph W → List (Move W) → Result (List (Reply W) × RadixGraph W)
  | g, [] => .ok ([], g)
  | g, .request c :: moves => do
      let (reply, g) ← (api P).request g c
      let (replies, g) ← serveMoves P g moves
      .ok (reply :: replies, g)
  | g, .transform d numBits vertexSet :: moves => do
      let g ← g.transform d numBits vertexSet
      serveMoves P g moves

omit [DecidableEq W] in
theorem Beside.transform {depth B : Nat} {stage : SORT.Stage} {g h : RadixGraph W} (beside : Beside depth B stage g h)
    (d : Nat) {numBits vertexSet : List Nat} (transforms : d = depth → stage.Transforms depth B numBits vertexSet) :
    ∃ g', g.transform d numBits vertexSet = .ok g' ∧
      Beside depth B (if d = depth then stage.transformed vertexSet else stage) g' h := by
  obtain ⟨t, rfl, beside⟩ := beside
  by_cases same : d = depth
  · subst same
    obtain ⟨t', done, beside'⟩ := beside.transform (transforms rfl)
    refine ⟨{ h with vertexIndex := t' }, ?_, t', rfl, ?_⟩
    · simp only [RadixGraph.transform, done, ok_bind]
    · rwa [if_pos rfl]
  · refine ⟨{ h with vertexIndex := t }, ?_, t, rfl, ?_⟩
    · simp only [RadixGraph.transform, beside.transform_other same, ok_bind]
    · rwa [if_neg same]

theorem serveMoves_beside (P : Platform W) {ws : List Nat} {depth : Nat} {stage : SORT.Stage} {g h : RadixGraph W}
    {A : Ledger W} (inRange : InRange ws h A) (beside : Beside depth ws.sum stage g h) {moves : List (Move W)}
    (allowed : Admissible (Move.next depth) (Move.Allowed depth ws.sum) stage moves) :
    ∃ replies g' h', serveMoves P g moves = .ok (replies, g') ∧ (api P).serve h (Move.requests moves) = .ok (replies, h') ∧
      Beside depth ws.sum (moves.foldl (Move.next depth) stage) g' h' := by
  induction moves generalizing stage g h A with
  | nil => exact ⟨[], g, h, rfl, rfl, beside⟩
  | cons m moves ih =>
      obtain ⟨here, rest⟩ := allowed
      cases m with
      | request c =>
          obtain ⟨reply, h₁, A₁, asked, inRange₁⟩ := inRange.request P fun id member => (here id member).1
          have agree := beside.request P (fun id member => (here id member).1) fun id member => (here id member).2
          rw [asked] at agree
          obtain ⟨⟨_, g₁⟩, asked', ⟨⟩, beside₁⟩ := agree.ok_of
          obtain ⟨replies, g', h', served, served', beside'⟩ := ih inRange₁ beside₁ rest
          refine ⟨reply :: replies, g', h', ?_, ?_, beside'⟩
          · simp only [serveMoves, asked', ok_bind, served]
          · have split : Move.requests (.request c :: moves) = c :: Move.requests moves := rfl
            rw [split]
            simp only [Api.serve, asked, ok_bind, served']
      | transform d numBits vertexSet =>
          obtain ⟨g₁, transformed, beside₁⟩ := beside.transform d here
          obtain ⟨replies, g', h', served, served', beside'⟩ := ih inRange beside₁ rest
          refine ⟨replies, g', h', ?_, served', beside'⟩
          rw [serveMoves, transformed, ok_bind, served]

end RadixGraph

end Radix
