import Mathlib.Data.List.Perm.Subperm
import Radix.Analytics.Bfs

/-!
# What the two steps of the search compute
-/

namespace Radix.Analytics

open Lib RadixGraph

variable {W : Type} [Zero W] [DecidableEq W]

def firstIn (adj : Nat → List (WeightedEdge W)) (F : Nat → Bool) (i : Nat) : Option Nat :=
  ((adj i).find? fun e => F e.idx.toNat).map fun e => e.idx.toNat

variable {ws : List Nat} {A : Ledger W} {pages : Nat → Page W} {adj : Nat → List (WeightedEdge W)}

theorem Answers.firstIn_lt (answers : Answers ws A pages adj) {F : Nat → Bool} {i p : Nat}
    (found : firstIn adj F i = some p) : p < A.ids.length ∧ F p ∧ ListedEdge adj i p := by
  obtain ⟨e, here, rfl⟩ := Option.map_eq_some_iff.mp found
  have member := List.mem_of_find?_eq_some here
  obtain ⟨j, inside, idx⟩ := answers.closed i e member
  have chosen := List.find?_some here
  rw [idx, Int.toNat_natCast] at chosen ⊢
  exact ⟨inside, chosen, e, member, idx⟩

/-! ## `BUStep` -/

omit [DecidableEq W] in
theorem inFront_spec {n : Nat} {front : Bitmap} {F : Nat → Bool} (marks : front.Marks n F) (l : List (WeightedEdge W))
    (closed : ∀ e ∈ l, ∃ j < n, e.idx = (j : Int)) :
    inFront front l = .ok ((l.find? fun e => F e.idx.toNat).map fun e => e.idx.toNat) := by
  induction l with
  | nil => rfl
  | cons e rest ih =>
      obtain ⟨j, inside, idx⟩ := closed e (by simp)
      rw [inFront, idx, index_natCast, ok_bind, marks.get inside, ok_bind, List.find?_cons, idx, Int.toNat_natCast]
      cases F j with
      | true => simp [idx]
      | false => exact ih fun e member => closed e (by simp [member])

theorem Answers.inFront (answers : Answers ws A pages adj) {front : Bitmap} {F : Nat → Bool}
    (marks : front.Marks A.ids.length F) (i : Nat) : inFront front (adj i) = .ok (firstIn adj F i) :=
  inFront_spec marks _ (answers.closed i)

def risen (adj : Nat → List (WeightedEdge W)) (F : Nat → Bool) (f : Nat → NodeID) (j : Nat) : NodeID :=
  if f j = NodeID.invalid then (firstIn adj F j).getD NodeID.invalid else f j

def rises (adj : Nat → List (WeightedEdge W)) (F : Nat → Bool) (f : Nat → NodeID) (j : Nat) : Bool :=
  f j = NodeID.invalid && (firstIn adj F j).isSome

structure Rising (ws : List Nat) (A : Ledger W) (pages : Nat → Page W) (adj : Nat → List (WeightedEdge W))
    (F : Nat → Bool) (f : Nat → NodeID) (done : List Nat) (s : BottomUp W) : Prop where
  serves : Serves ws A pages s.g
  parent : s.parent.Stores A.ids.length fun j => if j ∈ done then risen adj F f j else f j
  next : s.next.Marks A.ids.length fun j => j ∈ done && rises adj F f j
  awake : s.awakeCount = (done.filter (rises adj F f)).length

theorem Rising.vertex (answers : Answers ws A pages adj) {front : Bitmap} {F : Nat → Bool} {f : Nat → NodeID}
    (marks : front.Marks A.ids.length F) {done : List Nat} {s : BottomUp W}
    (rising : Rising ws A pages adj F f done s) {i : Nat} (inside : i < A.ids.length) (new : i ∉ done) :
    ∃ s', buVertex front s i = .ok s' ∧ Rising ws A pages adj F f (done ++ [i]) s' := by
  have here := rising.parent.get inside
  rw [if_neg new] at here
  rw [buVertex, here, ok_bind]
  by_cases unvisited : f i = NodeID.invalid
  · obtain ⟨g', read, serves'⟩ := answers.byOffset rising.serves inside
    rw [if_pos unvisited, read, ok_bind]
    dsimp only
    rw [answers.inFront marks, ok_bind]
    cases found : firstIn adj F i with
    | none =>
        refine ⟨_, rfl, serves', rising.parent.congr fun j _ => ?_, rising.next.congr fun j _ => ?_, ?_⟩
        · by_cases same : j = i
          · subst same
            simp [new, risen, unvisited, found]
          · simp [same]
        · by_cases same : j = i
          · subst same
            simp [new, rises, found]
          · simp [same]
        · simp [rising.awake, rises, found]
    | some p =>
        obtain ⟨parent, stored, parents⟩ := rising.parent.set inside p
        obtain ⟨next, marked, nexts⟩ := rising.next.set inside
        have chosen : rises adj F f i := by simp [rises, unvisited, found]
        dsimp only
        rw [stored, ok_bind, marked, ok_bind]
        refine ⟨_, rfl, serves', parents.congr fun j _ => ?_, nexts.congr fun j _ => ?_, ?_⟩
        · by_cases same : j = i
          · subst same
            simp [risen, unvisited, found]
          · simp [same]
        · by_cases same : j = i
          · subst same
            simp [chosen]
          · simp [same]
        · simp [rising.awake, chosen]
  · rw [if_neg unvisited]
    have idle : rises adj F f i = false := by simp [rises, unvisited]
    refine ⟨s, rfl, rising.serves, rising.parent.congr fun j _ => ?_, rising.next.congr fun j _ => ?_, ?_⟩
    · by_cases same : j = i
      · subst same
        simp [new, risen, unvisited]
      · simp [same]
    · by_cases same : j = i
      · subst same
        simp [new, idle]
      · simp [same]
    · simp [rising.awake, idle]

theorem buStep_spec (answers : Answers ws A pages adj) (loops : Loops) (t : Nat) {g : RadixGraph W}
    (serves : Serves ws A pages g) {parent : PVector NodeID} {f : Nat → NodeID} (stores : parent.Stores A.ids.length f)
    {front next : Bitmap} {F : Nat → Bool} (marks : front.Marks A.ids.length F)
    (length : next.cells.length = (A.ids.length + 63) / 64) :
    ∃ b, buStep loops t g parent front next A.ids.length = .ok b ∧ Serves ws A pages b.g ∧
      b.parent.Stores A.ids.length (risen adj F f) ∧ b.next.Marks A.ids.length (rises adj F f) ∧
      b.awakeCount = ((List.range A.ids.length).filter (rises adj F f)).length := by
  have perm := loops.order_perm t (List.range A.ids.length)
  have distinct : (loops.order t (List.range A.ids.length)).Nodup := perm.nodup_iff.mpr List.nodup_range
  have step (done : List Nat) (i : Nat) (s : BottomUp W)
      (earlier : done ++ [i] <+: loops.order t (List.range A.ids.length))
      (rising : Rising ws A pages adj F f done s) :
      ∃ s', buVertex front s i = .ok s' ∧ Rising ws A pages adj F f (done ++ [i]) s' := by
    have inside := List.mem_range.mp (perm.subset (earlier.subset (by simp : i ∈ done ++ [i])))
    have new := (List.nodup_append.mp (distinct.sublist earlier.sublist)).2.2
    exact rising.vertex answers marks inside fun member => new i member i (by simp) rfl
  have start : Rising ws A pages adj F f [] { g, parent, next := next.reset, awakeCount := 0 } :=
    ⟨serves, by simpa using stores, by simpa using Bitmap.reset_marks length, rfl⟩
  obtain ⟨b, looped, rising⟩ := foldlM_invariant _ (Rising ws A pages adj F f) step start
  have all (j : Nat) (inside : j < A.ids.length) : j ∈ loops.order t (List.range A.ids.length) :=
    perm.symm.subset (List.mem_range.mpr inside)
  refine ⟨b, looped, rising.serves, rising.parent.congr fun j inside => if_pos (all j inside),
    rising.next.congr fun j inside => by simp [all j inside], ?_⟩
  rw [rising.awake]
  exact (perm.filter _).length_eq

/-! ## `TDStep` -/

structure Spread (n : Nat) (f f' : Nat → NodeID) (hit : Nat → Nat → Prop) (fresh : List Nat) : Prop where
  kept : ∀ j < n, f j ≠ NodeID.invalid → f' j = f j
  found : ∀ j < n, f j = NodeID.invalid → f' j ≠ NodeID.invalid → hit (f' j) j
  all : ∀ p, ∀ j < n, hit p j → f' j ≠ NodeID.invalid
  nodup : fresh.Nodup
  fresh : ∀ j, j ∈ fresh ↔ j < n ∧ f j = NodeID.invalid ∧ f' j ≠ NodeID.invalid

namespace Spread

variable {n : Nat} {f f' : Nat → NodeID} {hit : Nat → Nat → Prop} {fresh : List Nat}

theorem start (n : Nat) (f : Nat → NodeID) : Spread n f f (fun _ _ => False) [] where
  kept _ _ _ := rfl
  found _ _ unvisited visited := absurd unvisited visited
  all _ _ _ hit := hit.elim
  nodup := List.nodup_nil
  fresh j := by
    constructor
    · intro member
      cases member
    · rintro ⟨-, unvisited, visited⟩
      exact absurd unvisited visited

theorem congr {hit' : Nat → Nat → Prop} (spread : Spread n f f' hit fresh) (same : ∀ p j, hit p j ↔ hit' p j) :
    Spread n f f' hit' fresh where
  kept := spread.kept
  found j inside unvisited visited := (same _ _).mp (spread.found j inside unvisited visited)
  all p j inside here := spread.all p j inside ((same p j).mpr here)
  nodup := spread.nodup
  fresh := spread.fresh

theorem again (spread : Spread n f f' hit fresh) {i : Nat} (visited : f' i ≠ NodeID.invalid) (p : Nat) :
    Spread n f f' (fun q j => hit q j ∨ q = p ∧ j = i) fresh where
  kept := spread.kept
  found j inside unvisited visited := .inl (spread.found j inside unvisited visited)
  all q j inside here := by
    rcases here with earlier | ⟨-, rfl⟩
    · exact spread.all q j inside earlier
    · exact visited
  nodup := spread.nodup
  fresh := spread.fresh

theorem first (spread : Spread n f f' hit fresh) {i : Nat} (inside : i < n) (unvisited : f' i = NodeID.invalid)
    {p : Nat} (valid : p ≠ NodeID.invalid) :
    Spread n f (Function.update f' i p) (fun q j => hit q j ∨ q = p ∧ j = i) (fresh ++ [i]) := by
  have before : f i = NodeID.invalid := by
    by_contra visited
    rw [spread.kept i inside visited] at unvisited
    exact visited unvisited
  have new : i ∉ fresh := fun member => ((spread.fresh i).mp member).2.2 unvisited
  refine ⟨fun j below visited => ?_, fun j below unvisited' visited => ?_, fun q j below here => ?_, ?_, fun j => ?_⟩
  · have other : j ≠ i := fun same => visited (same ▸ before)
    rw [Function.update_of_ne other, spread.kept j below visited]
  · by_cases same : j = i
    · subst same
      exact .inr ⟨Function.update_self .., rfl⟩
    · rw [Function.update_of_ne same] at visited ⊢
      exact .inl (spread.found j below unvisited' visited)
  · by_cases same : j = i
    · subst same
      rwa [Function.update_self]
    · rw [Function.update_of_ne same]
      rcases here with earlier | ⟨-, here⟩
      · exact spread.all q j below earlier
      · exact absurd here same
  · exact List.nodup_append.mpr ⟨spread.nodup, List.nodup_singleton i, fun a member b single same =>
      new (by rwa [← List.mem_singleton.mp single, ← same])⟩
  · rw [List.mem_append, List.mem_singleton, spread.fresh]
    by_cases same : j = i
    · subst same
      simp [inside, before, valid]
    · simp [same]

theorem room (spread : Spread n f f' hit fresh) {old : List Nat} (distinct : old.Nodup)
    (visited : ∀ j ∈ old, j < n ∧ f j ≠ NodeID.invalid) :
    (old ++ fresh).Nodup ∧ (old ++ fresh).length ≤ n ∧ ∀ j ∈ old ++ fresh, j < n ∧ f' j ≠ NodeID.invalid := by
  have apart : (old ++ fresh).Nodup := List.nodup_append.mpr ⟨distinct, spread.nodup, fun a member b fresh same =>
    (visited a member).2 ((spread.fresh a).mp (same ▸ fresh)).2.1⟩
  have all (j : Nat) (member : j ∈ old ++ fresh) : j < n ∧ f' j ≠ NodeID.invalid := by
    rcases List.mem_append.mp member with before | now
    · obtain ⟨inside, ne⟩ := visited j before
      exact ⟨inside, by rwa [spread.kept j inside ne]⟩
    · obtain ⟨inside, -, ne⟩ := (spread.fresh j).mp now
      exact ⟨inside, ne⟩
  refine ⟨apart, ?_, all⟩
  have within : old ++ fresh ⊆ List.range n := fun j member => List.mem_range.mpr (all j member).1
  simpa using (List.subperm_of_subset apart within).length_le

end Spread

/-- The sum of the snapshot degrees that `TDStep` reads when it queues these vertices. -/
def scouted (pages : Nat → Page W) (fresh : List Nat) : Int := (fresh.map fun j => ((pages j).snap.length : Int)).sum

structure Spreading (ws : List Nat) (A : Ledger W) (pages : Nat → Page W) (f : Nat → NodeID) (old : List Nat)
    (start : Nat) (hit : Nat → Nat → Prop) (s : TopDown W) : Prop where
  serves : Serves ws A pages s.g
  spread : ∃ f' fresh, s.parent.Stores A.ids.length f' ∧ Spread A.ids.length f f' hit fresh ∧
    Buffered s.queue s.lqueue A.ids.length (old ++ fresh) start old.length ∧ s.scoutCount = scouted pages fresh

theorem Spreading.edge (answers : Answers ws A pages adj) {f : Nat → NodeID} {old : List Nat} (distinct : old.Nodup)
    (visited : ∀ j ∈ old, j < A.ids.length ∧ f j ≠ NodeID.invalid) {start : Nat} {hit : Nat → Nat → Prop}
    {s : TopDown W} (spreading : Spreading ws A pages f old start hit s) {p : Nat} (front : p < A.ids.length)
    {e : WeightedEdge W} {i : Nat} (inside : i < A.ids.length) (idx : e.idx = (i : Int)) :
    ∃ s', tdEdge p s e = .ok s' ∧ Spreading ws A pages f old start (fun q j => hit q j ∨ q = p ∧ j = i) s' := by
  obtain ⟨f', fresh, stores, spread, buffered, counted⟩ := spreading.spread
  rw [tdEdge, idx, index_natCast, ok_bind, stores.get inside, ok_bind]
  by_cases unvisited : f' i = NodeID.invalid
  · obtain ⟨parent, stored, stores'⟩ := stores.set inside p
    have spread' := spread.first inside unvisited (answers.ne_invalid front)
    have room := (spread'.room distinct visited).2.1
    rw [← List.append_assoc, List.length_append, List.length_singleton] at room
    obtain ⟨lqueue, queue, pushed, buffered'⟩ := buffered.pushBack (by omega) i
    rw [if_pos unvisited, stored, ok_bind, pushed, ok_bind]
    dsimp only
    rw [spreading.serves.snapshotDegOf inside, ok_bind]
    rw [List.append_assoc] at buffered'
    exact ⟨_, rfl, spreading.serves, _, _, stores', spread', buffered', by simp [scouted, counted]⟩
  · rw [if_neg unvisited]
    exact ⟨s, rfl, spreading.serves, f', fresh, stores, spread.again unvisited p, buffered, counted⟩

theorem Spreading.congr {f : Nat → NodeID} {old : List Nat} {start : Nat} {hit hit' : Nat → Nat → Prop} {s : TopDown W}
    (spreading : Spreading ws A pages f old start hit s) (same : ∀ p j, hit p j ↔ hit' p j) :
    Spreading ws A pages f old start hit' s := by
  obtain ⟨f', fresh, stores, spread, buffered, counted⟩ := spreading.spread
  exact ⟨spreading.serves, f', fresh, stores, spread.congr same, buffered, counted⟩

theorem Spreading.vertex (answers : Answers ws A pages adj) {f : Nat → NodeID} {old : List Nat} (distinct : old.Nodup)
    (visited : ∀ j ∈ old, j < A.ids.length ∧ f j ≠ NodeID.invalid) {start : Nat} {hit : Nat → Nat → Prop}
    {s : TopDown W} (spreading : Spreading ws A pages f old start hit s) {q p : Nat} (here : old[q]? = some p) :
    ∃ s', tdVertex s q = .ok s' ∧ Spreading ws A pages f old start
      (fun q j => hit q j ∨ q = p ∧ ListedEdge adj p j) s' := by
  obtain ⟨f', fresh, stores, spread, buffered, counted⟩ := spreading.spread
  obtain ⟨below, -⟩ := List.getElem?_eq_some_iff.mp here
  have front := (visited p (List.mem_of_getElem? here)).1
  have item : s.queue.shared.get q = .ok p := buffered.item below (by rw [List.getElem?_append_left below, here])
  obtain ⟨g', read, serves'⟩ := answers.byOffset spreading.serves front
  rw [tdVertex, item, ok_bind, read, ok_bind]
  have step (done : List (WeightedEdge W)) (e : WeightedEdge W) (s : TopDown W) (earlier : done ++ [e] <+: adj p)
      (spreading : Spreading ws A pages f old start (fun q j => hit q j ∨ q = p ∧ ∃ e ∈ done, e.idx = (j : Int)) s) :
      ∃ s', tdEdge p s e = .ok s' ∧ Spreading ws A pages f old start
        (fun q j => hit q j ∨ q = p ∧ ∃ e' ∈ done ++ [e], e'.idx = (j : Int)) s' := by
    obtain ⟨i, inside, idx⟩ := answers.closed p e (earlier.subset (by simp))
    obtain ⟨s', ran, spreading'⟩ := spreading.edge answers distinct visited front inside idx
    refine ⟨s', ran, spreading'.congr fun q j => ?_⟩
    have last : (∃ e' ∈ done ++ [e], e'.idx = (j : Int)) ↔ (∃ e' ∈ done, e'.idx = (j : Int)) ∨ j = i := by
      simp only [List.mem_append, List.mem_singleton, or_and_right, exists_or, exists_eq_left, idx]
      rw [Int.natCast_inj, eq_comm (a := i)]
    rw [last, and_or_left, or_assoc]
  exact foldlM_invariant (adj p)
    (fun done s => Spreading ws A pages f old start (fun q j => hit q j ∨ q = p ∧ ∃ e ∈ done, e.idx = (j : Int)) s) step
    ⟨serves', f', fresh, stores, spread.congr (by simp), buffered, counted⟩

theorem mem_drop_iff {pushed : List Nat} {start p : Nat} :
    p ∈ pushed.drop start ↔ ∃ q ∈ List.range' start (pushed.length - start), pushed[q]? = some p := by
  rw [List.mem_iff_getElem?]
  constructor
  · rintro ⟨i, here⟩
    rw [List.getElem?_drop] at here
    have below := (List.getElem?_eq_some_iff.mp here).1
    exact ⟨start + i, by simp; omega, here⟩
  · rintro ⟨q, member, here⟩
    obtain ⟨i, -, rfl⟩ := List.mem_range'.mp member
    exact ⟨i, by rw [List.getElem?_drop]; simpa using here⟩

theorem tdStep_spec (answers : Answers ws A pages adj) (loops : Loops) (t : Nat) {g : RadixGraph W}
    (serves : Serves ws A pages g) {parent : PVector NodeID} {f : Nat → NodeID} (stores : parent.Stores A.ids.length f)
    {queue : SlidingQueue} {pushed : List Nat} {start : Nat} (got : queue.Got A.ids.length pushed start pushed.length)
    (distinct : pushed.Nodup) (visited : ∀ j ∈ pushed, j < A.ids.length ∧ f j ≠ NodeID.invalid) :
    ∃ d f' fresh, tdStep loops t g parent queue = .ok d ∧ Serves ws A pages d.g ∧ d.parent.Stores A.ids.length f' ∧
      d.queue.Got A.ids.length (pushed ++ fresh) start pushed.length ∧ d.scoutCount = scouted pages fresh ∧
      Spread A.ids.length f f' (fun p j => p ∈ pushed.drop start ∧ ListedEdge adj p j) fresh := by
  have window : queue.window = List.range' start (pushed.length - start) := by
    rw [SlidingQueue.window, got.size, got.outStart]
  have perm := loops.order_perm t queue.window
  have step (done : List Nat) (q : Nat) (s : TopDown W) (earlier : done ++ [q] <+: loops.order t queue.window)
      (spreading : Spreading ws A pages f pushed start
        (fun p j => (∃ q ∈ done, pushed[q]? = some p) ∧ ListedEdge adj p j) s) :
      ∃ s', tdVertex s q = .ok s' ∧ Spreading ws A pages f pushed start
        (fun p j => (∃ q' ∈ done ++ [q], pushed[q']? = some p) ∧ ListedEdge adj p j) s' := by
    have member := perm.subset (earlier.subset (by simp : q ∈ done ++ [q]))
    rw [window, List.mem_range'_1] at member
    obtain ⟨p, here⟩ : ∃ p, pushed[q]? = some p := ⟨pushed[q], List.getElem?_eq_getElem (by omega)⟩
    obtain ⟨s', ran, spreading'⟩ := spreading.vertex answers distinct visited here
    refine ⟨s', ran, spreading'.congr fun p' j => ?_⟩
    simp only [List.mem_append, List.mem_singleton, or_and_right, exists_or, exists_eq_left, here, Option.some.injEq]
    constructor
    · rintro (before | ⟨rfl, edge⟩)
      · exact .inl before
      · exact .inr ⟨rfl, edge⟩
    · rintro (before | ⟨rfl, edge⟩)
      · exact .inl before
      · exact .inr ⟨rfl, edge⟩
  have room : pushed.length ≤ A.ids.length := by simpa using ((Spread.start A.ids.length f).room distinct visited).2.1
  have begin : Spreading ws A pages f pushed start
      (fun p j => (∃ q ∈ ([] : List Nat), pushed[q]? = some p) ∧ ListedEdge adj p j)
      { g, parent, queue, lqueue := [], scoutCount := 0 } :=
    ⟨serves, f, [], stores, (Spread.start A.ids.length f).congr (by simp),
      by simpa using Buffered.begin got (Nat.le_refl _) room, rfl⟩
  obtain ⟨s, looped, serves', f', fresh, stores', spread, buffered, counted⟩ := foldlM_invariant _
    (fun done s => Spreading ws A pages f pushed start
      (fun p j => (∃ q ∈ done, pushed[q]? = some p) ∧ ListedEdge adj p j) s) step begin
  obtain ⟨queue', flushed, got'⟩ := buffered.flush
  refine ⟨{ s with queue := queue', lqueue := [] }, f', fresh, by rw [tdStep, looped, ok_bind, flushed, ok_bind],
    serves', stores', got', counted, spread.congr fun p j => and_congr_left' ?_⟩
  rw [mem_drop_iff, ← window]
  exact exists_congr fun q => and_congr_left' perm.mem_iff

/-! ## Between the directions -/

theorem queueToBitmap_spec (loops : Loops) (t : Nat) {n : Nat} {queue : SlidingQueue} {pushed : List Nat} {start : Nat}
    (got : queue.Got n pushed start pushed.length) (room : pushed.length ≤ n) (inside : ∀ j ∈ pushed, j < n)
    {bm : Bitmap} {F : Nat → Bool} (marks : bm.Marks n F) :
    ∃ bm', queueToBitmap loops t queue bm = .ok bm' ∧ bm'.Marks n fun j => F j || j ∈ pushed.drop start := by
  have window : queue.window = List.range' start (pushed.length - start) := by
    rw [SlidingQueue.window, got.size, got.outStart]
  have perm := loops.order_perm t queue.window
  have step (done : List Nat) (q : Nat) (bm : Bitmap) (earlier : done ++ [q] <+: loops.order t queue.window)
      (marks : bm.Marks n fun j => F j || done.any fun q => pushed[q]? = some j) :
      ∃ bm', (do let v ← queue.shared.get q; bm.setBit v) = Except.ok bm' ∧
        bm'.Marks n fun j => F j || (done ++ [q]).any fun q => pushed[q]? = some j := by
    have member := perm.subset (earlier.subset (by simp : q ∈ done ++ [q]))
    rw [window, List.mem_range'_1] at member
    have below : q < pushed.length := by omega
    obtain ⟨bm', marked, marks'⟩ := marks.set (inside pushed[q] (List.getElem_mem below))
    refine ⟨bm', by rw [got.item below room, ok_bind]; exact marked, marks'.congr fun j _ => ?_⟩
    have last : (pushed[q]? = some j) = (j = pushed[q]) := by
      rw [List.getElem?_eq_getElem below, Option.some.injEq]
      exact propext eq_comm
    simp only [List.any_append, List.any_cons, List.any_nil, Bool.or_false, last]
    cases F j <;> simp [Bool.or_comm]
  obtain ⟨bm', looped, marks'⟩ := foldlM_invariant _
    (fun done (bm : Bitmap) => bm.Marks n fun j => F j || done.any fun q => pushed[q]? = some j) step
    (by simpa using marks)
  refine ⟨bm', looped, marks'.congr fun j _ => ?_⟩
  congr 1
  rw [Bool.eq_iff_iff, List.any_eq_true, decide_eq_true_iff, mem_drop_iff, ← window]
  simp only [perm.mem_iff, decide_eq_true_eq]

theorem bitmapToQueue_spec (loops : Loops) (t : Nat) {n : Nat} {queue : SlidingQueue} {pushed : List Nat} {start : Nat}
    (got : queue.Got n pushed start pushed.length) (distinct : pushed.Nodup) {bm : Bitmap} {F : Nat → Bool}
    (marks : bm.Marks n F) (inside : ∀ j ∈ pushed, j < n ∧ ¬ F j) :
    ∃ queue' fresh, bitmapToQueue loops t n bm queue = .ok queue' ∧
      queue'.Got n (pushed ++ fresh) pushed.length (pushed ++ fresh).length ∧ fresh.Nodup ∧
      ∀ j, j ∈ fresh ↔ j < n ∧ F j := by
  have perm := loops.order_perm t (List.range n)
  have order_nodup : (loops.order t (List.range n)).Nodup := perm.nodup_iff.mpr List.nodup_range
  have room (done : List Nat) (earlier : done <+: loops.order t (List.range n)) :
      (pushed ++ done.filter F).length ≤ n := by
    have apart : (pushed ++ done.filter F).Nodup := List.nodup_append.mpr
      ⟨distinct, (order_nodup.sublist earlier.sublist).filter _, fun a member b marked same =>
        (inside a member).2 (same ▸ (List.mem_filter.mp marked).2)⟩
    have within : pushed ++ done.filter F ⊆ List.range n := by
      intro j member
      rcases List.mem_append.mp member with before | now
      · exact List.mem_range.mpr (inside j before).1
      · exact perm.subset (earlier.subset (List.mem_filter.mp now).1)
    simpa using (List.subperm_of_subset apart within).length_le
  have step (done : List Nat) (i : Nat) (s : QueueBuffer × SlidingQueue)
      (earlier : done ++ [i] <+: loops.order t (List.range n))
      (buffered : Buffered s.2 s.1 n (pushed ++ done.filter F) start pushed.length) :
      ∃ s', collect bm s i = .ok s' ∧ Buffered s'.2 s'.1 n (pushed ++ (done ++ [i]).filter F) start pushed.length := by
    have below : i < n := List.mem_range.mp (perm.subset (earlier.subset (by simp)))
    have fits := room _ earlier
    rw [collect, marks.get below, ok_bind]
    rw [List.filter_append, ← List.append_assoc] at fits ⊢
    cases here : F i with
    | true =>
        have single : [i].filter F = [i] := by simp [here]
        rw [single] at fits ⊢
        rw [List.length_append, List.length_singleton] at fits
        obtain ⟨buffer, queue', pushed', buffered'⟩ := buffered.pushBack (by omega) i
        exact ⟨(buffer, queue'), pushed', buffered'⟩
    | false =>
        have none : [i].filter F = [] := by simp [here]
        rw [none, List.append_nil]
        exact ⟨s, rfl, buffered⟩
  have enough : pushed.length ≤ n := by simpa using room [] (List.nil_prefix)
  obtain ⟨⟨buffer, queue'⟩, looped, buffered⟩ := foldlM_invariant _
    (fun done (s : QueueBuffer × SlidingQueue) => Buffered s.2 s.1 n (pushed ++ done.filter F) start pushed.length)
    step (s := ([], queue)) (by simpa using Buffered.begin got (Nat.le_refl _) enough)
  obtain ⟨queue'', flushed, got'⟩ := buffered.flush
  refine ⟨queue''.slideWindow, (loops.order t (List.range n)).filter F, ?_, got'.slideWindow, order_nodup.filter _,
    fun j => ?_⟩
  · rw [bitmapToQueue, looped, ok_bind]
    dsimp only at flushed ⊢
    rw [flushed, ok_bind]
  · rw [List.mem_filter, perm.mem_iff, List.mem_range]

theorem initParent_spec (loops : Loops) (t n : Nat) :
    ∃ parent, initParent loops t n = .ok parent ∧ parent.Stores n fun _ => NodeID.invalid :=
  PVector.init_loop _ (loops.order_perm t (List.range n))

end Radix.Analytics
