import Radix.Graph.Steps

/-!
# The slots that calls write

A call that has written keeps its slot, and no two write the same one: a slot is drawn once while its
version is current, and versions have numbers of their own.
-/

namespace Radix

open Lib Lib.LastWrite

variable {W : Type} [Zero W] [DecidableEq W]

namespace OneVertex

structure Write where
  call : Nat
  version : Nat
  slot : Nat
  cap : Nat
  deriving DecidableEq, Repr

def stores (c : State W) (t : Nat) : Option Write :=
  match c.local' t with
  | .writeSlot p i => c.shared.memory[p]?.map fun arr => ⟨t, p, i, arr.cap⟩
  | _ => none

variable {setting : Setting W} {calls : Nat → Request W} {request : Request W} {pcs : Nat → Pc W}
  {o o' : Origin W} {s s' : Source W} {cur : WeightedEdgeArray W} {first t u : Nat} {pc pc' : Pc W}
  {seen : List Write}

/-! ## The first state -/

theorem initial_sound {v : Vertex W} {snap log : List (WeightedEdge W)} {stamps : Option (List Int)}
    (stored : Stored v.next cur snap log stamps) (recent : cur.snapshotTimestamp ≤ maxTimestamp)
    (dated : ∀ ts, stamps = some ts → ∀ x ∈ ts, x ≤ maxTimestamp) (calls : Nat → Request W)
    (info : GlobalInfo) : Sound calls (initial calls v info).local'
      ⟨v.next.length - 1, (List.range (v.next.length - 1)).reverse, snap, log, stamps, cur.deg, [],
        fun _ => 0⟩
      (initial calls v info).shared cur (v.next.length - 1) := by
  obtain ⟨older, chain, -⟩ := stored.chain
  have length : v.next.length = v.next.length - 1 + 1 := by
    rw [chain]
    rfl
  refine ⟨?_, ?_, ?_, le_rfl, fun p member after => ?_, ?_, fun t => ?_, fun t => ?_⟩
  · change (List.range v.next.length).reverse = _
    rw [length, List.range_succ, List.reverse_append]
    rfl
  · exact List.pairwise_reverse.mpr List.pairwise_lt_range
  · change v.next.reverse[v.next.length - 1]? = some cur
    rw [List.getElem?_reverse (by omega), chain]
    simp
  · rw [List.mem_reverse, List.mem_range] at member
    omega
  · exact layout_of_laid stored.laid stored.size recent dated _ _ fun _ => by simp [maxTimestamp]
  · change (calls t).start.inserting = (calls t).inserting
    cases calls t <;> rfl
  · change Knows _ _ _ _ _ t (calls t).start
    cases calls t <;> trivial

omit [DecidableEq W] in
theorem initial_locks (calls : Nat → Request W) (v : Vertex W) (info : GlobalInfo) :
    Locks (initial calls v info).local' (initial calls v info).shared := by
  have outside (t : Nat) : ((initial calls v info).local' t).locked ≠ true := by
    change (calls t).start.locked ≠ true
    cases calls t <;> simp [Request.start, Pc.locked]
  exact ⟨fun t _ inside => absurd inside (outside t), fun t inside => absurd inside (outside t)⟩

theorem next_unfinished (taken : next setting t request s pc = some (s', pc')) : pc.finished = false := by
  cases pc <;> first | rfl | cases taken

/-! ## What has been written -/

/-- Whether a step is the store to the slot; otherwise a call that has written stays where it is. -/
inductive Storing : Pc W → Pc W → Prop
  | store (p i : Nat) : Storing (.writeSlot p i) (.bumpPhysical p i)
  | finish (p i : Nat) : Storing (.bumpPhysical p i) (.inserted p i)
  | before {pc pc' : Pc W} : pc.written = false → pc'.written = false →
      (∀ p i, pc ≠ .writeSlot p i) → Storing pc pc'

theorem next_storing (taken : next setting t request s pc = some (s', pc')) : Storing pc pc' := by
  cases pc with
  | loadNext | claim | reload | reclaim | allocate =>
      obtain ⟨arr, -, ⟨⟩⟩ := Option.map_eq_some_iff.mp taken
      exact .before rfl rfl (by simp)
  | checkCap | compareNext =>
      obtain ⟨arr, -, ⟨⟩⟩ := Option.map_eq_some_iff.mp taken
      split <;> exact .before rfl rfl (by simp)
  | lock | lockLeave =>
      simp only [next] at taken
      split at taken
      · contradiction
      · cases taken
        exact .before rfl rfl (by simp)
  | waitFull =>
      obtain ⟨arr, -, taken⟩ := Option.bind_eq_some_iff.mp taken
      split at taken
      · cases taken
        exact .before rfl rfl (by simp)
      · contradiction
  | compact | copySnapshot | clear =>
      obtain ⟨arr, -, taken⟩ := Option.bind_eq_some_iff.mp taken
      obtain ⟨x, -, ⟨⟩⟩ := Option.map_eq_some_iff.mp taken
      exact .before rfl rfl (by simp)
  | writeSlot p i =>
      obtain ⟨arr, -, taken⟩ := Option.bind_eq_some_iff.mp taken
      obtain ⟨x, -, ⟨⟩⟩ := Option.map_eq_some_iff.mp taken
      exact .store p i
  | bumpPhysical p i =>
      cases taken
      exact .finish p i
  | publish | bumpDeg | retire | leave | unlock | unlockRead | unlockNone | unlockLeave =>
      cases taken
      exact .before rfl rfl (by simp)
  | drawStamp =>
      obtain ⟨arr, -, taken⟩ := Option.map_eq_some_iff.mp taken
      split at taken
      all_goals
        cases taken
        exact .before rfl rfl (by simp)
  | storeStamp =>
      obtain ⟨arr, -, taken⟩ := Option.bind_eq_some_iff.mp taken
      split at taken
      · contradiction
      · obtain ⟨x, -, ⟨⟩⟩ := Option.map_eq_some_iff.mp taken
        exact .before rfl rfl (by simp)
  | enter =>
      simp only [next] at taken
      split at taken
      · cases taken
        exact .before rfl rfl (by simp)
      · contradiction
  | select =>
      simp only [next] at taken
      split at taken
      all_goals
        cases taken
        exact .before rfl rfl (by simp)
  | loadCount =>
      obtain ⟨arr, -, ⟨⟩⟩ := Option.map_eq_some_iff.mp taken
      split
      · split <;> exact .before rfl rfl (by simp)
      · exact .before rfl rfl (by simp)
  | cut =>
      obtain ⟨arr, -, taken⟩ := Option.bind_eq_some_iff.mp taken
      obtain ⟨stamp, -, taken⟩ := Option.bind_eq_some_iff.mp taken
      split at taken
      · cases taken
        exact .before rfl rfl (by simp)
      · split at taken
        · obtain ⟨x, -, ⟨⟩⟩ := Option.map_eq_some_iff.mp taken
          exact .before rfl rfl (by simp)
        · cases taken
          exact .before rfl rfl (by simp)
  | scan p cnt i =>
      cases i with
      | zero =>
          cases taken
          exact .before rfl rfl (by simp)
      | succ i =>
          obtain ⟨arr, -, taken⟩ := Option.bind_eq_some_iff.mp taken
          obtain ⟨pc, scanned, ⟨⟩⟩ := Option.map_eq_some_iff.mp taken
          obtain ⟨j, r', n', m', rfl⟩ := scanSlot_scan (toOption_eq_some.mp scanned)
          exact .before rfl rfl (by simp)
  | inserted | returned => contradiction

theorem Sound.written_slot (sound : Sound calls pcs o s cur first) (written : (pcs t).written = true)
    {p i : Nat} (place : (pcs t).place = some (p, i)) : p < o.head ∨ InSlot o t p i := by
  have known := sound.knows t
  cases here : pcs t <;> rw [here] at written place known
  case bumpPhysical => cases place; exact .inr known
  case inserted => cases place; exact known
  all_goals cases written

structure Recorded (pcs : Nat → Pc W) (seen : List Write) : Prop where
  owned : ∀ w ∈ seen, (pcs w.call).written = true ∧ (pcs w.call).place = some (w.version, w.slot) ∧
    w.slot < w.cap
  once : ∀ t, (pcs t).written = true → ∃ w, seen.filter (·.call = t) = [w]
  apart : seen.Pairwise fun w w' => ¬ (w.version = w'.version ∧ w.slot = w'.slot)

omit [DecidableEq W] in
theorem Recorded.unwritten (recorded : Recorded pcs seen) (still : (pcs t).written = false) :
    seen.filter (·.call = t) = [] := by
  rw [List.filter_eq_nil_iff]
  intro w member same
  have written := (recorded.owned w member).1
  rw [of_decide_eq_true same, still] at written
  cases written

omit [DecidableEq W] in
theorem Recorded.move (recorded : Recorded pcs seen) (written : pc'.written = (pcs t).written)
    (place : (pcs t).written = true → pc'.place = (pcs t).place) :
    Recorded (Function.update pcs t pc') seen where
  owned w member := by
    obtain ⟨wrote, there, below⟩ := recorded.owned w member
    by_cases here : w.call = t
    · rw [here] at wrote there
      rw [here, Function.update_self]
      exact ⟨written.trans wrote, (place wrote).trans there, below⟩
    · rw [Function.update_of_ne here]
      exact ⟨wrote, there, below⟩
  once u wrote := by
    apply recorded.once u
    by_cases here : u = t
    · subst here
      rwa [Function.update_self, written] at wrote
    · rwa [Function.update_of_ne here] at wrote
  apart := recorded.apart

theorem Recorded.store (sound : Sound calls pcs o s cur first) (recorded : Recorded pcs seen) {p i : Nat}
    (here : pcs t = .writeSlot p i) :
    Recorded (Function.update pcs t (.bumpPhysical p i)) (seen ++ [⟨t, p, i, cur.cap⟩]) ∧ p = o.head := by
  have slot := sound.knows t
  rw [here] at slot
  obtain ⟨rfl, k, at_k, rfl⟩ := slot
  have unwritten : (pcs t).written = false := by
    rw [here]
    rfl
  have others (w : Write) (member : w ∈ seen) : w.call ≠ t := by
    intro same
    have wrote := (recorded.owned w member).1
    rw [same, unwritten] at wrote
    cases wrote
  refine ⟨⟨fun w member => ?_, fun u wrote => ?_, ?_⟩, rfl⟩
  · cases List.mem_append.mp member with
    | inl old =>
        rw [Function.update_of_ne (others w old)]
        exact recorded.owned w old
    | inr new =>
        rw [List.mem_singleton.mp new, Function.update_self]
        exact ⟨rfl, rfl, (sound.layout.claimed_lt at_k).2⟩
  · rw [List.filter_append]
    by_cases same : u = t
    · subst same
      exact ⟨⟨u, o.head, o.base + k, cur.cap⟩, by simp [recorded.unwritten unwritten]⟩
    · rw [Function.update_of_ne same] at wrote
      obtain ⟨w, single⟩ := recorded.once u wrote
      exact ⟨w, by simp [single, Ne.symm same]⟩
  · refine List.pairwise_append.mpr ⟨recorded.apart, List.pairwise_singleton _ _, fun w member w' new => ?_⟩
    rw [List.mem_singleton.mp new]
    rintro ⟨version, same⟩
    obtain ⟨wrote, place, -⟩ := recorded.owned w member
    cases sound.written_slot wrote place with
    | inl older => exact older.ne version
    | inr owns =>
        -- two calls in one slot of the current version would be the same call
        obtain ⟨-, j, at_j, slot⟩ := owns
        obtain rfl : j = k := Nat.add_left_cancel (slot.symm.trans same)
        exact others w member (Option.some.inj (at_j.symm.trans at_k))

theorem Recorded.step (sound : Sound calls pcs o s cur first) (recorded : Recorded pcs seen)
    (storing : Storing (pcs t) pc') :
    Recorded (Function.update pcs t pc') (seen ++ (stores ⟨s, pcs⟩ t).toList) := by
  generalize here : pcs t = pc at storing
  cases storing with
  | store p i =>
      obtain ⟨recorded', rfl⟩ := recorded.store sound here
      have shown : stores ⟨s, pcs⟩ t = some ⟨t, o.head, i, cur.cap⟩ := by
        simp only [stores, here, sound.current, Option.map_some]
      rwa [shown]
  | finish p i =>
      have shown : stores ⟨s, pcs⟩ t = none := by simp only [stores, here]
      rw [shown, Option.toList_none, List.append_nil]
      exact recorded.move (by rw [here]; rfl) fun _ => by rw [here]; rfl
  | before still after other =>
      have shown : stores ⟨s, pcs⟩ t = none := by
        simp only [stores]
        split
        · rename_i p i at_t
          exact absurd (here.symm.trans at_t) (other p i)
        · rfl
      rw [shown, Option.toList_none, List.append_nil]
      exact recorded.move (by rw [here, still, after]) fun wrote => by
        rw [here, still] at wrote
        cases wrote

/-! ## The order of slots -/

def Precedes (p i q j : Nat) : Prop := p < q ∨ p = q ∧ i < j

structure After (p i u : Nat) (pcs : Nat → Pc W) (o : Origin W) : Prop where
  drawn : Precedes p i o.head (o.base + o.claims.length)
  owned : ∀ q j, InSlot o u q j → Precedes p i q j
  returned : ∀ q j, pcs u = .inserted q j → Precedes p i q j

theorem Sound.after (sound : Sound calls pcs o s cur first) {p i : Nat} (returned : pcs t = .inserted p i)
    (unbegun : (pcs u).place = none) : After p i u pcs o where
  drawn := by
    have slot := sound.written_slot (t := t) (by rw [returned]; rfl) (by rw [returned]; rfl)
    cases slot with
    | inl older => exact .inl older
    | inr owns =>
        obtain ⟨rfl, k, at_k, rfl⟩ := owns
        have inside := (List.getElem?_eq_some_iff.mp at_k).1
        exact .inr ⟨rfl, by omega⟩
  owned q j slot := by
    obtain ⟨-, k, at_k, -⟩ := slot
    exact absurd (List.mem_of_getElem? at_k) (sound.not_claimed unbegun)
  returned q j there := by
    rw [there] at unbegun
    cases unbegun

theorem After.step {p i : Nat} (after : After p i u pcs o) (sound : Sound calls pcs o s cur first)
    (storing : Storing (pcs t) pc') (evolves : Evolves calls t o cur o') :
    After p i u (Function.update pcs t pc') o' := by
  have returned (q j : Nat) (there : Function.update pcs t pc' u = .inserted q j) : Precedes p i q j := by
    by_cases here : u = t
    · subst here
      rw [Function.update_self] at there
      subst there
      generalize at_u : pcs u = pc at storing
      cases storing with
      | finish =>
          have slot := sound.knows u
          rw [at_u] at slot
          exact after.owned q j slot
      | before _ wrote => cases wrote
    · rw [Function.update_of_ne here] at there
      exact after.returned q j there
  cases evolves with
  | same head snap log _ claims =>
      have base : o'.base = o.base := by rw [Origin.base, snap, log, Origin.base]
      refine ⟨?_, fun q j slot => ?_, returned⟩
      · rw [head, base, claims]
        exact after.drawn
      · rw [InSlot, head, claims, base] at slot
        exact after.owned q j slot
  | drawn head snap log _ claims _ =>
      have base : o'.base = o.base := by rw [Origin.base, snap, log, Origin.base]
      refine ⟨?_, fun q j slot => ?_, returned⟩
      · rw [head, base, claims, List.length_append, List.length_singleton]
        exact after.drawn.imp_right fun below => ⟨below.1, by omega⟩
      · rw [InSlot, head, claims, base] at slot
        obtain ⟨rfl, k, at_k, rfl⟩ := slot
        by_cases old : k < o.claims.length
        · rw [List.getElem?_append_left old] at at_k
          exact after.owned _ _ ⟨rfl, k, at_k, rfl⟩
        · exact after.drawn.imp_right fun below => ⟨below.1, by omega⟩
  | replaced later _ _ _ _ none =>
      refine ⟨.inl ?_, fun q j slot => ?_, returned⟩
      · rcases after.drawn with older | ⟨same, -⟩
        · exact older.trans later
        · rwa [same]
      · obtain ⟨-, k, at_k, -⟩ := slot
        rw [none] at at_k
        cases at_k

/-! ## What the array gathers -/

structure Filled (pcs : Nat → Pc W) (o : Origin W) (drawn : List Nat) : Prop where
  nodup : drawn.Nodup
  claimed : ∀ t ∈ o.claims, t ∈ drawn
  open_or_done : ∀ t ∈ drawn, t ∈ o.claims ∨ (pcs t).finished = true
  done : ∀ t, (pcs t).finished = true → t ∈ drawn

structure Gathers (calls : Nat → Request W) (o : Origin W) (entries : List (WeightedEdge W)) : Prop where
  alive : ∀ e ∈ o.snap, e.live
  scanned : (scan WeightedEdge.idx WeightedEdge.live o.snap (o.entries calls)).Perm entries
  copied : (o.base + o.claims.length : Int) = o.deg + (o.claims.map fun t => (calls t).deltaDeg).sum →
    (o.snap ++ o.entries calls).Perm entries

theorem Gathers.congr {entries : List (WeightedEdge W)} (gathers : Gathers calls o entries)
    (snap : o'.snap = o.snap) (log : o'.log = o.log) (deg : o'.deg = o.deg) (claims : o'.claims = o.claims) :
    Gathers calls o' entries := by
  constructor
  · exact snap ▸ gathers.alive
  · rw [Origin.entries, snap, log, claims]
    exact gathers.scanned
  · rw [Origin.entries, Origin.base, snap, log, claims, deg]
    exact gathers.copied

theorem Gathers.draw {entries : List (WeightedEdge W)} (gathers : Gathers calls o entries)
    (snap : o'.snap = o.snap) (log : o'.log = o.log) (deg : o'.deg = o.deg)
    (claims : o'.claims = o.claims ++ [t]) (alive : (calls t).entry.live)
    (fresh : (calls t).entry.idx ∉ entries.map WeightedEdge.idx) (one : (calls t).deltaDeg = 1) :
    Gathers calls o' (entries ++ [(calls t).entry]) := by
  have longer : o'.entries calls = o.entries calls ++ [(calls t).entry] := by
    rw [Origin.entries, Origin.entries, log, claims, List.map_append, List.append_assoc]
    rfl
  constructor
  · exact snap ▸ gathers.alive
  · rw [longer, snap, scan_snoc, if_pos alive]
    have kept : (scan WeightedEdge.idx WeightedEdge.live o.snap (o.entries calls)).filter
        (fun d => d.idx ≠ (calls t).entry.idx) =
          scan WeightedEdge.idx WeightedEdge.live o.snap (o.entries calls) := by
      rw [List.filter_eq_self]
      intro d member
      have inside := List.mem_map_of_mem (f := WeightedEdge.idx) (gathers.scanned.mem_iff.mp member)
      simpa using fun (same : d.idx = (calls t).entry.idx) => fresh (same ▸ inside)
    rw [kept]
    exact (gathers.scanned.cons _).trans (List.perm_append_singleton _ _).symm
  · intro all
    rw [longer, snap, ← List.append_assoc]
    refine (gathers.copied ?_).append_right _
    rw [claims, deg, Origin.base, snap, log, List.length_append, List.map_append, List.sum_append] at all
    simp only [List.length_singleton, List.map_cons, List.map_nil, List.sum_cons, List.sum_nil, one] at all
    rw [Origin.base]
    push_cast at all ⊢
    omega

theorem Gathers.compact {entries : List (WeightedEdge W)} (gathers : Gathers calls o entries)
    (layout : Layout calls pcs o cur) (full : Full cur)
    (snap : o'.snap = compacted cur o.snap (o.entries calls)) (log : o'.log = [])
    (claims : o'.claims = []) : Gathers calls o' entries := by
  have done := (layout.full full).2.2
  have laid := layout.laid done
  have deg := layout.deg_of_finished done
  have same : o'.snap.Perm entries := by
    rw [snap, compacted]
    split
    · rename_i all
      refine gathers.copied ?_
      rw [← deg, ← all, laid.physicalSize, Origin.base, Origin.entries]
      simp
      omega
    · exact gathers.scanned
  have none : o'.entries calls = [] := by
    rw [Origin.entries, log, claims]
    rfl
  have alive (e : WeightedEdge W) (member : e ∈ o'.snap) : e.live :=
    scan_live (gathers.scanned.mem_iff.mpr (same.mem_iff.mp member))
  constructor
  · exact alive
  · rw [none]
    refine .trans ?_ same
    have kept : o'.snap.reverse.filter (fun e => e.live) = o'.snap.reverse :=
      List.filter_eq_self.mpr fun e member => alive e (List.mem_reverse.mp member)
    simp [scan, survivors, kept]
  · intro _
    rwa [none, List.append_nil]

theorem finished_move (sound : Sound calls pcs o s cur first) (storing : Storing (pcs t) pc')
    (done : (Function.update pcs t pc' u).finished = true) : (pcs u).finished = true ∨ u ∈ o.claims := by
  by_cases here : u = t
  · subst here
    rw [Function.update_self] at done
    generalize at_u : pcs u = pc at storing
    cases storing with
    | store => cases done
    | finish =>
        have slot := sound.knows u
        rw [at_u] at slot
        obtain ⟨-, k, at_k, -⟩ := slot
        exact .inr (List.mem_of_getElem? at_k)
    | before _ still =>
        rw [(Layout.stamped_of_finished done).2.2] at still
        cases still
  · rw [Function.update_of_ne here] at done
    exact .inl done

theorem Filled.step {drawn : List Nat} (filled : Filled pcs o drawn) (sound : Sound calls pcs o s cur first)
    (unfinished : (pcs t).finished = false) (storing : Storing (pcs t) pc')
    (evolves : Evolves calls t o cur o') : Filled (Function.update pcs t pc') o'
      (if t ∈ o'.claims ∧ t ∉ o.claims then drawn ++ [t] else drawn) := by
  have done (u : Nat) (finished : (Function.update pcs t pc' u).finished = true) : u ∈ drawn :=
    (finished_move sound storing finished).elim (filled.done u) (filled.claimed u)
  have still (u : Nat) (finished : (pcs u).finished = true) :
      (Function.update pcs t pc' u).finished = true := by
    have other : u ≠ t := by
      rintro rfl
      rw [unfinished] at finished
      cases finished
    rwa [Function.update_of_ne other]
  cases evolves with
  | same _ _ _ _ claims =>
      rw [if_neg fun new => new.2 (claims ▸ new.1)]
      exact ⟨filled.nodup, claims ▸ filled.claimed,
        fun u member => claims ▸ (filled.open_or_done u member).imp_right (still u), done⟩
  | drawn _ _ _ _ claims fresh =>
      rw [if_pos ⟨by simp [claims], fresh⟩]
      have undrawn : t ∉ drawn := by
        intro member
        cases filled.open_or_done t member with
        | inl inside => exact fresh inside
        | inr finished =>
            rw [unfinished] at finished
            cases finished
      refine ⟨?_, fun u member => ?_, fun u member => ?_, fun u finished => ?_⟩
      · exact List.nodup_append.mpr ⟨filled.nodup, List.nodup_singleton t, by
          rintro u inside _ new rfl
          exact undrawn (List.mem_singleton.mp new ▸ inside)⟩
      · rw [claims] at member
        exact List.mem_append.mpr ((List.mem_append.mp member).imp_left (filled.claimed u))
      · rw [claims]
        cases List.mem_append.mp member with
        | inl old =>
            exact (filled.open_or_done u old).imp (List.mem_append_left _) (still u)
        | inr new => exact .inl (List.mem_append_right _ new)
      · exact List.mem_append_left _ (done u finished)
  | replaced _ full _ _ _ none =>
      rw [if_neg fun new => by
        rw [none] at new
        cases new.1]
      refine ⟨filled.nodup, fun u member => ?_, fun u member => .inr (still u ?_), done⟩
      · rw [none] at member
        cases member
      · exact (filled.open_or_done u member).elim ((sound.layout.full full).2.2 u) id

theorem Gathers.step {entries : List (WeightedEdge W)} (gathers : Gathers calls o entries)
    (layout : Layout calls pcs o cur) (evolves : Evolves calls t o cur o')
    (new : t ∈ o'.claims → t ∉ o.claims → (calls t).entry.live ∧
      (calls t).entry.idx ∉ entries.map WeightedEdge.idx ∧ (calls t).deltaDeg = 1) :
    Gathers calls o' (if t ∈ o'.claims ∧ t ∉ o.claims then entries ++ [(calls t).entry] else entries) := by
  cases evolves with
  | same _ snap log deg claims =>
      rw [if_neg fun new => new.2 (claims ▸ new.1)]
      exact gathers.congr snap log deg claims
  | drawn _ snap log deg claims fresh =>
      have inside : t ∈ o'.claims := by simp [claims]
      obtain ⟨alive, absent, one⟩ := new inside fresh
      rw [if_pos ⟨inside, fresh⟩]
      exact gathers.draw snap log deg claims alive absent one
  | replaced _ full snap log _ none =>
      rw [if_neg fun new => by
        rw [none] at new
        cases new.1]
      exact gathers.compact layout full snap log none

end OneVertex

end Radix
