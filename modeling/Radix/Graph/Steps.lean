import Radix.Graph.Claims

/-!
# Steps of calls on one vertex

What one call knows is untouched by the steps of others, as long as no version is deleted that it
still uses: slots are drawn once, an array in use is not full, and the version changes under the lock.
-/

namespace Radix

open Lib

variable {W : Type} [Zero W] [DecidableEq W]

namespace OneVertex

variable {setting : Setting W} {calls : Nat → Request W} {pcs : Nat → Pc W} {o o' : Origin W}
  {s s' : Source W} {cur cur' : WeightedEdgeArray W} {first t u : Nat} {pc pc' : Pc W}

def Keeps (s s' : Source W) (p : Nat) : Prop :=
  ∀ arr, s.memory[p]? = some arr → ∃ arr', s'.memory[p]? = some arr' ∧ arr'.cap = arr.cap ∧
    arr.size ≤ arr'.size

omit [DecidableEq W] in
theorem Keeps.beyond {p i : Nat} (keeps : Keeps s s' p) (beyond : Beyond s p i) : Beyond s' p i := by
  obtain ⟨arr, there, below⟩ := beyond
  obtain ⟨arr', there', cap, -⟩ := keeps arr there
  exact ⟨arr', there', cap ▸ below⟩

omit [DecidableEq W] in
theorem modify_at {p : Nat} {change : WeightedEdgeArray W → WeightedEdgeArray W}
    {arr : WeightedEdgeArray W} (there : s.memory[p]? = some arr) :
    (s.modify p change).memory[p]? = some (change arr) := by
  simp [Source.modify, there]

omit [DecidableEq W] in
theorem modify_other {p q : Nat} (other : p ≠ q) (change : WeightedEdgeArray W → WeightedEdgeArray W) :
    (s.modify p change).memory[q]? = s.memory[q]? := by
  simp [Source.modify, other]

omit [DecidableEq W] in
theorem modify_keeps (p : Nat) (change : WeightedEdgeArray W → WeightedEdgeArray W)
    (keeps : ∀ arr, s.memory[p]? = some arr → (change arr).cap = arr.cap ∧ arr.size ≤ (change arr).size)
    (q : Nat) : Keeps s (s.modify p change) q := by
  intro arr there
  by_cases here : p = q
  · subst here
    exact ⟨change arr, modify_at there, keeps arr there⟩
  · exact ⟨arr, (modify_other here change).trans there, rfl, le_rfl⟩

structure Frame (calls : Nat → Request W) (o : Origin W) (s : Source W) (cur : WeightedEdgeArray W)
    (o' : Origin W) (s' : Source W) (cur' : WeightedEdgeArray W) : Prop where
  head : o'.head = o.head
  older : o'.older = o.older
  base : o'.base = o.base
  claims : ∀ (k u : Nat), o.claims[k]? = some u → o'.claims[k]? = some u
  chain : s'.chain = s.chain
  keeps : ∀ p, Keeps s s' p
  full : Full cur → o'.snap = o.snap ∧ o'.entries calls = o.entries calls ∧ cur'.cap = cur.cap ∧
    cur'.physicalSize = cur.physicalSize ∧ cur'.deg = cur.deg

omit [DecidableEq W] in
theorem Frame.inSlot (frame : Frame calls o s cur o' s' cur') {p i : Nat} (slot : InSlot o u p i) :
    InSlot o' u p i := by
  obtain ⟨here, k, at_k, place⟩ := slot
  exact ⟨here.trans frame.head.symm, k, frame.claims k u at_k, frame.base ▸ place⟩

omit [DecidableEq W] in
theorem Frame.still_full (frame : Frame calls o s cur o' s' cur') (full : Full cur) : Full cur' := by
  obtain ⟨-, -, cap, physicalSize, -⟩ := frame.full full
  exact physicalSize.trans (full.trans cap.symm)

theorem Frame.compacted (frame : Frame calls o s cur o' s' cur') (full : Full cur)
    {newArray : WeightedEdgeArray W} (compacted : Compacted calls o cur newArray) :
    Compacted calls o' cur' newArray := by
  obtain ⟨snap, entries, -, physicalSize, deg⟩ := frame.full full
  obtain ⟨stamps, laid⟩ := compacted.laid
  refine ⟨⟨stamps, ?_⟩, compacted.size, compacted.deg, compacted.threadsRead,
    compacted.snapshotTimestamp⟩
  rw [snap, entries]
  unfold Radix.compacted at laid ⊢
  rwa [physicalSize, deg]

theorem Frame.knows (frame : Frame calls o s cur o' s' cur') (before : Knows calls o s cur first u pc) :
    Knows calls o' s' cur' first u pc := by
  have chain := frame.chain
  have head := frame.head
  cases pc with
  | claim p => exact ⟨before.1, chain ▸ before.2⟩
  | checkCap p i =>
      exact ⟨chain ▸ before.1, before.2.imp frame.inSlot (frame.keeps p).beyond⟩
  | unlock p i => exact ⟨before.1.trans head.symm, before.2.imp frame.inSlot (frame.keeps p).beyond⟩
  | waitFull | reclaim =>
      unfold Knows at before ⊢
      rwa [head]
  | allocate p => exact ⟨before.1.trans head.symm, frame.still_full before.2⟩
  | compact p newArray =>
      obtain ⟨here, full, m, new, room⟩ := before
      obtain ⟨-, -, -, physicalSize, deg⟩ := frame.full full
      refine ⟨here.trans head.symm, frame.still_full full, m, new, ?_⟩
      rwa [physicalSize, deg]
  | publish p newArray =>
      obtain ⟨here, full, compacted⟩ := before
      exact ⟨here.trans head.symm, frame.still_full full, frame.compacted full compacted⟩
  | retire p =>
      unfold Knows at before ⊢
      rwa [frame.older]
  | storeStamp => exact ⟨frame.inSlot before.1, before.2⟩
  | drawStamp | bumpDeg | writeSlot | bumpPhysical => exact frame.inSlot before
  | inserted p i =>
      unfold Knows at before ⊢
      rw [head]
      exact before.imp_right frame.inSlot
  | loadNext | lock | compareNext | reload | enter | select | unlockRead | unlockNone | loadCount |
    copySnapshot | cut | scan | clear | lockLeave | leave | unlockLeave | returned => trivial

theorem Sound.allocated (sound : Sound calls pcs o s cur first) : o.head < s.memory.length :=
  (List.getElem?_eq_some_iff.mp sound.current).1

theorem Sound.of_frame (sound : Sound calls pcs o s cur first) (frame : Frame calls o s cur o' s' cur')
    (current : s'.memory[o.head]? = some cur') (layout : Layout calls (Function.update pcs t pc') o' cur')
    (kind : pc'.inserting = (pcs t).inserting) (knows : Knows calls o' s' cur' first t pc') :
    Sound calls (Function.update pcs t pc') o' s' cur' first where
  chain := by rw [frame.chain, frame.head, frame.older, sound.chain]
  sorted := frame.chain ▸ sound.sorted
  current := frame.head.symm ▸ current
  begun := frame.head.symm ▸ sound.begun
  closed p older after := by
    rw [frame.older] at older
    obtain ⟨arr, there, full⟩ := sound.closed p older after
    obtain ⟨arr', there', cap, size⟩ := frame.keeps p arr there
    exact ⟨arr', there', cap ▸ full.trans size⟩
  layout := layout
  kinds u := by
    by_cases here : u = t
    · subst here
      rw [Function.update_self, kind, sound.kinds]
    · rw [Function.update_of_ne here, sound.kinds]
  knows u := by
    by_cases here : u = t
    · subst here
      rwa [Function.update_self]
    · rw [Function.update_of_ne here]
      exact frame.knows (sound.knows u)

omit [DecidableEq W] in
theorem Frame.quiet (memory : s'.memory = s.memory) (chain : s'.chain = s.chain) :
    Frame calls o s cur o s' cur where
  head := rfl
  older := rfl
  base := rfl
  claims _ _ there := there
  chain := chain
  keeps _ arr there := ⟨arr, memory ▸ there, rfl, le_rfl⟩
  full _ := ⟨rfl, rfl, rfl, rfl, rfl⟩

theorem Sound.quiet (sound : Sound calls pcs o s cur first) (memory : s'.memory = s.memory)
    (chain : s'.chain = s.chain) (kind : pc'.inserting = (pcs t).inserting)
    (unmoved : t ∈ o.claims → Unmoved o (pcs t) pc') (knows : Knows calls o s cur first t pc') :
    Sound calls (Function.update pcs t pc') o s' cur first := by
  have frame : Frame calls o s cur o s' cur := .quiet memory chain
  exact sound.of_frame frame (memory ▸ sound.current) (sound.layout.move unmoved) kind
    (frame.knows knows)

/-! ## Drawing a slot -/

inductive Evolves (calls : Nat → Request W) (t : Nat) (o : Origin W) (cur : WeightedEdgeArray W)
    (o' : Origin W) : Prop
  | same : o'.head = o.head → o'.snap = o.snap → o'.log = o.log → o'.deg = o.deg →
      o'.claims = o.claims → Evolves ..
  | drawn : o'.head = o.head → o'.snap = o.snap → o'.log = o.log → o'.deg = o.deg →
      o'.claims = o.claims ++ [t] → t ∉ o.claims → Evolves ..
  | replaced : o.head < o'.head → Full cur → o'.snap = compacted cur o.snap (o.entries calls) →
      o'.log = [] → o'.deg = o'.snap.length → o'.claims = [] → Evolves ..

def Arrives (calls : Nat → Request W) (pcs : Nat → Pc W) (first t : Nat) (o : Origin W)
    (cur : WeightedEdgeArray W) (s' : Source W) (pc' : Pc W) : Prop :=
  ∃ o' cur', Sound calls (Function.update pcs t pc') o' s' cur' first ∧ Evolves calls t o cur o'

theorem Sound.arrives (sound : Sound calls (Function.update pcs t pc') o s' cur' first) :
    Arrives calls pcs first t o cur s' pc' := ⟨o, cur', sound, .same rfl rfl rfl rfl rfl⟩

theorem Sound.not_claimed (sound : Sound calls pcs o s cur first) (nowhere : (pcs t).place = none) :
    t ∉ o.claims := by
  intro member
  obtain ⟨k, at_k⟩ := List.mem_iff_getElem?.mp member
  have placed := sound.layout.placed k t at_k
  rw [nowhere] at placed
  cases placed

theorem Sound.mem_chain (sound : Sound calls pcs o s cur first) {p : Nat} (member : p ∈ s.chain) :
    p = o.head ∨ p ∈ o.older := by
  rw [sound.chain] at member
  exact List.mem_cons.mp member

/-- `next->size.fetch_add(1)`: a slot of the current version, or none where the version is full. -/
theorem claim_arrives (sound : Sound calls pcs o s cur first) {p : Nat}
    {arr : WeightedEdgeArray W} (there : s.memory[p]? = some arr) (member : p ∈ s.chain)
    (after : first ≤ p) (nonneg : 0 ≤ (calls t).entry.idx) (nowhere : (pcs t).place = none)
    (place : pc'.place = some (p, arr.size)) (kind : pc'.inserting = (pcs t).inserting)
    (unwritten : pc'.written = false) (unstamped : pc'.stamped = false)
    (uncounted : pc'.counted = false) (unfinished : pc'.finished = false)
    (knows : ∀ o', o'.head = o.head → InSlot o' t p arr.size ∨ Beyond (s.modify p .claim) p arr.size →
      Knows calls o' (s.modify p .claim) cur first t pc' ∧
        Knows calls o' (s.modify p .claim) cur.claim first t pc') :
    Arrives calls pcs first t o cur (s.modify p .claim) pc' := by
  have fresh := sound.not_claimed nowhere
  have keeps := modify_keeps (s := s) p .claim fun arr _ => ⟨rfl, Nat.le_succ arr.size⟩
  have beyond (full : arr.cap ≤ arr.size) : Beyond (s.modify p .claim) p arr.size :=
    ⟨arr.claim, modify_at there, full⟩
  by_cases here : p = o.head
  · subst here
    obtain rfl : arr = cur := Option.some.inj (there.symm.trans sound.current)
    by_cases room : arr.size < arr.cap
    · have layout := sound.layout.claim room fresh nonneg place unwritten unstamped uncounted
        unfinished
      obtain ⟨size, -⟩ := sound.layout.free_slots room
      have frame : Frame calls o s arr { o with claims := o.claims ++ [t] }
          (s.modify o.head .claim) arr.claim := by
        refine ⟨rfl, rfl, rfl, fun k u at_k => ?_, rfl, keeps, fun full => ?_⟩
        · rw [List.getElem?_append_left (List.getElem?_eq_some_iff.mp at_k).1, at_k]
        · exact absurd (sound.layout.full full).2.1 (Nat.not_le.mpr room)
      have slot : InSlot { o with claims := o.claims ++ [t] } t o.head arr.size :=
        ⟨rfl, o.claims.length, by simp, size⟩
      have knows' := (knows { o with claims := o.claims ++ [t] } rfl (.inl slot)).2
      exact ⟨_, _, sound.of_frame frame (modify_at there) layout kind knows',
        .drawn rfl rfl rfl rfl rfl fresh⟩
    · have same : Alike arr arr.claim := by
        refine ⟨rfl, ?_, rfl, rfl, rfl, rfl, rfl, rfl⟩
        change min (arr.size + 1) arr.cap = min arr.size arr.cap
        omega
      have frame : Frame calls o s arr o (s.modify o.head .claim) arr.claim :=
        ⟨rfl, rfl, rfl, fun _ _ at_k => at_k, rfl, keeps, fun _ => ⟨rfl, rfl, rfl, rfl, rfl⟩⟩
      have moved : Layout calls (Function.update pcs t pc') o arr :=
        sound.layout.move fun inside => absurd inside fresh
      have layout := moved.alike same
      exact (sound.of_frame frame (modify_at there) layout kind
        (knows o rfl (.inr (beyond (Nat.not_lt.mp room)))).2).arrives
  · have older := (sound.mem_chain member).resolve_left here
    obtain ⟨arr', there', full⟩ := sound.closed p older after
    obtain rfl : arr = arr' := Option.some.inj (there.symm.trans there')
    have frame : Frame calls o s cur o (s.modify p .claim) cur :=
      ⟨rfl, rfl, rfl, fun _ _ at_k => at_k, rfl, keeps, fun _ => ⟨rfl, rfl, rfl, rfl, rfl⟩⟩
    have layout : Layout calls (Function.update pcs t pc') o cur :=
      sound.layout.move fun inside => absurd inside fresh
    exact (sound.of_frame frame ((modify_other here _).trans sound.current) layout kind
      (knows o rfl (.inr (beyond full))).1).arrives

/-! ## Storing the entry -/

theorem store_arrives (sound : Sound calls pcs o s cur first) {p i : Nat} (slot : InSlot o t p i)
    (unfinished : (pcs t).finished = false) (stamp : Nat → Int)
    (change : WeightedEdgeArray W → WeightedEdgeArray W) (cap : (change cur).cap = cur.cap)
    (size : (change cur).size = cur.size) (kind : pc'.inserting = (pcs t).inserting)
    (layout : Layout calls (Function.update pcs t pc') { o with stamp := stamp } (change cur))
    (knows : InSlot { o with stamp := stamp } t p i →
      Knows calls { o with stamp := stamp } (s.modify p change) (change cur) first t pc') :
    Arrives calls pcs first t o cur (s.modify p change) pc' := by
  obtain ⟨rfl, k, at_k, rfl⟩ := slot
  have keeps := modify_keeps o.head change fun arr there => by
    obtain rfl : cur = arr := Option.some.inj (sound.current.symm.trans there)
    exact ⟨cap, size.ge⟩
  have frame : Frame calls o s cur { o with stamp := stamp } (s.modify o.head change) (change cur) := by
    refine ⟨rfl, rfl, rfl, fun _ _ there => there, rfl, keeps, fun full => ?_⟩
    have finished := (sound.layout.full full).2.2 t (List.mem_of_getElem? at_k)
    rw [unfinished] at finished
    cases finished
  exact ⟨_, _, sound.of_frame frame (modify_at sound.current) layout kind
    (knows ⟨rfl, k, at_k, rfl⟩), .same rfl rfl rfl rfl rfl⟩

theorem storeStamp_arrives (sound : Sound calls pcs o s cur first) {p i : Nat} {stamp : Int}
    (here : pcs t = .storeStamp p i stamp)
    (taken : next setting t (calls t) s (.storeStamp p i stamp) = some (s', pc')) :
    Arrives calls pcs first t o cur s' pc' := by
  have known := sound.knows t
  rw [here] at known
  obtain ⟨⟨rfl, k, at_k, rfl⟩, small⟩ := known
  obtain ⟨arr, there, taken⟩ := Option.bind_eq_some_iff.mp taken
  obtain rfl : cur = arr := Option.some.inj (sound.current.symm.trans there)
  split at taken
  · contradiction
  · obtain ⟨cur', stored, ⟨⟩⟩ := Option.map_eq_some_iff.mp taken
    obtain ⟨layout, timestamp, rfl⟩ := sound.layout.stamp (.bumpDeg o.head (o.base + k)) at_k
      (toOption_eq_some.mp stored) (by rw [here]; rfl) (by rw [here]; rfl) (by rw [here]; rfl)
      (by rw [here]; rfl) (by rw [here]; rfl) rfl small
    exact store_arrives sound ⟨rfl, k, at_k, rfl⟩ (by rw [here]; rfl) _ (fun _ => _) rfl rfl
      (by rw [here]; rfl) layout id

theorem bumpDeg_arrives (sound : Sound calls pcs o s cur first) {p i : Nat}
    (here : pcs t = .bumpDeg p i) :
    Arrives calls pcs first t o cur
      (s.modify p fun arr => { arr with deg := arr.deg + (calls t).deltaDeg }) (.writeSlot p i) := by
  have slot := sound.knows t
  rw [here] at slot
  obtain ⟨rfl, k, at_k, rfl⟩ := slot
  have layout := sound.layout.count (.writeSlot o.head (o.base + k)) at_k (by rw [here]; rfl)
    (by rw [here]; rfl) (by rw [here]; rfl) (by rw [here]; rfl) (by rw [here]; rfl) rfl
  exact store_arrives sound ⟨rfl, k, at_k, rfl⟩ (by rw [here]; rfl) o.stamp
    (fun arr => { arr with deg := arr.deg + (calls t).deltaDeg }) rfl rfl (by rw [here]; rfl) layout id

theorem writeSlot_arrives (sound : Sound calls pcs o s cur first) {p i : Nat}
    (here : pcs t = .writeSlot p i)
    (taken : next setting t (calls t) s (.writeSlot p i) = some (s', pc')) :
    Arrives calls pcs first t o cur s' pc' := by
  have slot := sound.knows t
  rw [here] at slot
  obtain ⟨rfl, k, at_k, rfl⟩ := slot
  obtain ⟨arr, there, taken⟩ := Option.bind_eq_some_iff.mp taken
  obtain rfl : cur = arr := Option.some.inj (sound.current.symm.trans there)
  obtain ⟨cur', stored, ⟨⟩⟩ := Option.map_eq_some_iff.mp taken
  obtain ⟨layout, edge, rfl⟩ := sound.layout.write (.bumpPhysical o.head (o.base + k)) at_k
    (toOption_eq_some.mp stored) (by rw [here]; rfl) (by rw [here]; rfl) (by rw [here]; rfl)
    (by rw [here]; rfl) rfl
  exact store_arrives sound ⟨rfl, k, at_k, rfl⟩ (by rw [here]; rfl) o.stamp (fun _ => _) rfl rfl
    (by rw [here]; rfl) layout id

theorem bumpPhysical_arrives (sound : Sound calls pcs o s cur first) {p i : Nat}
    (here : pcs t = .bumpPhysical p i) :
    Arrives calls pcs first t o cur
      (s.modify p fun arr => { arr with physicalSize := arr.physicalSize + 1 }) (.inserted p i) := by
  have slot := sound.knows t
  rw [here] at slot
  obtain ⟨rfl, k, at_k, rfl⟩ := slot
  have layout := sound.layout.finish (.inserted o.head (o.base + k)) at_k (by rw [here]; rfl)
    (by rw [here]; rfl) (by rw [here]; rfl) (by rw [here]; rfl) (by rw [here]; rfl) rfl
  exact store_arrives sound ⟨rfl, k, at_k, rfl⟩ (by rw [here]; rfl) o.stamp
    (fun arr => { arr with physicalSize := arr.physicalSize + 1 }) rfl rfl (by rw [here]; rfl) layout
    fun slot => .inr slot

/-! ## Replacing and deleting versions -/

omit [DecidableEq W] in
theorem layout_of_laid {newArray : WeightedEdgeArray W} {snap log : List (WeightedEdge W)}
    {stamps : Option (List Int)} (laid : Laid newArray snap log stamps)
    (size : newArray.size = newArray.physicalSize) (recent : newArray.snapshotTimestamp ≤ maxTimestamp)
    (dated : ∀ ts, stamps = some ts → ∀ x ∈ ts, x ≤ maxTimestamp) (p : Nat) (older : List Nat)
    {stamp : Nat → Int} (small : ∀ t, stamp t ≤ maxTimestamp) :
    Layout calls pcs ⟨p, older, snap, log, stamps, newArray.deg, [], stamp⟩ newArray where
  nodup := List.nodup_nil
  placed _ _ there := nomatch there
  size := by
    have room := laid.room
    have physicalSize := laid.physicalSize
    simp only [Origin.base, List.length_nil, Nat.add_zero] at *
    omega
  snapshotDeg := laid.snapshotDeg
  physicalSize := laid.physicalSize
  deg := (Int.add_zero _).symm
  edge := by simpa [Origin.base] using laid.edge
  timestamp := by simpa [Origin.base] using laid.timestamp
  aligned := laid.stamped
  indexed := by simpa [Origin.entries] using laid.indexed
  dated := ⟨recent, dated, small⟩

/-- The compacted array becomes the current version. The calls that wrote the old one have
returned, and those that draw from it now find no slot. -/
theorem publish_arrives (sound : Sound calls pcs o s cur first) (locks : Locks pcs s) {p : Nat}
    {newArray : WeightedEdgeArray W} (here : pcs t = .publish p newArray) :
    Arrives calls pcs first t o cur
      { s with memory := s.memory ++ [newArray], chain := s.memory.length :: s.chain } (.retire p) := by
  have known := sound.knows t
  rw [here] at known
  obtain ⟨rfl, full, compacted⟩ := known
  obtain ⟨stamps, laid⟩ := compacted.laid
  obtain ⟨-, drawn, finished⟩ := sound.layout.full full
  have fresh := sound.allocated
  have below (q : Nat) (member : q ∈ s.chain) : q < s.memory.length := by
    cases sound.mem_chain member with
    | inl same => exact same ▸ fresh
    | inr older =>
        have sorted := sound.sorted
        rw [sound.chain] at sorted
        exact ((List.pairwise_cons.mp sorted).1 q older).trans fresh
  have old {q : Nat} {arr : WeightedEdgeArray W} (there : s.memory[q]? = some arr) :
      (s.memory ++ [newArray])[q]? = some arr := by
    rw [List.getElem?_append_left (List.getElem?_eq_some_iff.mp there).1, there]
  have done {u i : Nat} (slot : InSlot o u o.head i) : (pcs u).finished = true := by
    obtain ⟨-, k, at_k, -⟩ := slot
    exact finished u (List.mem_of_getElem? at_k)
  refine ⟨⟨s.memory.length, o.head :: o.older, Radix.compacted cur o.snap (o.entries calls), [], stamps,
    newArray.deg, [], o.stamp⟩, newArray, ⟨?_, ?_, ?_, ?_, ?_, ?_, ?_, fun u => ?_⟩,
    .replaced fresh full rfl rfl (compacted.deg.trans (congrArg _ laid.physicalSize)) rfl⟩
  · rw [sound.chain]
  · exact List.pairwise_cons.mpr ⟨below, sound.sorted⟩
  · simp
  · exact sound.begun.trans fresh.le
  · intro q older after
    cases List.mem_cons.mp older with
    | inl same => exact ⟨cur, old (same ▸ sound.current), drawn⟩
    | inr older =>
        obtain ⟨arr, there, rest⟩ := sound.closed q older after
        exact ⟨arr, old there, rest⟩
  · refine layout_of_laid laid compacted.size compacted.snapshotTimestamp (fun ts present x member => ?_)
      _ _ sound.layout.dated.stamp
    rw [List.length_eq_zero_iff.mp (laid.stamped ts present)] at member
    cases member
  · intro u
    by_cases moved : u = t
    · subst moved
      rw [Function.update_self, ← sound.kinds, here]
      rfl
    · rw [Function.update_of_ne moved, sound.kinds]
  · by_cases moved : u = t
    · subst moved
      rw [Function.update_self]
      exact ⟨o.older, rfl⟩
    · rw [Function.update_of_ne moved]
      have known := sound.knows u
      have outside : (pcs u).locked ≠ true := fun inside =>
        moved (locks.one u t inside (by rw [here]; rfl))
      have past {i : Nat} (slot : InSlot o u o.head i) := done slot
      cases at_u : pcs u <;> rw [at_u] at known outside past
      case claim q => exact ⟨known.1, List.mem_cons_of_mem _ known.2⟩
      case checkCap q i =>
        refine ⟨List.mem_cons_of_mem _ known.1, .inr ?_⟩
        cases known.2 with
        | inl slot =>
            obtain ⟨rfl, slot⟩ := slot
            exact nomatch past ⟨rfl, slot⟩
        | inr beyond =>
            obtain ⟨arr, there, cap⟩ := beyond
            exact ⟨arr, old there, cap⟩
      case drawStamp q i | bumpDeg q i | writeSlot q i | bumpPhysical q i =>
        obtain ⟨rfl, slot⟩ := known
        exact nomatch past ⟨rfl, slot⟩
      case storeStamp q i x =>
        obtain ⟨⟨rfl, slot⟩, -⟩ := known
        exact nomatch past ⟨rfl, slot⟩
      case inserted q i =>
        left
        cases known with
        | inl before => exact before.trans fresh
        | inr slot => exact slot.1 ▸ fresh
      all_goals trivial

theorem Sound.delete (setting : Setting W) (sound : Sound calls pcs o s cur first) {dead : Nat}
    (obsolete : dead ≠ o.head)
    (unused : ∀ u, (pcs u).holds ≠ some dead)
    (others : ∀ u, (pcs u).locked = true → pcs u = .reload ∨ ∃ n, pcs u = .unlockLeave n) :
    Sound calls pcs { o with older := o.older.erase dead } (s.delete setting dead) cur first := by
  have nodup : s.chain.Nodup := sound.sorted.imp fun above => above.ne'
  have kept {q : Nat} (other : q ≠ dead) : (s.delete setting dead).memory[q]? = s.memory[q]? :=
    List.getElem?_set_ne other.symm
  refine ⟨?_, sound.sorted.sublist List.erase_sublist, ?_, sound.begun, ?_, ?_, sound.kinds, fun u => ?_⟩
  · change s.chain.erase dead = o.head :: o.older.erase dead
    rw [sound.chain, List.erase_cons_tail (by simpa using obsolete.symm)]
  · rw [kept obsolete.symm]
    exact sound.current
  · intro q older after
    rw [sound.chain] at nodup
    obtain ⟨other, older⟩ := (List.nodup_cons.mp nodup).2.mem_erase_iff.mp older
    rw [kept other]
    exact sound.closed q older after
  · exact ⟨sound.layout.nodup, sound.layout.placed, sound.layout.size, sound.layout.snapshotDeg,
      sound.layout.physicalSize, sound.layout.deg, sound.layout.edge, sound.layout.timestamp, sound.layout.aligned,
      sound.layout.indexed, sound.layout.dated.snapshotTimestamp, sound.layout.dated.stamps,
      sound.layout.dated.stamp⟩
  · have known := sound.knows u
    have outside := others u
    have holding := unused u
    cases at_u : pcs u <;> rw [at_u] at known outside holding
    case claim q =>
      have other : q ≠ dead := fun same => holding (congrArg some same)
      exact ⟨known.1, (List.mem_erase_of_ne other).mpr known.2⟩
    case checkCap q i =>
      have other : q ≠ dead := fun same => holding (congrArg some same)
      refine ⟨(List.mem_erase_of_ne other).mpr known.1, known.2.imp_right ?_⟩
      rintro ⟨arr, there, cap⟩
      exact ⟨arr, (kept other).trans there, cap⟩
    case drawStamp | storeStamp | bumpDeg | writeSlot | bumpPhysical | inserted => exact known
    all_goals
      first
      | trivial
      | obtain none | ⟨n, none⟩ := outside rfl
        all_goals cases none

theorem touch_arrives (sound : Sound calls pcs o s cur first) (pc' : Pc W) (p : Nat)
    (change : WeightedEdgeArray W → WeightedEdgeArray W)
    (counters : ∀ arr, (change arr).cap = arr.cap ∧ (change arr).size = arr.size ∧
      (change arr).physicalSize = arr.physicalSize ∧ (change arr).deg = arr.deg)
    (slots : p = o.head → Alike cur (change cur)) (kind : pc'.inserting = (pcs t).inserting)
    (nowhere : (pcs t).place = none)
    (knows : ∀ s' cur', Knows calls o s' cur' first t pc') :
    ∃ cur', Sound calls (Function.update pcs t pc') o (s.modify p change) cur' first := by
  have fresh := sound.not_claimed nowhere
  have moved : Layout calls (Function.update pcs t pc') o cur :=
    sound.layout.move fun inside => absurd inside fresh
  have keeps := modify_keeps (s := s) p change fun arr _ => ⟨(counters arr).1, (counters arr).2.1.ge⟩
  by_cases here : p = o.head
  · obtain ⟨cap, -, physicalSize, deg⟩ := counters cur
    have frame : Frame calls o s cur o (s.modify p change) (change cur) :=
      ⟨rfl, rfl, rfl, fun _ _ at_k => at_k, rfl, keeps, fun _ => ⟨rfl, rfl, cap, physicalSize, deg⟩⟩
    have current : (s.modify p change).memory[o.head]? = some (change cur) := by
      rw [here]
      exact modify_at sound.current
    exact ⟨_, sound.of_frame frame current (moved.alike (slots here)) kind (knows _ _)⟩
  · have frame : Frame calls o s cur o (s.modify p change) cur :=
      ⟨rfl, rfl, rfl, fun _ _ at_k => at_k, rfl, keeps, fun _ => ⟨rfl, rfl, rfl, rfl, rfl⟩⟩
    exact ⟨_, sound.of_frame frame ((modify_other here _).trans sound.current) moved kind (knows _ _)⟩

omit [DecidableEq W] in
theorem Locks.alone (locks : Locks pcs s) (inside : (pcs t).locked = true) (u : Nat)
    (there : (Function.update pcs t pc' u).locked = true) : Function.update pcs t pc' u = pc' := by
  by_cases here : u = t
  · subst here
    exact Function.update_self ..
  · rw [Function.update_of_ne here] at there
    exact absurd (locks.one u t there inside) here

omit [DecidableEq W] in
theorem unused_move {dead : Nat} (unused : ∀ u, (pcs u).holds ≠ some dead) (free : pc'.holds = none)
    (u : Nat) : (Function.update pcs t pc' u).holds ≠ some dead := by
  by_cases here : u = t
  · subst here
    rw [Function.update_self, free]
    simp
  · rw [Function.update_of_ne here]
    exact unused u

omit [DecidableEq W] in
theorem prevArr_older {p tmp : Nat} (older : List Nat) (sorted : (o.head :: p :: older).Pairwise (· > ·))
    (chain : s.chain = o.head :: p :: older) (before : s.prevArr p = some tmp) : tmp ∈ older := by
  have above : o.head ≠ p := ((List.pairwise_cons.mp sorted).1 p List.mem_cons_self).ne'
  rw [Source.prevArr, chain] at before
  simp only [ne_eq, above, not_false_eq_true, decide_true, List.dropWhile_cons_of_pos] at before
  simp only [List.dropWhile_cons, not_true_eq_false, decide_false, Bool.false_eq_true, if_false,
    List.tail_cons] at before
  exact List.mem_of_mem_head? before

theorem Sound.obsolete_retire (sound : Sound calls pcs o s cur first) {p : Nat} (here : pcs t = .retire p) :
    p ≠ o.head ∧ ∀ dead, s.doomed p = some dead → dead ≠ o.head := by
  have known := sound.knows t
  rw [here] at known
  obtain ⟨older, split⟩ := known
  have chain := sound.chain
  have sorted := sound.sorted
  rw [split] at chain
  rw [chain] at sorted
  refine ⟨((List.pairwise_cons.mp sorted).1 p List.mem_cons_self).ne, fun dead doomed => ?_⟩
  have member : dead ∈ older := by
    apply prevArr_older older sorted chain
    unfold Source.doomed at doomed
    split at doomed
    · exact (Option.filter_eq_some_iff.mp doomed).1
    · contradiction
  exact ((List.pairwise_cons.mp sorted).1 dead (List.mem_cons_of_mem _ member)).ne

theorem Sound.obsolete_leave (sound : Sound calls pcs o s cur first) {p : Nat}
    (abandoned : s.abandoned p = true) : p ≠ o.head := by
  rintro rfl
  simp [Source.abandoned, sound.chain] at abandoned

theorem retire_arrives (sound : Sound calls pcs o s cur first) (locks : Locks pcs s) {p : Nat}
    (here : pcs t = .retire p) (unused : ∀ dead, s.doomed p = some dead → ∀ u, (pcs u).holds ≠ some dead) :
    Arrives calls pcs first t o cur (s.retire setting p) .reload := by
  obtain ⟨replaced, obsolete⟩ := sound.obsolete_retire here
  have kind : (Pc.reload : Pc W).inserting = (pcs t).inserting := by
    rw [here]
    rfl
  have nowhere : (pcs t).place = none := by
    rw [here]
    rfl
  unfold Source.retire
  split
  · obtain ⟨cur', sound'⟩ := touch_arrives sound .reload p
      (fun arr => { arr with edge := none, timestamp := none })
      (fun _ => ⟨rfl, rfl, rfl, rfl⟩) (fun same => absurd same replaced) kind nowhere
      (fun _ _ => trivial)
    cases doomed : s.doomed p with
    | none => exact sound'.arrives
    | some dead =>
        have inside : (pcs t).locked = true := by
          rw [here]
          rfl
        have gone := sound'.delete setting (obsolete dead doomed)
          (unused_move (unused dead doomed) rfl) fun u there => .inl (locks.alone inside u there)
        exact ⟨_, _, gone, .same rfl rfl rfl rfl rfl⟩
  · have fresh := sound.not_claimed nowhere
    exact (sound.quiet rfl rfl kind (fun inside => absurd inside fresh) trivial).arrives

theorem leave_arrives (sound : Sound calls pcs o s cur first) (locks : Locks pcs s) {p : Nat}
    {neighbours : List (WeightedEdge W)} (here : pcs t = .leave p neighbours)
    (unused : s.abandoned p = true → ∀ u, (pcs u).holds ≠ some p) :
    Arrives calls pcs first t o cur (s.leave setting p) (.unlockLeave neighbours) := by
  obtain ⟨cur', sound'⟩ := touch_arrives (t := t) sound (.unlockLeave neighbours) p
    .release (fun _ => ⟨rfl, rfl, rfl, rfl⟩) (fun _ => ⟨rfl, rfl, rfl, rfl, rfl, rfl, rfl, rfl⟩)
    (by rw [here]; rfl) (by rw [here]; rfl) (fun _ _ => trivial)
  unfold Source.leave
  split
  case isFalse => exact sound'.arrives
  case isTrue abandoned =>
    have obsolete := sound.obsolete_leave abandoned
    have inside : (pcs t).locked = true := by
      rw [here]
      rfl
    have gone := sound'.delete setting obsolete (unused_move (unused abandoned) rfl)
      fun u there => .inr ⟨neighbours, locks.alone inside u there⟩
    exact ⟨_, _, gone, .same rfl rfl rfl rfl rfl⟩

/-! ## Every step -/

structure Proper (setting : Setting W) (calls : Nat → Request W) : Prop where
  rate : 1 < setting.expandRate
  clean : ∀ t, (setting.bitmap t).Clean
  nonneg : ∀ t, (calls t).inserting = true → 0 ≤ (calls t).entry.idx

theorem waiting_arrives (sound : Sound calls pcs o s cur first)
    (memory : s'.memory = s.memory) (chain : s'.chain = s.chain)
    (kind : pc'.inserting = (pcs t).inserting) (nowhere : (pcs t).place = none)
    (knows : Knows calls o s cur first t pc') : Arrives calls pcs first t o cur s' pc' :=
  (sound.quiet memory chain kind (fun inside => absurd inside (sound.not_claimed nowhere))
    knows).arrives

theorem checkCap_arrives (sound : Sound calls pcs o s cur first) {p i : Nat}
    (here : pcs t = .checkCap p i)
    (taken : next setting t (calls t) s (.checkCap p i) = some (s', pc')) :
    Arrives calls pcs first t o cur s' pc' := by
  have known := sound.knows t
  rw [here] at known
  obtain ⟨arr, there, ⟨⟩⟩ := Option.map_eq_some_iff.mp taken
  apply Sound.arrives
  cases known.2 with
  | inl slot =>
      obtain ⟨rfl, k, at_k, rfl⟩ := slot
      obtain rfl : cur = arr := Option.some.inj (sound.current.symm.trans there)
      rw [if_neg (Nat.not_le.mpr (sound.layout.claimed_lt at_k).2)]
      refine sound.quiet rfl rfl (by rw [here]; rfl) (fun _ => ?_) ⟨rfl, k, at_k, rfl⟩
      rw [here]
      exact ⟨rfl, .inr rfl, rfl, rfl, rfl⟩
  | inr beyond =>
      obtain ⟨arr', there', cap⟩ := beyond
      obtain rfl : arr = arr' := Option.some.inj (there.symm.trans there')
      rw [if_pos cap]
      refine sound.quiet rfl rfl (by rw [here]; rfl) (fun inside => ?_) trivial
      -- a call that owns a slot of the current version has drawn it below the capacity
      obtain ⟨k, at_k⟩ := List.mem_iff_getElem?.mp inside
      have placed := sound.layout.placed k t at_k
      rw [here] at placed
      cases placed
      obtain rfl : cur = arr := Option.some.inj (sound.current.symm.trans there)
      exact absurd cap (Nat.not_le.mpr (sound.layout.claimed_lt at_k).2)

theorem drawStamp_arrives (sound : Sound calls pcs o s cur first) {p i : Nat}
    (here : pcs t = .drawStamp p i)
    (taken : next setting t (calls t) s (.drawStamp p i) = some (s', pc')) :
    Arrives calls pcs first t o cur s' pc' := by
  have known := sound.knows t
  rw [here] at known
  obtain ⟨arr, there, taken⟩ := Option.map_eq_some_iff.mp taken
  have same : cur = arr := by
    obtain ⟨rfl, -⟩ := known
    exact Option.some.inj (sound.current.symm.trans there)
  subst same
  split at taken
  case isTrue unstamped =>
    cases taken
    apply Sound.arrives
    refine sound.quiet rfl rfl (by rw [here]; rfl) (fun _ => ?_) known
    rw [here]
    refine ⟨rfl, .inl ?_, rfl, rfl, rfl⟩
    rw [sound.layout.timestamp] at unstamped
    simpa using unstamped
  case isFalse =>
    cases taken
    apply Sound.arrives
    refine sound.quiet rfl rfl (by rw [here]; rfl) (fun _ => ?_) ⟨known, timestampAt_le _⟩
    rw [here]
    exact ⟨rfl, .inr rfl, rfl, rfl, rfl⟩

theorem compact_arrives (proper : Proper setting calls) (sound : Sound calls pcs o s cur first)
    {p : Nat} {newArray : WeightedEdgeArray W} (here : pcs t = .compact p newArray)
    (taken : next setting t (calls t) s (.compact p newArray) = some (s', pc')) :
    Arrives calls pcs first t o cur s' pc' := by
  have known := sound.knows t
  rw [here] at known
  obtain ⟨rfl, full, m, rfl, room⟩ := known
  obtain ⟨arr, there, taken⟩ := Option.bind_eq_some_iff.mp taken
  obtain rfl : cur = arr := Option.some.inj (sound.current.symm.trans there)
  obtain ⟨result, ran, ⟨⟩⟩ := Option.map_eq_some_iff.mp taken
  have laid := sound.layout.laid (sound.layout.full full).2.2
  obtain ⟨newArr, bitmap', compaction, -, laid', deg, size, timestamp, unread, -⟩ :=
    logCompaction_spec laid s.info (proper.clean t) room
  obtain rfl : _ = result := Except.ok.inj (compaction.symm.trans (toOption_eq_some.mp ran))
  refine waiting_arrives sound rfl rfl (by rw [here]; rfl) (by rw [here]; rfl)
    ⟨rfl, full, ⟨_, laid'⟩, size, deg, unread, ?_⟩
  rw [timestamp]
  exact timestampAt_le _

theorem allocate_arrives (proper : Proper setting calls) (sound : Sound calls pcs o s cur first)
    {p : Nat} (here : pcs t = .allocate p)
    (taken : next setting t (calls t) s (.allocate p) = some (s', pc')) :
    Arrives calls pcs first t o cur s' pc' := by
  have known := sound.knows t
  rw [here] at known
  obtain ⟨rfl, full⟩ := known
  obtain ⟨arr, there, ⟨⟩⟩ := Option.map_eq_some_iff.mp taken
  obtain rfl : cur = arr := Option.some.inj (sound.current.symm.trans there)
  have enough := setting.platform.capacity_ge (max cur.deg 0).toNat (cur.size - cur.cap + 1) proper.rate
  refine waiting_arrives sound rfl rfl (by rw [here]; rfl) (by rw [here]; rfl)
    ⟨rfl, full, _, rfl, fun insertions => ?_⟩
  omega

/-- A step of an `Insert` keeps the slots with their owners, and the contents go on by one entry or
one compaction at a time. -/
theorem insert_arrives (proper : Proper setting calls) (sound : Sound calls pcs o s cur first)
    (locks : Locks pcs s)
    (unused : ∀ dead, deletes s (pcs t) = some dead → ∀ u, (pcs u).holds ≠ some dead)
    (inserting : (pcs t).inserting = true)
    (taken : next setting t (calls t) s (pcs t) = some (s', pc')) :
    Arrives calls pcs first t o cur s' pc' := by
  have kinds := sound.kinds t
  have known := sound.knows t
  have chain := sound.chain
  have headMember : o.head ∈ s.chain := chain ▸ List.mem_cons_self
  have nonneg : 0 ≤ (calls t).entry.idx := proper.nonneg t (kinds ▸ inserting)
  cases here : pcs t <;> rw [here] at known taken inserting unused
  case loadNext =>
    obtain ⟨p, there, ⟨⟩⟩ := Option.map_eq_some_iff.mp taken
    rw [chain] at there
    cases there
    exact waiting_arrives sound rfl rfl (by rw [here]; rfl) (by rw [here]; rfl)
      ⟨sound.begun, headMember⟩
  case claim p =>
    obtain ⟨arr, there, ⟨⟩⟩ := Option.map_eq_some_iff.mp taken
    exact claim_arrives sound there known.2 known.1 nonneg (by rw [here]; rfl) rfl (by rw [here]; rfl)
      rfl rfl rfl rfl fun o' _ slot => ⟨⟨known.2, slot⟩, ⟨known.2, slot⟩⟩
  case reclaim p =>
    obtain rfl : p = o.head := known
    obtain ⟨arr, there, ⟨⟩⟩ := Option.map_eq_some_iff.mp taken
    exact claim_arrives sound there headMember sound.begun nonneg (by rw [here]; rfl) rfl
      (by rw [here]; rfl) rfl rfl rfl rfl fun o' same slot => ⟨⟨same.symm, slot⟩, ⟨same.symm, slot⟩⟩
  case checkCap p i => exact checkCap_arrives sound here taken
  case lock p =>
    simp only [next] at taken
    split at taken
    · contradiction
    · cases taken
      exact waiting_arrives sound rfl rfl (by rw [here]; rfl) (by rw [here]; rfl) trivial
  case compareNext p =>
    obtain ⟨current, there, ⟨⟩⟩ := Option.map_eq_some_iff.mp taken
    rw [chain] at there
    cases there
    refine waiting_arrives sound rfl rfl ?_ (by rw [here]; rfl) ?_
    · rw [here]
      split <;> rfl
    · split
      · exact rfl
      · trivial
  case waitFull p =>
    obtain rfl : p = o.head := known
    obtain ⟨arr, there, taken⟩ := Option.bind_eq_some_iff.mp taken
    obtain rfl : cur = arr := Option.some.inj (sound.current.symm.trans there)
    split at taken
    case isTrue full =>
      cases taken
      exact waiting_arrives sound rfl rfl (by rw [here]; rfl) (by rw [here]; rfl) ⟨rfl, full⟩
    case isFalse => contradiction
  case allocate p => exact allocate_arrives proper sound here taken
  case compact p newArray => exact compact_arrives proper sound here taken
  case publish p newArray =>
    cases taken
    exact publish_arrives sound locks here
  case retire p =>
    cases taken
    exact retire_arrives sound locks here unused
  case reload =>
    obtain ⟨p, there, ⟨⟩⟩ := Option.map_eq_some_iff.mp taken
    rw [chain] at there
    cases there
    exact waiting_arrives sound rfl rfl (by rw [here]; rfl) (by rw [here]; rfl) rfl
  case unlock p i =>
    cases taken
    obtain ⟨rfl, slot⟩ := known
    apply Sound.arrives
    refine sound.quiet rfl rfl (by rw [here]; rfl) (fun _ => ?_) ⟨headMember, slot⟩
    rw [here]
    exact ⟨rfl, .inr rfl, rfl, rfl, rfl⟩
  case drawStamp p i => exact drawStamp_arrives sound here taken
  case storeStamp p i stamp => exact storeStamp_arrives sound here taken
  case bumpDeg p i =>
    cases taken
    exact bumpDeg_arrives sound here
  case writeSlot p i => exact writeSlot_arrives sound here taken
  case bumpPhysical p i =>
    cases taken
    exact bumpPhysical_arrives sound here
  all_goals contradiction

/-- A step of a `GetNeighbours` changes the count of readers and obsolete versions only. -/
theorem read_arrives (sound : Sound calls pcs o s cur first) (locks : Locks pcs s)
    (unused : ∀ dead, deletes s (pcs t) = some dead → ∀ u, (pcs u).holds ≠ some dead)
    (reading : (pcs t).inserting = false)
    (taken : next setting t (calls t) s (pcs t) = some (s', pc')) :
    Arrives calls pcs first t o cur s' pc' := by
  have kind := (next_locking taken).2
  have nowhere : (pcs t).place = none := by
    cases here : pcs t <;> first | rfl | (rw [here] at reading; cases reading)
  cases here : pcs t <;> rw [here] at taken reading unused
  case enter =>
    simp only [next] at taken
    split at taken
    · cases taken
      exact waiting_arrives sound rfl rfl kind nowhere trivial
    · contradiction
  case select =>
    simp only [next] at taken
    split at taken
    · cases taken
      exact waiting_arrives sound rfl rfl kind nowhere trivial
    · cases taken
      obtain ⟨cur', sound'⟩ := touch_arrives sound _ _ .acquire (fun _ => ⟨rfl, rfl, rfl, rfl⟩)
        (fun _ => ⟨rfl, rfl, rfl, rfl, rfl, rfl, rfl, rfl⟩) kind nowhere (fun _ _ => trivial)
      exact sound'.arrives
  case unlockRead | unlockNone | unlockLeave =>
    cases taken
    exact waiting_arrives sound rfl rfl kind nowhere trivial
  case loadCount p =>
    obtain ⟨arr, -, ⟨⟩⟩ := Option.map_eq_some_iff.mp taken
    refine waiting_arrives sound rfl rfl kind nowhere ?_
    split
    · split <;> trivial
    · trivial
  case copySnapshot | clear =>
    obtain ⟨arr, -, taken⟩ := Option.bind_eq_some_iff.mp taken
    obtain ⟨x, -, ⟨⟩⟩ := Option.map_eq_some_iff.mp taken
    exact waiting_arrives sound rfl rfl kind nowhere trivial
  case cut p i =>
    obtain ⟨arr, -, taken⟩ := Option.bind_eq_some_iff.mp taken
    obtain ⟨stamp, -, taken⟩ := Option.bind_eq_some_iff.mp taken
    split at taken
    · cases taken
      exact waiting_arrives sound rfl rfl kind nowhere trivial
    · split at taken
      · obtain ⟨x, -, ⟨⟩⟩ := Option.map_eq_some_iff.mp taken
        exact waiting_arrives sound rfl rfl kind nowhere trivial
      · cases taken
        exact waiting_arrives sound rfl rfl kind nowhere trivial
  case scan p cnt i r n m =>
    cases i with
    | zero =>
        cases taken
        exact waiting_arrives sound rfl rfl kind nowhere trivial
    | succ i =>
        obtain ⟨arr, -, taken⟩ := Option.bind_eq_some_iff.mp taken
        obtain ⟨pc, scanned, ⟨⟩⟩ := Option.map_eq_some_iff.mp taken
        obtain ⟨j, r', n', m', rfl⟩ := scanSlot_scan (toOption_eq_some.mp scanned)
        exact waiting_arrives sound rfl rfl kind nowhere trivial
  case lockLeave p n =>
    simp only [next] at taken
    split at taken
    · contradiction
    · cases taken
      exact waiting_arrives sound rfl rfl kind nowhere trivial
  case leave p n =>
    cases taken
    refine leave_arrives sound locks here fun abandoned u => unused p ?_ u
    rw [deletes, if_pos abandoned]
  all_goals contradiction

/-- No call is about to use the `size` or `cap` of a version that the step deletes. -/
def NoUser (c : State W) (t : Nat) : Prop :=
  ∀ dead, deletes c.shared (c.local' t) = some dead → ∀ u, (c.local' u).holds ≠ some dead

theorem next_arrives (proper : Proper setting calls) (sound : Sound calls pcs o s cur first)
    (locks : Locks pcs s)
    (unused : ∀ dead, deletes s (pcs t) = some dead → ∀ u, (pcs u).holds ≠ some dead)
    (taken : next setting t (calls t) s (pcs t) = some (s', pc')) :
    Arrives calls pcs first t o cur s' pc' ∧ Locks (Function.update pcs t pc') s' := by
  refine ⟨?_, locks.step (next_locking taken).1⟩
  cases kind : (pcs t).inserting with
  | true => exact insert_arrives proper sound locks unused kind taken
  | false => exact read_arrives sound locks unused kind taken

end OneVertex

end Radix
