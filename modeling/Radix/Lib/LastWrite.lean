import Mathlib.Data.List.Induction
import Mathlib.Data.List.Nodup
import Mathlib.Data.List.Perm.Basic
import Mathlib.Logic.Function.Basic

/-!
# Logs whose last entry of a key wins

A log is a list of entries, oldest first; an entry that is not live erases its key. `replay`
gives the meaning of a log as a finite map from keys to their current entries. `scan` computes the
current entries from a snapshot and a log by one pass from the newest entry to the oldest that
marks the keys of the log as it meets them.
-/

namespace Radix.Lib

universe u v

namespace LastWrite

section Definitions

variable {E : Type u} {K : Type v} [DecidableEq K] (key : E → K) (live : E → Bool)

def write (m : K → Option E) (e : E) : K → Option E :=
  Function.update m (key e) (if live e then some e else none)

def replay (m : K → Option E) (log : List E) : K → Option E := log.foldl (write key live) m

def survivors (seen : List K) : List E → List E
  | [] => []
  | e :: older =>
      if key e ∈ seen then survivors seen older
      else (if live e then [e] else []) ++ survivors (key e :: seen) older

def scan (snap log : List E) : List E :=
  survivors key live [] log.reverse ++
    snap.reverse.filter fun e => key e ∉ log.map key && live e

structure Represents (l : List E) (m : K → Option E) : Prop where
  nodup : (l.map key).Nodup
  mem : ∀ k e, m k = some e ↔ e ∈ l ∧ key e = k

def Sound (m : K → Option E) : Prop := ∀ k e, m k = some e → key e = k ∧ live e

end Definitions

variable {E : Type u} {K : Type v} {key : E → K} {live : E → Bool}

/-! ## Representing lists -/

theorem Represents.nil : Represents key ([] : List E) fun _ => none := ⟨by simp, by simp⟩

theorem Represents.alive {l : List E} {m : K → Option E} (represents : Represents key l m)
    (sound : Sound key live m) : ∀ e ∈ l, live e := fun e member =>
  (sound _ e ((represents.mem _ e).mpr ⟨member, rfl⟩)).2

theorem Represents.absent {l : List E} {m : K → Option E} (represents : Represents key l m) {k : K} :
    m k = none ↔ k ∉ l.map key := by
  constructor
  · rintro none member
    obtain ⟨e, inside, rfl⟩ := List.mem_map.mp member
    simp [(represents.mem _ e).mpr ⟨inside, rfl⟩] at none
  · intro outside
    cases found : m k with
    | none => rfl
    | some e =>
        obtain ⟨inside, rfl⟩ := (represents.mem k e).mp found
        exact (outside (List.mem_map.mpr ⟨e, inside, rfl⟩)).elim

theorem Represents.of_perm {l l' : List E} {m : K → Option E} (represents : Represents key l m)
    (same : l'.Perm l) : Represents key l' m :=
  ⟨(same.map key).nodup_iff.mpr represents.nodup, fun k e => by
    rw [represents.mem, same.mem_iff]⟩

theorem Represents.perm {l l' : List E} {m : K → Option E} (left : Represents key l m)
    (right : Represents key l' m) : l.Perm l' := by
  apply (List.perm_ext_iff_of_nodup left.nodup.of_map right.nodup.of_map).mpr
  intro e
  have := (left.mem (key e) e).symm.trans (right.mem (key e) e)
  simpa using this

/-! ## Replaying -/

variable [DecidableEq K]

theorem write_same (m : K → Option E) (e : E) :
    write key live m e (key e) = if live e then some e else none := by simp [write]

theorem write_other (m : K → Option E) (e : E) {k : K} (other : k ≠ key e) :
    write key live m e k = m k := by simp [write, other]

theorem replay_append (m : K → Option E) (log more : List E) :
    replay key live m (log ++ more) = replay key live (replay key live m log) more := by
  simp [replay]

theorem replay_snoc (m : K → Option E) (log : List E) (e : E) :
    replay key live m (log ++ [e]) = write key live (replay key live m log) e := by
  simp [replay]

theorem replay_apply (m : K → Option E) (log : List E) (k : K) :
    replay key live m log k = match log.reverse.find? (fun e => key e = k) with
      | some e => if live e then some e else none
      | none => m k := by
  induction log using List.reverseRecOn with
  | nil => rfl
  | append_singleton log e ih =>
      rw [replay_snoc]
      by_cases here : key e = k
      · subst here
        simp [write_same]
      · simp [write_other _ _ (Ne.symm here), here, ih]

theorem replay_untouched (m : K → Option E) {log : List E} {k : K} (absent : k ∉ log.map key) :
    replay key live m log k = m k := by
  have none : log.reverse.find? (fun e => key e = k) = none := by
    simpa using fun e member equal => absent (List.mem_map.mpr ⟨e, member, equal⟩)
  rw [replay_apply, none]

theorem Sound.write {m : K → Option E} (sound : Sound key live m) (e : E) :
    Sound key live (write key live m e) := by
  intro k d found
  by_cases here : k = key e
  · subst here
    rw [write_same] at found
    split at found
    · cases found; simp_all
    · cases found
  · rw [write_other _ _ here] at found
    exact sound k d found

theorem Sound.replay {m : K → Option E} (sound : Sound key live m) (log : List E) :
    Sound key live (replay key live m log) := by
  induction log generalizing m with
  | nil => exact sound
  | cons e log ih => exact ih (sound.write e)

theorem Represents.snoc {l : List E} {m : K → Option E} (represents : Represents key l m) {e : E}
    (fresh : m (key e) = none) (alive : live e) : Represents key (l ++ [e]) (write key live m e) := by
  have outside := represents.absent.mp fresh
  constructor
  · rw [List.map_append, List.nodup_append]
    refine ⟨represents.nodup, by simp, ?_⟩
    rintro a inside b member rfl
    simp only [List.map_cons, List.map_nil, List.mem_singleton] at member
    exact outside (member ▸ inside)
  · intro k d
    by_cases here : k = key e
    · subst here
      rw [write_same, if_pos alive, Option.some.injEq]
      constructor
      · rintro rfl
        simp
      · rintro ⟨member, equal⟩
        rcases List.mem_append.mp member with inside | last
        · exact (outside (List.mem_map.mpr ⟨d, inside, equal⟩)).elim
        · exact (List.mem_singleton.mp last).symm
    · rw [write_other _ _ here, represents.mem]
      constructor
      · rintro ⟨member, equal⟩
        exact ⟨by simp [member], equal⟩
      · rintro ⟨member, equal⟩
        rcases List.mem_append.mp member with inside | last
        · exact ⟨inside, equal⟩
        · exact (here (by rw [← equal, List.mem_singleton.mp last])).elim

theorem Represents.of_nodup {l : List E} (nodup : (l.map key).Nodup) (alive : ∀ e ∈ l, live e) :
    Represents key l (replay key live (fun _ => none) l) := by
  induction l using List.reverseRecOn with
  | nil => exact .nil
  | append_singleton l e ih =>
      rw [List.map_append, List.nodup_append] at nodup
      have represents := ih nodup.1 fun d member => alive d (List.mem_append_left _ member)
      rw [replay_snoc]
      refine represents.snoc (represents.absent.mpr fun inside => ?_) (alive e (by simp))
      exact nodup.2.2 (key e) inside (key e) (by simp) rfl

theorem Represents.erase {l : List E} {m : K → Option E} (represents : Represents key l m) (k : K) :
    Represents key (l.filter fun d => key d ≠ k) (Function.update m k none) := by
  constructor
  · exact represents.nodup.sublist (List.filter_sublist.map key)
  · intro k' d
    by_cases here : k' = k
    · subst here
      simp
    · rw [Function.update_of_ne here, represents.mem, List.mem_filter]
      constructor
      · rintro ⟨member, rfl⟩
        exact ⟨⟨member, by simpa using here⟩, rfl⟩
      · rintro ⟨⟨member, -⟩, rfl⟩
        exact ⟨member, rfl⟩

theorem Represents.erase_length {l : List E} {m : K → Option E} (represents : Represents key l m)
    {k : K} (present : m k ≠ none) : (l.filter fun d => key d ≠ k).length + 1 = l.length := by
  obtain ⟨d, found⟩ := Option.ne_none_iff_exists'.mp present
  obtain ⟨member, rfl⟩ := (represents.mem k d).mp found
  have once : l.countP (fun d' => key d' = key d) = 1 := by
    have counted := List.count_eq_one_of_mem represents.nodup (List.mem_map_of_mem (f := key) member)
    rw [List.count, List.countP_map] at counted
    simpa [Function.comp_def, beq_eq_decide] using counted
  have split := List.length_eq_countP_add_countP (fun d' => decide (key d' ≠ key d)) (l := l)
  rw [← List.countP_eq_length_filter]
  simp only [ne_eq, decide_not, Bool.not_eq_true', decide_eq_false_iff_not, not_not] at split ⊢
  omega

theorem Represents.rewrite {l : List E} {m : K → Option E} (represents : Represents key l m) (e : E) :
    Represents key ((l.filter fun d => key d ≠ key e) ++ if live e then [e] else [])
      (write key live m e) := by
  have erased := represents.erase (key e)
  by_cases alive : live e
  · have added := erased.snoc (by simp) alive
    rw [LastWrite.write, Function.update_idem] at added
    simpa [alive, LastWrite.write] using added
  · simpa [alive, LastWrite.write] using erased

/-! ## The backward pass -/

theorem mem_survivors (seen : List K) (newest : List E) (e : E) :
    e ∈ survivors key live seen newest ↔
      key e ∉ seen ∧ live e ∧ newest.find? (fun d => key d = key e) = some e := by
  induction newest generalizing seen with
  | nil => simp [survivors]
  | cons d older ih =>
      simp only [survivors]
      split
      next marked =>
        rw [ih]
        by_cases same : key d = key e
        · simp_all
        · simp [same]
      next unmarked =>
        rw [List.mem_append, ih]
        by_cases same : key d = key e
        · by_cases equal : e = d
          · subst equal
            by_cases alive : live e <;> simp_all
          · have absent : e ∉ (if live d then [d] else []) := by split <;> simp [equal]
            simp [absent, same, Ne.symm equal]
        · have different : e ≠ d := fun equal => same (by rw [equal])
          have absent : e ∉ (if live d then [d] else []) := by split <;> simp [different]
          simp [absent, same, Ne.symm same]

theorem survivors_sublist (seen : List K) (newest : List E) : (survivors key live seen newest).Sublist newest := by
  induction newest generalizing seen with
  | nil => exact List.Sublist.refl _
  | cons d older ih =>
      simp only [survivors]
      split
      · exact (ih seen).cons d
      · split
        · exact (ih _).cons_cons d
        · exact (ih _).cons d

theorem scan_length_le (snap log : List E) : (scan key live snap log).length ≤ snap.length + log.length := by
  have fromLog : (survivors key live [] log.reverse).length ≤ log.reverse.length :=
    (survivors_sublist [] log.reverse).length_le
  have fromSnap := List.length_filter_le (fun e => key e ∉ log.map key && live e) snap.reverse
  rw [List.length_reverse] at fromLog fromSnap
  rw [scan, List.length_append]
  omega

theorem survivors_keys {seen : List K} {newest : List E} {k : K}
    (member : k ∈ (survivors key live seen newest).map key) : k ∉ seen ∧ k ∈ newest.map key := by
  obtain ⟨e, inside, rfl⟩ := List.mem_map.mp member
  obtain ⟨unseen, -, found⟩ := (mem_survivors seen newest e).mp inside
  exact ⟨unseen, List.mem_map_of_mem (List.mem_of_find?_eq_some found)⟩

theorem survivors_nodup (seen : List K) (newest : List E) :
    ((survivors key live seen newest).map key).Nodup := by
  induction newest generalizing seen with
  | nil => simp [survivors]
  | cons d older ih =>
      simp only [survivors]
      split
      · exact ih seen
      · split
        · rw [List.singleton_append, List.map_cons, List.nodup_cons]
          exact ⟨fun again => (survivors_keys again).1 (by simp), ih _⟩
        · simpa using ih _

theorem survivors_live {seen : List K} {newest : List E} {e : E}
    (member : e ∈ survivors key live seen newest) : live e :=
  ((mem_survivors seen newest e).mp member).2.1

theorem scan_live {snap log : List E} {e : E} (member : e ∈ scan key live snap log) : live e := by
  rcases List.mem_append.mp member with inside | old
  · exact survivors_live inside
  · have := (List.mem_filter.mp old).2
    simp_all

theorem mem_of_mem_scan {snap log : List E} {e : E} (member : e ∈ scan key live snap log) :
    e ∈ snap ∨ e ∈ log := by
  rcases List.mem_append.mp member with inside | old
  · have found := ((mem_survivors _ _ e).mp inside).2.2
    exact .inr (by simpa using List.mem_of_find?_eq_some found)
  · exact .inl (by simpa using (List.mem_filter.mp old).1)

theorem mem_scan {snap log : List E} {e : E} : e ∈ scan key live snap log ↔
    live e ∧ (log.reverse.find? (fun d => key d = key e) = some e ∨
      key e ∉ log.map key ∧ e ∈ snap) := by
  rw [scan, List.mem_append, mem_survivors, List.mem_filter]
  simp
  tauto

theorem mem_scan_last {snap log : List E} {e d : E} (member : d ∈ scan key live snap (log ++ [e]))
    (same : key d = key e) : d = e := by
  obtain ⟨-, newest | ⟨outside, -⟩⟩ := mem_scan.mp member
  · simpa [same] using newest.symm
  · exact absurd (by simp [same]) outside

theorem last_mem_scan {snap log : List E} {e : E} (alive : live e) : e ∈ scan key live snap (log ++ [e]) :=
  mem_scan.mpr ⟨alive, .inl (by simp)⟩

theorem survivors_marked {seen marked : List K} {k : K} (same : ∀ x, x ∈ marked ↔ x ∈ seen ∨ x = k)
    (newest : List E) :
    survivors key live marked newest = (survivors key live seen newest).filter fun e => key e ≠ k := by
  induction newest generalizing seen marked with
  | nil => rfl
  | cons e older ih =>
      rw [survivors, survivors]
      by_cases old : key e ∈ seen
      · rw [if_pos old, if_pos ((same _).mpr (.inl old))]
        exact ih same
      · rw [if_neg old, List.filter_append]
        by_cases here : key e = k
        · have rest : survivors key live marked older =
              (survivors key live (key e :: seen) older).filter fun d => key d ≠ k := ih fun x => by
            rw [same, List.mem_cons, here]
            tauto
          rw [if_pos ((same _).mpr (.inr here)), rest]
          split <;> simp [here]
        · have rest : survivors key live (key e :: marked) older =
              (survivors key live (key e :: seen) older).filter fun d => key d ≠ k := ih fun x => by
            rw [List.mem_cons, List.mem_cons, same]
            tauto
          have unmarked : key e ∉ marked := fun inside => ((same _).mp inside).elim old here
          rw [if_neg unmarked, rest]
          split <;> simp [here]

theorem scan_snoc (snap log : List E) (e : E) : scan key live snap (log ++ [e]) =
    (if live e then [e] else []) ++ (scan key live snap log).filter fun d => key d ≠ key e := by
  have marked : survivors key live [key e] log.reverse =
      (survivors key live [] log.reverse).filter fun d => key d ≠ key e :=
    survivors_marked (by simp) log.reverse
  rw [scan, List.reverse_append, List.reverse_singleton, List.singleton_append, survivors, marked, scan,
    List.filter_append, List.filter_filter, if_neg List.not_mem_nil, List.append_assoc]
  congr 2
  apply List.filter_congr
  intro d _
  by_cases here : key d = key e <;> simp [here]

theorem scan_represents {snap log : List E} {m : K → Option E} (represents : Represents key snap m)
    (alive : ∀ e ∈ snap, live e) :
    Represents key (scan key live snap log) (replay key live m log) := by
  constructor
  · rw [scan, List.map_append, List.nodup_append]
    refine ⟨survivors_nodup _ _, ?_, ?_⟩
    · exact ((List.map_reverse ▸ List.nodup_reverse.mpr represents.nodup).sublist
        (List.filter_sublist.map key))
    · rintro k young k' old rfl
      obtain ⟨e, kept, rfl⟩ := List.mem_map.mp old
      have new := (survivors_keys young).2
      have outside := (List.mem_filter.mp kept).2
      simp_all
  · intro k e
    rw [replay_apply, mem_scan]
    cases found : log.reverse.find? (fun d => key d = k) with
    | none =>
        have absent : k ∉ log.map key := by
          intro member
          obtain ⟨d, inside, equal⟩ := List.mem_map.mp member
          have := List.find?_eq_none.mp found d (by simpa using inside)
          simp_all
        simp only [represents.mem]
        constructor
        · rintro ⟨inside, rfl⟩
          exact ⟨⟨alive e inside, .inr ⟨absent, inside⟩⟩, rfl⟩
        · rintro ⟨⟨-, first | ⟨-, inside⟩⟩, rfl⟩
          · rw [found] at first; cases first
          · exact ⟨inside, rfl⟩
    | some d =>
        have equal : key d = k := by simpa using List.find?_some found
        have inside : d ∈ log := by simpa using List.mem_of_find?_eq_some found
        constructor
        · intro current
          by_cases alive : live d
          · simp only [alive, if_true, Option.some.injEq] at current
            subst current
            exact ⟨⟨alive, .inl (equal ▸ found)⟩, equal⟩
          · simp [alive] at current
        · rintro ⟨⟨alive, first | ⟨absent, -⟩⟩, rfl⟩
          · rw [found, Option.some.injEq] at first
            subst first
            simp [alive]
          · exact (absent (List.mem_map.mpr ⟨d, inside, equal⟩)).elim

theorem scan_perm {snap log : List E} (nodup : ((snap ++ log).map key).Nodup)
    (alive : ∀ e ∈ snap ++ log, live e) : (scan key live snap log).Perm (snap ++ log) := by
  have old : ∀ e ∈ snap, live e := fun e member => alive e (List.mem_append_left _ member)
  have snapshot : Represents key snap (replay key live (fun _ => none) snap) :=
    .of_nodup (by rw [List.map_append] at nodup; exact nodup.of_append_left) old
  have scanned : Represents key (scan key live snap log) _ := scan_represents snapshot old
  rw [← replay_append] at scanned
  exact scanned.perm (.of_nodup nodup alive)

end LastWrite

end Radix.Lib
