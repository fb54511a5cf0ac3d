import Radix.Graph.VertexArray
import Radix.Lib.Linearizable
import Radix.Lib.Locks

/-!
# Concurrent calls on a vertex array

`RetrieveVertex` and `DeleteVertex` of `vertex_array.cpp`, step by step; they answer as if each took place at once, and
leave the array as if they had.
-/

namespace Radix

open Lib

namespace VertexArray

inductive Call where
  | retrieve (id : NodeID) (insertMode : Bool)
  | delete (id : NodeID)
  deriving DecidableEq, Repr

inductive Answer where
  | record (v : Option Nat)
  | deleted (done : Bool)
  deriving DecidableEq, Repr

def Call.id : Call → NodeID
  | .retrieve id _ | .delete id => id

variable {W : Type} [Zero W]

def serve (info : GlobalInfo) (array : VertexArray W) : Call → Result (Answer × VertexArray W)
  | .retrieve id insertMode => do
      let (v, array) ← array.retrieveVertex id insertMode
      .ok (.record v, array)
  | .delete id => do
      let (done, array) ← array.deleteVertex info id
      .ok (.deleted done, array)

structure Shared (W : Type) [Zero W] where
  array : VertexArray W
  mtx : NodeID → Bool

inductive Pc where
  | readIdx | lock | recheck | storeNext | storeNode | storeIdx | unlock | storeDelTime
  | returned (answer : Answer)
  deriving DecidableEq, Repr

/-- Where a call goes that has read `idx == -1`. -/
def Call.absent : Call → Pc
  | .retrieve _ true => .lock
  | .retrieve _ false => .returned (.record none)
  | .delete _ => .returned (.deleted false)

/-- Where a call goes that has read another `idx`. -/
def Call.present : Call → Pc
  | .retrieve id _ => .returned (.record (some id))
  | .delete _ => .storeDelTime

def modify (array : VertexArray W) (k : Nat) (change : Vertex W → Vertex W) : VertexArray W :=
  { array with vertexTable := array.vertexTable.modify k change }

def next (info : GlobalInfo) (call : Call) (s : Shared W) : Pc → Option (Shared W × Pc)
  | .readIdx => s.array.vertexTable[call.id]?.map fun v => (s, if v.idx = -1 then call.absent else call.present)
  | .lock =>
      if s.mtx call.id then none else some ({ s with mtx := Function.update s.mtx call.id true }, .recheck)
  | .recheck => s.array.vertexTable[call.id]?.map fun v => (s, if v.idx = -1 then .storeNext else .unlock)
  | .storeNext =>
      some ({ s with array := s.array.modify call.id fun v => { v with next := [.new 8] } }, .storeNode)
  | .storeNode => some ({ s with array := s.array.modify call.id fun v => { v with node := call.id } }, .storeIdx)
  | .storeIdx => some ({ s with array := s.array.modify call.id fun v => { v with idx := call.id } }, .unlock)
  | .unlock =>
      some ({ s with mtx := Function.update s.mtx call.id false }, .returned (.record (some call.id)))
  | .storeDelTime =>
      some ({ s with array := s.array.modify call.id fun v => { v with delTime := info.globalTimestamp } },
        .returned (.deleted true))
  | .returned _ => none

abbrev State (W : Type) [Zero W] := Threads (Shared W) Pc Nat

def nextOf (info : GlobalInfo) (calls : Nat → Call) (t : Nat) (s : Shared W) (pc : Pc) : Option (Shared W × Pc) :=
  next info (calls t) s pc

def initial (array : VertexArray W) : State W := ⟨⟨array, fun _ => false⟩, fun _ => .readIdx⟩

namespace Pc

def holds (id : NodeID) : Pc → Option NodeID
  | .recheck | .storeNext | .storeNode | .storeIdx | .unlock => some id
  | _ => none

def fills (id : NodeID) : Pc → Option NodeID
  | .storeNext | .storeNode | .storeIdx => some id
  | _ => none

def built (id : NodeID) (v : Vertex W) : Pc → Vertex W
  | .storeNode => { v with next := [.new 8] }
  | .storeIdx => { v with next := [.new 8], node := id }
  | _ => v

def answer (id : NodeID) : Pc → Option Answer
  | .unlock => some (.record (some id))
  | .returned a => some a
  | _ => none

def left : Pc → Nat
  | .readIdx => 7
  | .lock => 6
  | .recheck => 5
  | .storeNext => 4
  | .storeNode => 3
  | .storeIdx => 2
  | .unlock | .storeDelTime => 1
  | .returned _ => 0

end Pc

def Shared.content (s : Shared W) (k : NodeID) : Option Int :=
  (s.array.vertexTable[k]?.map Vertex.idx).filter (· ≠ -1)

def Knows (s : Shared W) (call : Call) : Pc → Prop
  | .lock | .recheck | .storeNext | .storeNode | .storeIdx => call = .retrieve call.id true
  | .unlock => call = .retrieve call.id true ∧ s.content call.id ≠ none
  | .storeDelTime => call = .delete call.id ∧ s.content call.id ≠ none
  | _ => True

/-- The array `d` is that of the calls that have taken effect; in the shared one records are being made besides. -/
structure Serving (calls : Nat → Call) (c : State W) (d : VertexArray W) : Prop where
  guarded : Guarded (fun t => (c.local' t).holds (calls t).id) (fun t => (c.local' t).fills (calls t).id)
    c.shared.mtx c.shared.content
  owned : ∀ k, c.shared.mtx k = true → ∃ t, (c.local' t).holds (calls t).id = some k
  idle : ∀ k, (∀ t, (c.local' t).fills (calls t).id ≠ some k) → c.shared.array.vertexTable[k]? = d.vertexTable[k]?
  busy : ∀ t k, (c.local' t).fills (calls t).id = some k →
    c.shared.array.vertexTable[k]? = d.vertexTable[k]?.map fun v => (c.local' t).built k v
  cnt : c.shared.array.cnt = d.cnt
  room : ∀ t, (calls t).id < c.shared.array.vertexTable.length
  knows : ∀ t, Knows c.shared (calls t) (c.local' t)

variable {info : GlobalInfo} {calls : Nat → Call} {call : Call} {s s' : Shared W} {pc pc' : Pc} {c c' : State W}
  {array d : VertexArray W} {k t : Nat}

/-! ## One record -/

theorem modify_record (array : VertexArray W) (k j : Nat) (change : Vertex W → Vertex W) :
    (array.modify k change).vertexTable[j]? =
      if j = k then array.vertexTable[j]?.map change else array.vertexTable[j]? := by
  rw [modify, List.getElem?_modify]
  by_cases here : k = j
  · subst here
    simp
  · simp [here, Ne.symm here]

theorem setVertex_eq_modify {v : Vertex W} (there : array.vertexTable[k]? = some v) (change : Vertex W → Vertex W) :
    array.setVertex k (change v) = array.modify k change := by
  rw [setVertex, modify, List.modify_eq_set_getElem?, there]
  rfl

theorem content_of_record {v : Vertex W} (there : s.array.vertexTable[k]? = some v) :
    s.content k = if v.idx = -1 then none else some v.idx := by
  rw [Shared.content, there]
  by_cases unused : v.idx = -1 <;> simp [unused]

theorem content_modify {change : Vertex W → Vertex W} (same : ∀ v, (change v).idx = v.idx) (mtx : NodeID → Bool) :
    Shared.content ⟨s.array.modify k change, mtx⟩ = s.content := by
  funext j
  rw [Shared.content, Shared.content, modify_record]
  split
  · rw [Option.map_map]
    congr 2
    funext v
    exact same v
  · rfl

theorem content_store (inside : k < s.array.vertexTable.length) (mtx : NodeID → Bool) :
    Shared.content ⟨s.array.modify k fun v => { v with idx := k }, mtx⟩ =
      Function.update s.content k (some (k : Int)) := by
  funext j
  by_cases here : j = k
  · subst here
    rw [Function.update_self, Shared.content, modify_record, if_pos rfl, List.getElem?_eq_getElem inside]
    simp
  · rw [Function.update_of_ne here, Shared.content, Shared.content, modify_record, if_neg here]

/-! ## Locks -/

theorem Call.outside (call : Call) : (call.absent.holds call.id = none ∧ call.absent.fills call.id = none) ∧
    call.present.holds call.id = none ∧ call.present.fills call.id = none := by
  cases call with
  | retrieve id insertMode => cases insertMode <;> exact ⟨⟨rfl, rfl⟩, rfl, rfl⟩
  | delete id => exact ⟨⟨rfl, rfl⟩, rfl, rfl⟩

theorem next_touches (knows : Knows s call pc) (room : call.id < s.array.vertexTable.length)
    (taken : next info call s pc = some (s', pc')) :
    Touches s.mtx s.content (pc.holds call.id) (pc.fills call.id) s'.mtx s'.content (pc'.holds call.id)
      (pc'.fills call.id) := by
  cases pc with
  | readIdx =>
      obtain ⟨v, -, ⟨⟩⟩ := Option.map_eq_some_iff.mp taken
      obtain ⟨absent, present⟩ := call.outside
      split
      · rw [absent.1, absent.2]
        exact .look nofun
      · rw [present.1, present.2]
        exact .look nofun
  | lock =>
      simp only [next] at taken
      split at taken
      · contradiction
      · rename_i clear
        cases taken
        exact .acquire rfl (Bool.eq_false_iff.mpr clear)
  | recheck =>
      obtain ⟨v, there, ⟨⟩⟩ := Option.map_eq_some_iff.mp taken
      have kept : Pc.holds call.id (if v.idx = -1 then .storeNext else .unlock) = some call.id := by split <;> rfl
      rw [kept]
      refine .look fun k same => .inr ?_
      split at same
      · rename_i unused
        cases same
        exact ⟨rfl, by rw [content_of_record there, if_pos unused]⟩
      · cases same
  | storeNext | storeNode =>
      cases taken
      rw [content_modify]
      · exact .look fun k same => .inl same
      · exact fun _ => rfl
  | storeIdx =>
      cases taken
      rw [content_store room]
      exact .fill _ rfl
  | unlock =>
      cases taken
      exact .release rfl rfl
  | storeDelTime =>
      cases taken
      rw [content_modify]
      · exact .look nofun
      · exact fun _ => rfl
  | returned a => cases taken

theorem Knows.kept (knows : Knows s call pc) (kept : ∀ k i, s.content k = some i → s'.content k = some i) :
    Knows s' call pc := by
  have still {k : NodeID} (used : s.content k ≠ none) : s'.content k ≠ none := by
    obtain ⟨i, there⟩ := Option.ne_none_iff_exists'.mp used
    exact ne_of_eq_of_ne (kept k i there) (Option.some_ne_none i)
  cases pc with
  | unlock | storeDelTime => exact ⟨knows.1, still knows.2⟩
  | _ => exact knows

theorem Knows.next (knows : Knows s call pc) (room : call.id < s.array.vertexTable.length)
    (taken : next info call s pc = some (s', pc')) : Knows s' call pc' := by
  cases pc with
  | readIdx =>
      obtain ⟨v, there, ⟨⟩⟩ := Option.map_eq_some_iff.mp taken
      by_cases unused : v.idx = -1
      · rw [if_pos unused]
        cases call with
        | retrieve id insertMode => cases insertMode <;> first | exact rfl | trivial
        | delete id => trivial
      · rw [if_neg unused]
        cases call with
        | retrieve id insertMode => trivial
        | delete id =>
            refine ⟨rfl, ?_⟩
            rw [content_of_record there, if_neg unused]
            exact Option.some_ne_none v.idx
  | lock =>
      simp only [VertexArray.next] at taken
      split at taken <;> cases taken
      exact knows
  | recheck =>
      obtain ⟨v, there, ⟨⟩⟩ := Option.map_eq_some_iff.mp taken
      by_cases unused : v.idx = -1
      · rw [if_pos unused]
        exact knows
      · rw [if_neg unused]
        refine ⟨knows, ?_⟩
        rw [content_of_record there, if_neg unused]
        exact Option.some_ne_none v.idx
  | storeNext | storeNode =>
      cases taken
      exact knows
  | storeIdx =>
      cases taken
      refine ⟨knows, ?_⟩
      rw [content_store room, Function.update_self]
      exact Option.some_ne_none _
  | unlock | storeDelTime =>
      cases taken
      trivial
  | returned a => cases taken

/-! ## The shared array and the one of the calls that have taken effect -/

theorem Pc.built_idx (id : NodeID) (v : Vertex W) (pc : Pc) : (pc.built id v).idx = v.idx := by
  cases pc <;> rfl

theorem Pc.built_idle {id : NodeID} (idle : pc.fills id = none) (v : Vertex W) : pc.built id v = v := by
  cases pc <;> first | rfl | cases idle

theorem Pc.fills_id {id : NodeID} (fills : pc.fills id = some k) : k = id := by
  cases pc <;> cases fills <;> rfl

namespace Serving

theorem record (serving : Serving calls c d) (alone : ∀ u, u ≠ t → (c.local' u).fills (calls u).id ≠ some (calls t).id) :
    c.shared.array.vertexTable[(calls t).id]? =
      d.vertexTable[(calls t).id]?.map fun v => (c.local' t).built (calls t).id v := by
  cases here : (c.local' t).fills (calls t).id with
  | some k =>
      obtain rfl := Pc.fills_id here
      exact serving.busy t _ here
  | none =>
      rw [serving.idle]
      · simp only [Pc.built_idle here, Option.map_id']
      · intro u
        by_cases own : u = t
        · rw [own, here]
          exact Option.some_ne_none _ ∘ Eq.symm
        · exact alone u own

theorem idx (serving : Serving calls c d) (k : NodeID) :
    c.shared.array.vertexTable[k]?.map Vertex.idx = d.vertexTable[k]?.map Vertex.idx := by
  by_cases busy : ∃ t, (c.local' t).fills (calls t).id = some k
  · obtain ⟨t, fills⟩ := busy
    rw [serving.busy t k fills, Option.map_map]
    congr 1
    funext v
    exact Pc.built_idx k v (c.local' t)
  · rw [serving.idle k fun t fills => busy ⟨t, fills⟩]

theorem locks (serving : Serving calls c d) (taken : next info (calls t) c.shared (c.local' t) = some (s', pc')) :
    Guarded (fun u => (Function.update c.local' t pc' u).holds (calls u).id)
      (fun u => (Function.update c.local' t pc' u).fills (calls u).id) s'.mtx s'.content ∧
    (∀ k, s'.mtx k = true → ∃ u, (Function.update c.local' t pc' u).holds (calls u).id = some k) ∧
    ∀ u, Knows s' (calls u) (Function.update c.local' t pc' u) := by
  have touches := next_touches (serving.knows t) (serving.room t) taken
  have holds : (fun u => (Function.update c.local' t pc' u).holds (calls u).id) =
      Function.update (fun u => (c.local' u).holds (calls u).id) t (pc'.holds (calls t).id) :=
    funext fun u => Function.apply_update (fun u pc => Pc.holds (calls u).id pc) c.local' t pc' u
  have fills : (fun u => (Function.update c.local' t pc' u).fills (calls u).id) =
      Function.update (fun u => (c.local' u).fills (calls u).id) t (pc'.fills (calls t).id) :=
    funext fun u => Function.apply_update (fun u pc => Pc.fills (calls u).id pc) c.local' t pc' u
  refine ⟨?_, fun k set => ?_, fun u => ?_⟩
  · rw [holds, fills]
    exact serving.guarded.touch (t := t) touches
  · obtain ⟨u, held⟩ := Touches.owned (t := t) serving.owned touches k set
    exact ⟨u, (congrFun holds u).trans held⟩
  · by_cases own : u = t
    · subst own
      rw [Function.update_self]
      exact (serving.knows u).next (serving.room u) taken
    · rw [Function.update_of_ne own]
      exact (serving.knows u).kept fun k i there => serving.guarded.touch_kept (t := t) touches there

theorem stay (serving : Serving calls c d) (taken : next info (calls t) c.shared (c.local' t) = some (s', pc'))
    (array : s'.array = c.shared.array) (before : (c.local' t).fills (calls t).id = none)
    (after : pc'.fills (calls t).id = none) : Serving calls ⟨s', Function.update c.local' t pc'⟩ d := by
  obtain ⟨guarded, owned, knows⟩ := serving.locks taken
  have same (u : Nat) : (Function.update c.local' t pc' u).fills (calls u).id = (c.local' u).fills (calls u).id := by
    by_cases own : u = t
    · rw [own, Function.update_self, before, after]
    · rw [Function.update_of_ne own]
  refine ⟨guarded, owned, fun k idle => ?_, fun u k fills => ?_, array ▸ serving.cnt, array ▸ serving.room, knows⟩
  · dsimp only at idle ⊢
    rw [array]
    exact serving.idle k fun u => same u ▸ idle u
  · dsimp only at fills ⊢
    have own : u ≠ t := by
      rintro rfl
      rw [same, before] at fills
      cases fills
    rw [same] at fills
    rw [array, Function.update_of_ne own]
    exact serving.busy u k fills

theorem change (serving : Serving calls c d) (taken : next info (calls t) c.shared (c.local' t) = some (s', pc'))
    {f g : Vertex W → Vertex W} (array : s'.array = c.shared.array.modify (calls t).id f)
    (alone : ∀ u, u ≠ t → (c.local' u).fills (calls u).id ≠ some (calls t).id)
    (agree : ∀ v, f ((c.local' t).built (calls t).id v) = pc'.built (calls t).id (g v)) :
    Serving calls ⟨s', Function.update c.local' t pc'⟩ (d.modify (calls t).id g) := by
  obtain ⟨guarded, owned, knows⟩ := serving.locks taken
  have own : s'.array.vertexTable[(calls t).id]? =
      (d.modify (calls t).id g).vertexTable[(calls t).id]?.map fun v => pc'.built (calls t).id v := by
    rw [array, modify_record, if_pos rfl, modify_record, if_pos rfl, serving.record alone, Option.map_map,
      Option.map_map]
    congr 1
    funext v
    exact agree v
  refine ⟨guarded, owned, fun k idle => ?_, fun u k fills => ?_, ?_, fun u => ?_, knows⟩
  · dsimp only at idle ⊢
    by_cases here : k = (calls t).id
    · subst here
      have idle' : pc'.fills (calls t).id = none := by
        by_contra busy
        obtain ⟨k, fills⟩ := Option.ne_none_iff_exists'.mp busy
        apply idle t
        rw [Function.update_self, fills, Pc.fills_id fills]
      rw [own]
      simp only [Pc.built_idle idle', Option.map_id']
    · rw [array, modify_record, if_neg here, modify_record, if_neg here]
      apply serving.idle
      intro u fills
      by_cases mine : u = t
      · subst mine
        exact here (Pc.fills_id fills)
      · apply idle u
        rwa [Function.update_of_ne mine]
  · dsimp only at fills ⊢
    by_cases mine : u = t
    · subst mine
      rw [Function.update_self] at fills ⊢
      obtain rfl := Pc.fills_id fills
      exact own
    · rw [Function.update_of_ne mine] at fills ⊢
      have here : k ≠ (calls t).id := by
        rintro rfl
        exact alone u mine fills
      rw [array, modify_record, if_neg here, modify_record, if_neg here]
      exact serving.busy u k fills
  · dsimp only
    rw [array]
    exact serving.cnt
  · dsimp only
    rw [array, modify, List.length_modify]
    exact serving.room u

end Serving

/-! ## Answers -/

theorem retrieveVertex_record {v : Vertex W} (there : array.vertexTable[k]? = some v) (insertMode : Bool) :
    array.retrieveVertex k insertMode =
      if v.idx = -1 then
        if insertMode then .ok (some k, array.modify k fun v => newVertex v k) else .ok (none, array)
      else .ok (some k, array) := by
  rw [retrieveVertex, vertexAt, there, ok_bind, setVertex_eq_modify there fun v => newVertex v k]

theorem deleteVertex_record {v : Vertex W} (there : array.vertexTable[k]? = some v) :
    array.deleteVertex info k = if v.idx = -1 then .ok (false, array)
      else .ok (true, array.modify k fun v => { v with delTime := info.globalTimestamp }) := by
  by_cases unused : v.idx = -1
  · rw [deleteVertex, retrieveVertex_record there, if_pos unused, if_pos unused, if_neg Bool.false_ne_true, ok_bind]
  · rw [deleteVertex, retrieveVertex_record there, if_neg unused, if_neg unused, ok_bind,
      ← setVertex_eq_modify there fun v => { v with delTime := info.globalTimestamp }]
    dsimp only
    rw [vertexAt, there, ok_bind]

theorem Call.absent_serves {v : Vertex W} (call : Call) (there : d.vertexTable[call.id]? = some v)
    (unused : v.idx = -1) : call.absent.answer call.id = none ∨
      ∃ a, call.absent.answer call.id = some a ∧ serve info d call = .ok (a, d) := by
  cases call with
  | retrieve id insertMode =>
      cases insertMode with
      | true => exact .inl rfl
      | false =>
          refine .inr ⟨_, rfl, ?_⟩
          change d.vertexTable[id]? = some v at there
          rw [serve, retrieveVertex_record there, if_pos unused]
          rfl
  | delete id =>
      refine .inr ⟨_, rfl, ?_⟩
      change d.vertexTable[id]? = some v at there
      rw [serve, deleteVertex_record there, if_pos unused, ok_bind]

theorem Call.present_serves {v : Vertex W} (call : Call) (there : d.vertexTable[call.id]? = some v)
    (used : v.idx ≠ -1) : call.present.answer call.id = none ∨
      ∃ a, call.present.answer call.id = some a ∧ serve info d call = .ok (a, d) := by
  cases call with
  | retrieve id insertMode =>
      refine .inr ⟨_, rfl, ?_⟩
      change d.vertexTable[id]? = some v at there
      rw [serve, retrieveVertex_record there, if_neg used, ok_bind]
  | delete id => exact .inl rfl

/-- What a call may answer where the array is `d`, and what becomes of it. -/
def Allowed (info : GlobalInfo) (calls : Nat → Call) (d : VertexArray W) (t : Nat) (a : Answer) (d' : VertexArray W) :
    Prop :=
  serve info d (calls t) = .ok (a, d')

theorem Serving.seen (serving : Serving calls c d) {v : Vertex W} (there : c.shared.array.vertexTable[k]? = some v) :
    ∃ w, d.vertexTable[k]? = some w ∧ w.idx = v.idx := by
  have idx := serving.idx k
  rw [there, Option.map_some, eq_comm] at idx
  exact Option.map_eq_some_iff.mp idx

theorem Serving.used (serving : Serving calls c d) (used : c.shared.content k ≠ none) :
    ∃ w, d.vertexTable[k]? = some w ∧ w.idx ≠ -1 := by
  obtain ⟨i, there⟩ := Option.ne_none_iff_exists'.mp used
  rw [Shared.content, serving.idx k] at there
  obtain ⟨found, other⟩ := Option.filter_eq_some_iff.mp there
  obtain ⟨w, at_k, rfl⟩ := Option.map_eq_some_iff.mp found
  exact ⟨w, at_k, by simpa using other⟩

theorem Serving.unused (serving : Serving calls c d) (fills : (c.local' t).fills (calls t).id = some (calls t).id) :
    ∃ w, d.vertexTable[(calls t).id]? = some w ∧ w.idx = -1 := by
  have there := List.getElem?_eq_getElem (serving.room t)
  obtain ⟨w, at_id, same⟩ := serving.seen there
  have empty := serving.guarded.empty t (calls t).id fills
  rw [content_of_record there] at empty
  refine ⟨w, at_id, ?_⟩
  by_contra used
  rw [if_neg (same ▸ used)] at empty
  cases empty

theorem Serving.alone_of_holds (serving : Serving calls c d) (held : (c.local' t).holds (calls t).id = some k) (u : Nat)
    (other : u ≠ t) : (c.local' u).fills (calls u).id ≠ some k := fun fills =>
  other (serving.guarded.once u t k (serving.guarded.within u k fills) held)

theorem Serving.alone_of_used (serving : Serving calls c d) (used : c.shared.content k ≠ none) (u : Nat) :
    (c.local' u).fills (calls u).id ≠ some k := fun fills => used (serving.guarded.empty u k fills)

theorem modify_id (array : VertexArray W) (k : Nat) : array.modify k id = array := by
  rw [modify, List.modify_id]

theorem serving_effective (info : GlobalInfo) (calls : Nat → Call) :
    Threads.Effective (Allowed info calls) (fun t => Pc.answer (calls t).id) (Serving (W := W) calls)
      (nextOf info calls) where
  keeps c d t c' serving taken := by
    obtain ⟨s', pc', moved, rfl⟩ := Threads.step_eq_some.mp taken
    change next info (calls t) c.shared (c.local' t) = some (s', pc') at moved
    have knows := serving.knows t
    have stay := serving.stay moved
    have change (f g : Vertex W → Vertex W) := serving.change moved (f := f) (g := g)
    have alone := serving.alone_of_holds (t := t) (k := (calls t).id)
    dsimp only
    rw [Function.update_self]
    cases here : c.local' t with
    | readIdx =>
        rw [here] at moved stay
        obtain ⟨v, there, ⟨⟩⟩ := Option.map_eq_some_iff.mp moved
        obtain ⟨w, at_id, same⟩ := serving.seen there
        obtain ⟨absent, present⟩ := (calls t).outside
        by_cases unused : v.idx = -1
        · rw [if_pos unused] at stay ⊢
          have serving' := stay rfl rfl absent.2
          rcases (calls t).absent_serves at_id (same.trans unused) with going | ⟨a, answered, served⟩
          · exact .inl ⟨going, serving'⟩
          · exact .inr ⟨rfl, a, d, answered, served, serving'⟩
        · rw [if_neg unused] at stay ⊢
          have serving' := stay rfl rfl present.2
          rcases (calls t).present_serves at_id (same ▸ unused) with going | ⟨a, answered, served⟩
          · exact .inl ⟨going, serving'⟩
          · exact .inr ⟨rfl, a, d, answered, served, serving'⟩
    | lock =>
        rw [here] at moved stay
        simp only [next] at moved
        split at moved <;> cases moved
        exact .inl ⟨rfl, stay rfl rfl rfl⟩
    | recheck =>
        rw [here] at moved stay change alone knows
        obtain ⟨v, there, ⟨⟩⟩ := Option.map_eq_some_iff.mp moved
        by_cases unused : v.idx = -1
        · rw [if_pos unused] at change ⊢
          refine .inl ⟨rfl, ?_⟩
          rw [← modify_id d (calls t).id]
          exact change id id (modify_id _ _).symm (alone rfl) fun _ => rfl
        · rw [if_neg unused] at stay ⊢
          obtain ⟨w, at_id, same⟩ := serving.seen there
          refine .inr ⟨rfl, _, d, rfl, ?_, stay rfl rfl rfl⟩
          rw [Allowed, knows, serve, retrieveVertex_record at_id, if_neg (same ▸ unused), ok_bind]
          rfl
    | storeNext | storeNode =>
        rw [here] at moved change alone
        cases moved
        refine .inl ⟨rfl, ?_⟩
        rw [← modify_id d (calls t).id]
        exact change _ id rfl (alone rfl) fun _ => rfl
    | storeIdx =>
        have unused := serving.unused (t := t) (by rw [here]; rfl)
        rw [here] at moved change alone knows
        cases moved
        obtain ⟨w, at_id, unused⟩ := unused
        refine .inr ⟨rfl, _, _, rfl, ?_, change _ (newVertex · (calls t).id) rfl (alone rfl) fun _ => rfl⟩
        rw [Allowed, knows, serve, Call.id, retrieveVertex_record at_id, if_pos unused, if_pos rfl, ok_bind]
    | unlock =>
        rw [here] at moved stay
        cases moved
        exact .inl ⟨rfl, stay rfl rfl rfl⟩
    | storeDelTime =>
        rw [here] at moved change knows
        cases moved
        obtain ⟨w, at_id, used⟩ := serving.used knows.2
        refine .inr ⟨rfl, _, _, rfl, ?_, change _ _ rfl (fun u _ => serving.alone_of_used knows.2 u) fun _ => rfl⟩
        rw [Allowed, knows.1, serve, deleteVertex_record at_id, if_neg used, ok_bind]
        rfl
    | returned a =>
        rw [here] at moved
        cases moved

/-! ## Runs -/

theorem initial_serving (inside : ∀ t, (calls t).id < array.vertexTable.length) :
    Serving calls (initial array) array where
  guarded := .start
  owned k set := by cases set
  idle k _ := rfl
  busy t k fills := by cases fills
  cnt := rfl
  room := inside
  knows _ := trivial

theorem Serving.array_eq (serving : Serving calls c d) (idle : ∀ t, (c.local' t).fills (calls t).id = none) :
    c.shared.array = d := by
  have table : c.shared.array.vertexTable = d.vertexTable := by
    apply List.ext_getElem?
    intro k
    apply serving.idle
    intro t
    rw [idle]
    exact nofun
  have cnt := serving.cnt
  generalize c.shared.array = a at table cnt
  cases a
  cases d
  cases table
  cases cnt
  rfl

theorem Call.left_after (call : Call) : call.absent.left < 7 ∧ call.present.left < 7 := by
  cases call with
  | retrieve id insertMode => cases insertMode <;> simp [absent, present, Pc.left]
  | delete id => simp [absent, present, Pc.left]

theorem left_of_next (taken : next info call s pc = some (s', pc')) : pc'.left < pc.left := by
  cases pc with
  | readIdx =>
      obtain ⟨v, -, ⟨⟩⟩ := Option.map_eq_some_iff.mp taken
      split
      · exact call.left_after.1
      · exact call.left_after.2
  | lock =>
      simp only [next] at taken
      split at taken <;> cases taken
      exact Nat.lt_succ_self _
  | recheck =>
      obtain ⟨v, -, ⟨⟩⟩ := Option.map_eq_some_iff.mp taken
      split <;> decide
  | storeNext | storeNode | storeIdx | unlock | storeDelTime =>
      cases taken
      exact Nat.lt_succ_self _
  | returned a => cases taken

theorem Serving.stuck (serving : Serving calls c d) (stuck : next info (calls t) c.shared (c.local' t) = none) :
    (∃ a, c.local' t = .returned a) ∨ c.local' t = .lock ∧ c.shared.mtx (calls t).id = true := by
  cases here : c.local' t with
  | readIdx | recheck =>
      rw [here, next, List.getElem?_eq_getElem (serving.room t)] at stuck
      cases stuck
  | lock =>
      rw [here] at stuck
      simp only [next] at stuck
      split at stuck
      · rename_i set
        exact .inr ⟨rfl, set⟩
      · cases stuck
  | returned a => exact .inl ⟨a, rfl⟩
  | storeNext | storeNode | storeIdx | unlock | storeDelTime =>
      rw [here] at stuck
      cases stuck

theorem Serving.goes_on (serving : Serving calls c d) (info : GlobalInfo) (unended : ∀ a, c.local' t ≠ .returned a) :
    ∃ u, Threads.step (nextOf info calls) c u ≠ none ∧
      (u = t ∨ (c.local' u).holds (calls u).id = some (calls t).id) := by
  by_cases moves : nextOf info calls t c.shared (c.local' t) = none
  · rcases serving.stuck moves with ⟨a, ended⟩ | ⟨-, set⟩
    · exact absurd ended (unended a)
    · obtain ⟨u, held⟩ := serving.owned _ set
      refine ⟨u, fun blocked => ?_, .inr held⟩
      rcases serving.stuck (Threads.step_eq_none.mp blocked) with ⟨a, ended⟩ | ⟨waiting, -⟩
      · rw [ended] at held
        cases held
      · rw [waiting] at held
        cases held
  · exact ⟨t, fun blocked => moves (Threads.step_eq_none.mp blocked), .inl rfl⟩

/-- However the steps of concurrent calls interleave, the calls that have taken effect make a run of the sequential
operations, one after the other, that has all that have returned, with their answers, and a call that returned before
another began before that one. Every call takes at most seven steps; when none can go on, all have returned, and the
array is what that run makes of it. -/
theorem calls_sequential (info : GlobalInfo) (array : VertexArray W) (calls : Nat → Call)
    (inside : ∀ t, (calls t).id < array.vertexTable.length) {schedule : List Nat} {c : State W}
    (ran : Threads.run (nextOf info calls) (initial array) schedule = some c) :
    (∃ history d, Legal (Allowed info calls) array history d ∧ (history.map Prod.fst).Nodup ∧
      (∀ t a, (t, a) ∈ history → t ∈ schedule) ∧ (∀ t a, c.local' t = .returned a → (t, a) ∈ history) ∧
      (∀ earlier later middle, schedule = earlier ++ later →
        Threads.run (nextOf info calls) (initial array) earlier = some middle →
        ∃ front back, history = front ++ back ∧ (∀ t a, middle.local' t = .returned a → (t, a) ∈ front) ∧
          ∀ t a, middle.local' t = .readIdx → (t, a) ∉ front) ∧
      ((∀ t ∈ schedule, Threads.step (nextOf info calls) c t = none) →
        (∀ t ∈ schedule, ∃ a, c.local' t = .returned a) ∧ c.shared.array = d)) ∧
    ∀ t, schedule.count t ≤ 7 := by
  obtain ⟨history, d, linearized, serving, parts⟩ :=
    Threads.run_linearizes (serving_effective info calls) (initial_serving inside) (fun _ => rfl) ran
  refine ⟨⟨history, d, linearized.legal, linearized.nodup, fun t a member => ?_, fun t a ended => ?_,
    fun earlier later middle split before => ?_, fun stuck => ?_⟩, fun t => ?_⟩
  · by_contra absent
    have answered := (linearized.mem t a).mp member
    rw [Threads.run_local_absent absent ran] at answered
    cases answered
  · rw [linearized.mem, ended]
    rfl
  · obtain ⟨front, back, rfl, members⟩ := parts earlier later middle split before
    refine ⟨front, back, rfl, fun t a ended => ?_, fun t a begun => ?_⟩
    · rw [members, ended]
      rfl
    · rw [members, begun]
      rintro ⟨⟩
  · have ends : ∀ t ∈ schedule, ∃ a, c.local' t = .returned a := by
      refine Threads.run_ends ran (fun t unended => ?_) stuck
      obtain ⟨u, steps, who⟩ := serving.goes_on info (not_exists.mp unended)
      refine ⟨u, steps, who.imp_right fun held same => ?_⟩
      rw [same] at held
      cases held
    refine ⟨ends, serving.array_eq fun t => ?_⟩
    by_cases member : t ∈ schedule
    · obtain ⟨a, ended⟩ := ends t member
      rw [ended]
      rfl
    · rw [Threads.run_local_absent member ran]
      rfl
  · have descends (t : Nat) (s : Shared W) (pc : Pc) (s' : Shared W) (pc' : Pc)
        (taken : nextOf info calls t s pc = some (s', pc')) : (fun _ : Nat => Pc.left) t pc' < (fun _ => Pc.left) t pc :=
      left_of_next taken
    exact (Nat.le_add_right _ _).trans (Threads.run_count descends ran t)

def sameId (t : Nat) : Call := if t < 2 then .retrieve 1 true else .delete 1

theorem calls_sequential_same : ∃ (c : State Nat) (history : List (Nat × Answer)) (d : VertexArray Nat),
    Threads.run (nextOf ⟨0, true⟩ sameId) (initial (new 2)) [0, 1, 0, 0, 0, 2, 0, 0, 0, 1, 3, 1, 1, 3] = some c ∧
      Legal (Allowed ⟨0, true⟩ sameId) (new 2) history d ∧ (history.map Prod.fst).Nodup ∧
      (0, .record (some 1)) ∈ history ∧ (1, .record (some 1)) ∈ history ∧ (2, .deleted false) ∈ history ∧
      (3, .deleted true) ∈ history ∧ c.shared.array = d := by
  have inside (t : Nat) : (sameId t).id < (new 2 : VertexArray Nat).vertexTable.length := by
    rw [sameId]
    split <;> decide
  have ends : (Threads.run (nextOf ⟨0, true⟩ sameId) (initial (new 2) : State Nat)
      [0, 1, 0, 0, 0, 2, 0, 0, 0, 1, 3, 1, 1, 3]).map
      (fun c => ((c.local' 0, c.local' 1), c.local' 2, c.local' 3)) =
      some ((.returned (.record (some 1)), .returned (.record (some 1))), .returned (.deleted false),
        .returned (.deleted true)) := by decide
  obtain ⟨c, ran, returned⟩ := Option.map_eq_some_iff.mp ends
  simp only [Prod.mk.injEq] at returned
  obtain ⟨⟨zero, one⟩, two, three⟩ := returned
  obtain ⟨⟨history, d, legal, once, -, answers, -, last⟩, -⟩ := calls_sequential ⟨0, true⟩ (new 2) sameId inside ran
  have stuck : ∀ t ∈ [0, 1, 0, 0, 0, 2, 0, 0, 0, 1, 3, 1, 1, 3],
      Threads.step (nextOf ⟨0, true⟩ sameId) c t = none := by
    simp [Threads.step, nextOf, next, zero, one, two, three]
  exact ⟨c, history, d, ran, legal, once, answers 0 _ zero, answers 1 _ one, answers 2 _ two, answers 3 _ three,
    (last stuck).2⟩

end VertexArray

end Radix
