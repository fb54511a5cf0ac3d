import Mathlib.Data.List.Nodup
import Mathlib.Logic.Function.Basic
import Radix.Lib.Digits

/-!
# Digit tries

A trie maps digit lists of one fixed length to leaves. Nodes are total functions from digits to
subtries; `Grown ws` says that every node was made for the sake of a leaf below it and uses only
the digits that its width allows, and such a trie is determined by the leaves it stores.
-/

namespace Radix.Lib

universe u v

inductive Trie (α : Type u) where
  | empty
  | leaf (a : α)
  | node (children : Nat → Trie α)

namespace Trie

variable {α : Type u} {β : Type v}

def find : Trie α → List Nat → Trie α
  | t, [] => t
  | .node c, d :: ds => (c d).find ds
  | .empty, _ :: _ | .leaf _, _ :: _ => .empty

def bare : Trie α := .node fun _ => .empty

def put (v : Trie α) : List Nat → Trie α → Trie α
  | [], _ => v
  | d :: ds, .node c => .node (Function.update c d (put v ds (c d)))
  | d :: ds, .empty | d :: ds, .leaf _ => .node (Function.update (fun _ => .empty) d (put v ds .empty))

def map (f : α → β) : Trie α → Trie β
  | .empty => .empty
  | .leaf a => .leaf (f a)
  | .node c => .node fun d => (c d).map f

def Fits : Nat → Trie α → Prop
  | 0, _ => True
  | _ + 1, .empty => True
  | _ + 1, .leaf _ => False
  | n + 1, .node c => ∀ d, Fits n (c d)

def Grown : List Nat → Trie α → Prop
  | [], t => ∃ a, t = .leaf a
  | w :: ws, t => ∃ c, t = .node c ∧ (∃ d, c d ≠ .empty) ∧
      ∀ d, c d = .empty ∨ (d < 2 ^ w ∧ Grown ws (c d))

/-- A root: as `Grown`, but possibly without any child. -/
def Rooted : List Nat → Trie α → Prop
  | [], t => ∃ a, t = .leaf a
  | w :: ws, t => ∃ c, t = .node c ∧ ∀ d, c d = .empty ∨ (d < 2 ^ w ∧ Grown ws (c d))

@[simp] theorem find_nil (t : Trie α) : t.find [] = t := by cases t <;> rfl

@[simp] theorem find_node (c : Nat → Trie α) (d : Nat) (ds : List Nat) :
    (node c).find (d :: ds) = (c d).find ds := rfl

@[simp] theorem find_empty (ds : List Nat) : (empty : Trie α).find ds = .empty := by
  cases ds <;> rfl

theorem node_ne_empty (c : Nat → Trie α) : node c ≠ .empty := by
  intro equal
  cases equal

@[simp] theorem fits_zero (t : Trie α) : t.Fits 0 := by cases t <;> trivial

@[simp] theorem fits_empty (n : Nat) : (empty : Trie α).Fits n := by cases n <;> trivial

theorem Fits.cases_succ {n : Nat} {t : Trie α} (fits : t.Fits (n + 1)) :
    t = .empty ∨ ∃ c, t = .node c ∧ ∀ d, (c d).Fits n := by
  cases t with
  | empty => exact .inl rfl
  | leaf a => exact fits.elim
  | node c => exact .inr ⟨c, rfl, fits⟩

theorem find_append (t : Trie α) (ds es : List Nat) : t.find (ds ++ es) = (t.find ds).find es := by
  induction ds generalizing t with
  | nil => simp
  | cons d ds ih => cases t <;> simp [find, ih]

/-! ## Putting -/

theorem Fits.find (ds : List Nat) {n : Nat} {t : Trie α} (fits : t.Fits (ds.length + n)) : (t.find ds).Fits n := by
  induction ds generalizing t with
  | nil => simpa using fits
  | cons d ds ih =>
      rw [List.length_cons, Nat.add_right_comm] at fits
      obtain rfl | ⟨c, rfl, below⟩ := fits.cases_succ
      · rw [find_empty]
        exact fits_empty n
      · exact ih (below d)

@[simp] theorem put_nil (v t : Trie α) : put v [] t = v := by cases t <;> rfl

@[simp] theorem put_node (v : Trie α) (d : Nat) (ds : List Nat) (c : Nat → Trie α) :
    put v (d :: ds) (.node c) = .node (Function.update c d (put v ds (c d))) := rfl

theorem put_empty (v : Trie α) (d : Nat) (ds : List Nat) :
    put v (d :: ds) .empty = put v (d :: ds) bare := rfl

theorem find_put_same (v : Trie α) (ds : List Nat) (t : Trie α) : (put v ds t).find ds = v := by
  induction ds generalizing t with
  | nil => simp
  | cons d ds ih => cases t <;> simp [put, ih]

theorem find_put_other (v : Trie α) {ds es : List Nat} (same : ds.length = es.length)
    (different : ds ≠ es) {t : Trie α} (fits : t.Fits es.length) :
    (put v es t).find ds = t.find ds := by
  induction es generalizing ds t with
  | nil => simp_all
  | cons e es ih => cases ds with
    | nil => simp at same
    | cons d ds =>
        have lengths : ds.length = es.length := by simpa using same
        by_cases head : d = e
        · subst head
          have tails : ds ≠ es := by simpa using different
          obtain rfl | ⟨c, rfl, fits⟩ := fits.cases_succ
          · simpa [put] using ih lengths tails (t := .empty) (by simp)
          · simpa using ih lengths tails (fits d)
        · obtain rfl | ⟨c, rfl, -⟩ := fits.cases_succ <;> simp [put, head]

theorem put_fits (v : Trie α) (ds : List Nat) {t : Trie α} (fits : t.Fits ds.length) :
    (put v ds t).Fits ds.length := by
  induction ds generalizing t with
  | nil => simp
  | cons d ds ih =>
      obtain rfl | ⟨c, rfl, fits⟩ := fits.cases_succ
      · intro e
        by_cases here : e = d
        · subst here
          simpa using ih (t := .empty) (by simp)
        · simp [here]
      · intro e
        by_cases here : e = d
        · subst here
          simpa using ih (fits e)
        · simpa [here] using fits e

theorem put_ne_empty {v : Trie α} (stored : v ≠ .empty) (ds : List Nat) (t : Trie α) :
    put v ds t ≠ .empty := by
  cases ds with
  | nil => simpa using stored
  | cons d ds => cases t <;> simp [put]

/-! ## Grown tries -/

theorem Grown.rooted {ws : List Nat} {t : Trie α} (grown : t.Grown ws) : t.Rooted ws := by
  cases ws with
  | nil => exact grown
  | cons w ws => obtain ⟨c, rfl, -, all⟩ := grown; exact ⟨c, rfl, all⟩

theorem Grown.fits {ws : List Nat} {t : Trie α} (grown : t.Grown ws) : t.Fits ws.length := by
  induction ws generalizing t with
  | nil => simp
  | cons w ws ih =>
      obtain ⟨c, rfl, -, all⟩ := grown
      intro d
      rcases all d with none | ⟨-, below⟩
      · simp [none]
      · exact ih below

theorem Rooted.fits {ws : List Nat} {t : Trie α} (rooted : t.Rooted ws) : t.Fits ws.length := by
  cases ws with
  | nil => simp
  | cons w ws =>
      obtain ⟨c, rfl, all⟩ := rooted
      intro d
      rcases all d with none | ⟨-, below⟩
      · simp [none]
      · exact below.fits

theorem Rooted.node {w : Nat} {ws : List Nat} {t : Trie α} (rooted : t.Rooted (w :: ws)) :
    ∃ c, t = .node c := rooted.imp fun _ => And.left

theorem Rooted.isNode {ws : List Nat} {t : Trie α} (rooted : t.Rooted ws) (levels : ws ≠ []) : ∃ c, t = .node c := by
  obtain ⟨w, rest, rfl⟩ := List.exists_cons_of_ne_nil levels
  exact rooted.node

theorem bare_rooted (w : Nat) (ws : List Nat) : (bare : Trie α).Rooted (w :: ws) :=
  ⟨_, rfl, fun _ => .inl rfl⟩

theorem put_grown (a : α) {ws ds : List Nat} (fit : Fit ws ds) {t : Trie α}
    (grown : t = .empty ∨ t.Grown ws) : (put (.leaf a) ds t).Grown ws := by
  induction fit generalizing t with
  | nil => exact ⟨a, by simp⟩
  | @cons w d ws ds digit _ ih =>
      have update (c : Nat → Trie α) (all : ∀ e, c e = .empty ∨ (e < 2 ^ w ∧ Grown ws (c e))) :
          (node (Function.update c d (put (.leaf a) ds (c d)))).Grown (w :: ws) := by
        refine ⟨_, rfl, ⟨d, by simpa using put_ne_empty (by simp) ds (c d)⟩, fun e => ?_⟩
        by_cases here : e = d
        · subst here
          have below := ih (t := c e) ((all e).imp_right And.right)
          exact .inr ⟨digit, by simpa using below⟩
        · simpa [here] using all e
      rcases grown with rfl | ⟨c, rfl, -, all⟩
      · exact update _ fun _ => .inl rfl
      · exact update c all

theorem put_rooted (a : α) {ws ds : List Nat} (fit : Fit ws ds) {t : Trie α}
    (rooted : t.Rooted ws) : (put (.leaf a) ds t).Rooted ws := by
  cases fit with
  | nil => exact ⟨a, by simp⟩
  | @cons w d ws ds digit rest =>
      obtain ⟨c, rfl, all⟩ := rooted
      refine ⟨_, rfl, fun e => ?_⟩
      by_cases here : e = d
      · subst here
        have below := put_grown a rest ((all e).imp_right And.right)
        exact .inr ⟨digit, by simpa using below⟩
      · simpa [here] using all e

theorem Grown.exists_leaf {ws : List Nat} {t : Trie α} (grown : t.Grown ws) :
    ∃ ds a, Fit ws ds ∧ t.find ds = .leaf a := by
  induction ws generalizing t with
  | nil =>
      obtain ⟨a, rfl⟩ := grown
      exact ⟨[], a, .nil, rfl⟩
  | cons w ws ih =>
      obtain ⟨c, rfl, ⟨d, used⟩, all⟩ := grown
      obtain ⟨digit, below⟩ := (all d).resolve_left used
      obtain ⟨ds, a, fit, found⟩ := ih below
      exact ⟨d :: ds, a, .cons digit fit, found⟩

theorem Grown.ext {ws : List Nat} {s t : Trie α} (hs : s.Grown ws) (ht : t.Grown ws)
    (same : ∀ ds, Fit ws ds → s.find ds = t.find ds) : s = t := by
  induction ws generalizing s t with
  | nil => simpa using same [] .nil
  | cons w ws ih =>
      obtain ⟨c, rfl, -, left⟩ := hs
      obtain ⟨e, rfl, -, right⟩ := ht
      congr 1
      funext d
      have agree (digit : d < 2 ^ w) (ds : List Nat) (fit : Fit ws ds) :
          (c d).find ds = (e d).find ds := same (d :: ds) (.cons digit fit)
      rcases left d with none | ⟨digit, below⟩
      · rcases right d with none' | ⟨digit, below⟩
        · rw [none, none']
        · obtain ⟨ds, a, fit, found⟩ := below.exists_leaf
          have := agree digit ds fit
          simp [none, found] at this
      · rcases right d with none' | ⟨-, below'⟩
        · obtain ⟨ds, a, fit, found⟩ := below.exists_leaf
          have := agree digit ds fit
          simp [none', found] at this
        · exact ih below below' (agree digit)

theorem Rooted.ext {ws : List Nat} {s t : Trie α} (hs : s.Rooted ws) (ht : t.Rooted ws)
    (same : ∀ ds, Fit ws ds → s.find ds = t.find ds) : s = t := by
  cases ws with
  | nil => simpa using same [] .nil
  | cons w ws =>
      obtain ⟨c, rfl, left⟩ := hs
      obtain ⟨e, rfl, right⟩ := ht
      by_cases used : ∃ d, c d ≠ .empty
      · by_cases used' : ∃ d, e d ≠ .empty
        · have grown : Grown (w :: ws) (.node c) := ⟨c, rfl, used, left⟩
          exact grown.ext ⟨e, rfl, used', right⟩ same
        · obtain ⟨d, some⟩ := used
          obtain ⟨digit, below⟩ := (left d).resolve_left some
          obtain ⟨ds, a, fit, found⟩ := below.exists_leaf
          have none : e d = .empty := by_contra fun other => used' ⟨d, other⟩
          have := same (d :: ds) (.cons digit fit)
          simp [none, found] at this
      · congr 1
        funext d
        have none : c d = .empty := by_contra fun other => used ⟨d, other⟩
        rcases right d with none' | ⟨digit, below⟩
        · rw [none, none']
        · obtain ⟨ds, a, fit, found⟩ := below.exists_leaf
          have := same (d :: ds) (.cons digit fit)
          simp [none, found] at this

/-! ## Renaming leaves -/

theorem find_map (f : α → β) (t : Trie α) (ds : List Nat) :
    (t.map f).find ds = (t.find ds).map f := by
  induction ds generalizing t with
  | nil => simp
  | cons d ds ih => cases t <;> simp [map, find, ih]

theorem map_eq_empty {f : α → β} {t : Trie α} : t.map f = .empty ↔ t = .empty := by
  cases t <;> simp [map]

theorem Grown.map {ws : List Nat} {t : Trie α} (f : α → β) (grown : t.Grown ws) :
    (t.map f).Grown ws := by
  induction ws generalizing t with
  | nil => obtain ⟨a, rfl⟩ := grown; exact ⟨f a, rfl⟩
  | cons w ws ih =>
      obtain ⟨c, rfl, ⟨d, used⟩, all⟩ := grown
      refine ⟨_, rfl, ⟨d, by simpa [map_eq_empty] using used⟩, fun e => ?_⟩
      exact (all e).imp map_eq_empty.mpr (And.imp_right ih)

theorem Rooted.map {ws : List Nat} {t : Trie α} (f : α → β) (rooted : t.Rooted ws) :
    (t.map f).Rooted ws := by
  cases ws with
  | nil => obtain ⟨a, rfl⟩ := rooted; exact ⟨f a, rfl⟩
  | cons w ws =>
      obtain ⟨c, rfl, all⟩ := rooted
      exact ⟨_, rfl, fun e => (all e).imp map_eq_empty.mpr (And.imp_right (Grown.map f))⟩

/-! ## Weighing the nodes -/

def weigh (f : Nat → Nat) : List Nat → Trie α → Nat
  | w :: ws, .node c => f w + ((List.range (2 ^ w)).map fun d => weigh f ws (c d)).sum
  | _, _ => 0

@[simp] theorem weigh_nil (f : Nat → Nat) (t : Trie α) : weigh f [] t = 0 := by cases t <;> rfl

@[simp] theorem weigh_empty (f : Nat → Nat) (ws : List Nat) : weigh f ws (empty : Trie α) = 0 := by
  cases ws <;> rfl

@[simp] theorem weigh_node (f : Nat → Nat) (w : Nat) (ws : List Nat) (c : Nat → Trie α) :
    weigh f (w :: ws) (node c) = f w + ((List.range (2 ^ w)).map fun d => weigh f ws (c d)).sum := rfl

theorem weigh_map (f : Nat → Nat) (g : α → β) (ws : List Nat) (t : Trie α) :
    weigh f ws (t.map g) = weigh f ws t := by
  induction ws generalizing t with
  | nil => simp
  | cons w ws ih => cases t <;> simp [map, weigh, ih]

/-! ## The paths of the nodes -/

def nodePaths : List Nat → Trie α → List (List Nat)
  | w :: ws, .node c => [] :: (List.range (2 ^ w)).flatMap fun d => (nodePaths ws (c d)).map (d :: ·)
  | _, _ => []

@[simp] theorem nodePaths_nil (t : Trie α) : nodePaths [] t = [] := by cases t <;> rfl

@[simp] theorem nodePaths_empty (ws : List Nat) : nodePaths ws (empty : Trie α) = [] := by
  cases ws <;> rfl

theorem nodePaths_node (w : Nat) (ws : List Nat) (c : Nat → Trie α) :
    nodePaths (w :: ws) (node c) =
      [] :: (List.range (2 ^ w)).flatMap fun d => (nodePaths ws (c d)).map (d :: ·) := rfl

theorem nodePaths_nodup (ws : List Nat) (t : Trie α) : (nodePaths ws t).Nodup := by
  induction ws generalizing t with
  | nil => simp
  | cons w ws ih => cases t with
    | empty => simp
    | leaf a => exact List.nodup_nil
    | node c =>
        rw [nodePaths_node, List.nodup_cons, List.nodup_flatMap]
        refine ⟨by simp, fun d _ => (ih (c d)).map fun _ _ same => (List.cons.inj same).2, ?_⟩
        refine List.nodup_range.imp fun different => ?_
        rintro _ left right
        obtain ⟨_, -, rfl⟩ := List.mem_map.mp left
        obtain ⟨_, -, same⟩ := List.mem_map.mp right
        exact different (List.cons.inj same).1.symm

theorem mem_nodePaths {ws ds : List Nat} {t : Trie α} (rooted : t.Rooted ws) :
    ds ∈ nodePaths ws t ↔ ds.length < ws.length ∧ ∃ c, t.find ds = .node c := by
  induction ws generalizing t ds with
  | nil => simp
  | cons w ws ih =>
      obtain ⟨c, rfl, all⟩ := rooted
      cases ds with
      | nil => simp [nodePaths_node]
      | cons d ds =>
          have child : d ∈ List.range (2 ^ w) ∧ ds ∈ nodePaths ws (c d) ↔
              ds.length < ws.length ∧ ∃ e, (c d).find ds = .node e := by
            rcases all d with none | ⟨digit, grown⟩
            · simp [none]
            · rw [and_iff_right (List.mem_range.mpr digit), ih grown.rooted]
          rw [nodePaths_node, find_node, List.length_cons, List.length_cons, Nat.add_lt_add_iff_right, ← child]
          simp

end Trie

end Radix.Lib
