import Mathlib.Algebra.BigOperators.Field
import Mathlib.Algebra.Order.BigOperators.Group.Finset
import Mathlib.Algebra.Order.Field.Rat
import Mathlib.Data.Finset.Prod
import Mathlib.Order.Lattice.Nat
import Mathlib.Tactic.FieldSimp

/-!
# Shortest walks

Their numbers, level by level, and how much the pairs of a source and a target depend on a vertex between
them: what a vertex is worth follows from what its successors one level deeper are worth.
-/

namespace Radix.Lib.Geodesics

variable {V : Type*} [DecidableEq V] (next : V → Finset V)

/-! ## Walks -/

def Route : V → List V → V → Prop
  | a, [], b => a = b
  | a, x :: p, b => x ∈ next a ∧ Route x p b

def routes : ℕ → V → V → Finset (List V)
  | 0, a, b => if a = b then {[]} else ∅
  | k + 1, a, b => (next a).biUnion fun x => (routes k x b).image (List.cons x)

def count (k : ℕ) (a b : V) : ℕ := (routes next k a b).card

variable {next}

theorem mem_routes {k : ℕ} {a b : V} {p : List V} : p ∈ routes next k a b ↔ p.length = k ∧ Route next a p b := by
  induction k generalizing a p with
  | zero =>
      rw [routes, List.length_eq_zero_iff]
      constructor
      · intro member
        split at member
        · rename_i same
          obtain rfl := Finset.mem_singleton.mp member
          exact ⟨rfl, same⟩
        · cases member
      · rintro ⟨rfl, same⟩
        have here : a = b := same
        rw [if_pos here]
        exact Finset.mem_singleton_self _
  | succ k ih =>
      simp only [routes, Finset.mem_biUnion, Finset.mem_image]
      constructor
      · rintro ⟨x, edge, q, member, rfl⟩
        obtain ⟨length, route⟩ := ih.mp member
        exact ⟨congrArg (· + 1) length, edge, route⟩
      · rintro ⟨length, route⟩
        cases p with
        | nil => cases length
        | cons x q => exact ⟨x, route.1, q, ih.mpr ⟨Nat.succ.inj length, route.2⟩, rfl⟩

omit [DecidableEq V] in
theorem Route.unique {a b c : V} {p : List V} (left : Route next a p b) (right : Route next a p c) : b = c := by
  induction p generalizing a with
  | nil => exact left.symm.trans right
  | cons x p ih => exact ih left.2 right.2

omit [DecidableEq V] in
theorem route_append {a b : V} {p q : List V} :
    Route next a (p ++ q) b ↔ ∃ c, Route next a p c ∧ Route next c q b := by
  induction p generalizing a with
  | nil => exact ⟨fun route => ⟨a, rfl, route⟩, fun ⟨_, same, route⟩ => by cases same; exact route⟩
  | cons x p ih =>
      rw [List.cons_append, Route, ih]
      constructor
      · rintro ⟨edge, c, left, right⟩
        exact ⟨c, ⟨edge, left⟩, right⟩
      · rintro ⟨c, ⟨edge, left⟩, right⟩
        exact ⟨edge, c, left, right⟩

omit [DecidableEq V] in
theorem Route.cut {a b c : V} {p : List V} (route : Route next a p b) (member : c ∈ a :: p) :
    ∃ q r, p = q ++ r ∧ Route next a q c ∧ Route next c r b := by
  induction p generalizing a with
  | nil =>
      obtain rfl := List.mem_singleton.mp member
      exact ⟨[], [], rfl, rfl, route⟩
  | cons x p ih =>
      rcases List.mem_cons.mp member with rfl | later
      · exact ⟨[], x :: p, rfl, rfl, route⟩
      · obtain ⟨q, r, rfl, left, right⟩ := ih route.2 later
        exact ⟨x :: q, r, rfl, ⟨route.1, left⟩, right⟩

omit [DecidableEq V] in
theorem Route.mem_stop {a c : V} {q : List V} (route : Route next a q c) : c ∈ a :: q := by
  induction q generalizing a with
  | nil =>
      cases route
      exact List.mem_cons_self
  | cons x q ih => exact List.mem_cons_of_mem a (ih route.2)

/-! ## Counting -/

theorem count_zero (a b : V) : count next 0 a b = if a = b then 1 else 0 := by
  rw [count, routes]
  split <;> rfl

theorem count_succ (k : ℕ) (a b : V) : count next (k + 1) a b = ∑ x ∈ next a, count next k x b := by
  rw [count, routes, Finset.card_biUnion]
  · refine Finset.sum_congr rfl fun x _ => Finset.card_image_of_injective _ ?_
    intro p q same
    exact (List.cons.inj same).2
  · intro x _ y _ other
    rw [Function.onFun, Finset.disjoint_left]
    intro p left right
    obtain ⟨q, -, rfl⟩ := Finset.mem_image.mp left
    obtain ⟨r, -, same⟩ := Finset.mem_image.mp right
    exact other (List.cons.inj same).1.symm

theorem count_pos {k : ℕ} {a b : V} : 0 < count next k a b ↔ ∃ p, p.length = k ∧ Route next a p b := by
  rw [count, Finset.card_pos]
  exact exists_congr fun p => mem_routes

theorem count_eq_zero {k : ℕ} {a b : V} : count next k a b = 0 ↔ ∀ p, p.length = k → ¬ Route next a p b := by
  rw [← Nat.le_zero, ← Nat.not_lt, count_pos]
  constructor
  · intro none p length route
    exact none ⟨p, length, route⟩
  · rintro none ⟨p, length, route⟩
    exact none p length route

theorem card_routes_via (j k : ℕ) (a b c : V) (via : List V → Prop) [DecidablePred via]
    (meets : ∀ q r, q.length = j → r.length = k → Route next a (q ++ r) b → (via (q ++ r) ↔ Route next a q c)) :
    ((routes next (j + k) a b).filter via).card = count next j a c * count next k c b := by
  rw [count, count, ← Finset.card_product]
  symm
  apply Finset.card_nbij fun pair => pair.1 ++ pair.2
  · rintro ⟨q, r⟩ member
    obtain ⟨left, right⟩ := Finset.mem_product.mp member
    obtain ⟨first, reach⟩ := mem_routes.mp left
    obtain ⟨second, rest⟩ := mem_routes.mp right
    have route := route_append.mpr ⟨c, reach, rest⟩
    have length : (q ++ r).length = j + k := by
      dsimp only at first second
      rw [List.length_append, first, second]
    exact Finset.mem_filter.mpr ⟨mem_routes.mpr ⟨length, route⟩, (meets q r first second route).mpr reach⟩
  · rintro ⟨q, r⟩ member ⟨q', r'⟩ member' same
    have first := (mem_routes.mp (Finset.mem_product.mp member).1).1
    have first' := (mem_routes.mp (Finset.mem_product.mp member').1).1
    obtain ⟨rfl, rfl⟩ := List.append_inj same (first.trans first'.symm)
    rfl
  · intro p member
    obtain ⟨inside, passes⟩ := Finset.mem_filter.mp member
    obtain ⟨length, route⟩ := mem_routes.mp inside
    have first : (p.take j).length = j := by rw [List.length_take, length]; omega
    have second : (p.drop j).length = k := by rw [List.length_drop, length]; omega
    rw [← List.take_append_drop j p] at route passes
    have reach := (meets _ _ first second route).mp passes
    obtain ⟨c', reach', rest⟩ := route_append.mp route
    obtain rfl := reach.unique reach'
    refine ⟨(p.take j, p.drop j), ?_, List.take_append_drop j p⟩
    exact Finset.mem_coe.mpr (Finset.mem_product.mpr ⟨mem_routes.mpr ⟨first, reach⟩, mem_routes.mpr ⟨second, rest⟩⟩)

theorem count_one (a b : V) : count next 1 a b = if b ∈ next a then 1 else 0 := by
  simp only [count_succ, count_zero, Finset.sum_ite_eq']

theorem count_succ_last {k : ℕ} {a b : V} {S : Finset V}
    (all : ∀ c, 0 < count next k a c → b ∈ next c → c ∈ S) :
    count next (k + 1) a b = ∑ c ∈ S, if b ∈ next c then count next k a c else 0 := by
  induction k generalizing a with
  | zero =>
      simp only [count_zero]
      rw [Nat.zero_add, count_one]
      by_cases edge : b ∈ next a
      · have inside : a ∈ S := all a (by simp [count_zero]) edge
        rw [if_pos edge, Finset.sum_eq_single_of_mem a inside]
        · rw [if_pos edge, if_pos rfl]
        · intro c _ other
          rw [if_neg (Ne.symm other), ite_self]
      · rw [if_neg edge]
        symm
        refine Finset.sum_eq_zero fun c _ => ?_
        by_cases same : a = c
        · rw [if_neg (same ▸ edge)]
        · rw [if_neg same, ite_self]
  | succ k ih =>
      have longer (x : V) (edge : x ∈ next a) (c : V) (some : 0 < count next k x c) : 0 < count next (k + 1) a c := by
        obtain ⟨p, length, route⟩ := count_pos.mp some
        exact count_pos.mpr ⟨x :: p, congrArg (· + 1) length, edge, route⟩
      calc count next (k + 1 + 1) a b
          = ∑ x ∈ next a, ∑ c ∈ S, if b ∈ next c then count next k x c else 0 := by
            rw [count_succ]
            exact Finset.sum_congr rfl fun x edge => ih fun c some last => all c (longer x edge c some) last
        _ = ∑ c ∈ S, ∑ x ∈ next a, if b ∈ next c then count next k x c else 0 := Finset.sum_comm
        _ = ∑ c ∈ S, if b ∈ next c then count next (k + 1) a c else 0 := by
            refine Finset.sum_congr rfl fun c _ => ?_
            split
            · rw [count_succ]
            · rw [Finset.sum_const_zero]

/-! ## Depths -/

variable (next) in
def At (s : V) (d : ℕ) (v : V) : Prop := 0 < count next d s v ∧ ∀ j < d, count next j s v = 0

variable {s : V}

theorem At.unique {d e : ℕ} {v : V} (left : At next s d v) (right : At next s e v) : d = e := by
  rcases lt_trichotomy d e with less | same | more
  · exact absurd (right.2 d less) left.1.ne'
  · exact same
  · exact absurd (left.2 e more) right.1.ne'

theorem At.source : At next s 0 s := ⟨by simp [count_zero], fun j less => absurd less (Nat.not_lt_zero j)⟩

theorem at_zero {v : V} : At next s 0 v ↔ v = s := by
  constructor
  · intro here
    have some := here.1
    rw [count_zero] at some
    by_contra other
    rw [if_neg (Ne.symm other)] at some
    exact absurd some (Nat.lt_irrefl 0)
  · rintro rfl
    exact At.source

theorem exists_at {k : ℕ} {v : V} (some : 0 < count next k s v) : ∃ d ≤ k, At next s d v := by
  classical
  have exists' : ∃ d, 0 < count next d s v := ⟨k, some⟩
  refine ⟨Nat.find exists', Nat.find_min' exists' some, Nat.find_spec exists', fun j less => ?_⟩
  exact Nat.eq_zero_of_not_pos (Nat.find_min exists' less)

theorem At.step {d : ℕ} {u v : V} (here : At next s d u) (edge : v ∈ next u) : ∃ e ≤ d + 1, At next s e v := by
  obtain ⟨p, length, route⟩ := count_pos.mp here.1
  apply exists_at
  refine count_pos.mpr ⟨p ++ [v], by rw [List.length_append, length, List.length_singleton], ?_⟩
  exact route_append.mpr ⟨u, route, edge, rfl⟩

theorem At.previous {d : ℕ} {u v : V} (here : At next s (d + 1) v) (some : 0 < count next d s u)
    (edge : v ∈ next u) : At next s d u := by
  obtain ⟨e, le, there⟩ := exists_at some
  obtain ⟨f, le', again⟩ := there.step edge
  obtain rfl := here.unique again
  obtain rfl : e = d := by omega
  exact there

theorem At.count_succ {d : ℕ} {v : V} (here : At next s (d + 1) v) {S : Finset V}
    (level : ∀ u, u ∈ S ↔ At next s d u) :
    count next (d + 1) s v = ∑ u ∈ S, if v ∈ next u then count next d s u else 0 :=
  count_succ_last fun c some edge => (level c).mpr (here.previous some edge)

theorem at_succ {d : ℕ} {v : V} :
    At next s (d + 1) v ↔ (∃ u, At next s d u ∧ v ∈ next u) ∧ ∀ e ≤ d, ¬ At next s e v := by
  constructor
  · intro here
    refine ⟨?_, fun e le there => absurd (there.unique here) (by omega)⟩
    obtain ⟨p, length, route⟩ := count_pos.mp here.1
    obtain ⟨q, x, rfl⟩ := List.eq_nil_or_concat p |>.resolve_left (by rintro rfl; cases length)
    rw [List.concat_eq_append] at length route
    obtain ⟨u, first, edge, rfl⟩ := route_append.mp route
    have some : 0 < count next d s u := count_pos.mpr ⟨q, by simpa using length, first⟩
    exact ⟨u, here.previous some edge, edge⟩
  · rintro ⟨⟨u, here, edge⟩, deeper⟩
    obtain ⟨e, le, there⟩ := here.step edge
    have same : e = d + 1 := by
      by_contra other
      exact deeper e (by omega) there
    exact same ▸ there

/-! ## Dependencies -/

section Dependencies

variable (next)

noncomputable def depth (s v : V) : ℕ := sInf {d | 0 < count next d s v}

noncomputable def geodesics (s v : V) : Finset (List V) := routes next (depth next s v) s v

noncomputable def passing (s u t : V) : Finset (List V) := (geodesics next s t).filter fun p => u ∈ s :: p

noncomputable def dependency (S : Finset V) (s u : V) : ℚ :=
  ∑ t ∈ S.erase u, ((passing next s u t).card : ℚ) / (geodesics next s t).card

variable {next}

theorem At.depth {d : ℕ} {v : V} (here : At next s d v) : depth next s v = d := by
  have least : IsLeast {d | 0 < count next d s v} d := by
    refine ⟨here.1, fun e some => ?_⟩
    by_contra less
    exact absurd (here.2 e (Nat.not_le.mp less)) some.ne'
  exact least.csInf_eq

theorem At.card_geodesics {d : ℕ} {v : V} (here : At next s d v) : (geodesics next s v).card = count next d s v := by
  rw [geodesics, here.depth, count]

theorem geodesics_unreached {v : V} (unreached : ∀ d, ¬ At next s d v) : geodesics next s v = ∅ := by
  rw [← Finset.card_eq_zero]
  by_contra some
  obtain ⟨d, -, here⟩ := exists_at (Nat.pos_of_ne_zero some)
  exact unreached d here

theorem At.card_passing {d e : ℕ} {u t : V} (here : At next s d u) (there : At next s e t) :
    (passing next s u t).card = if d ≤ e then count next d s u * count next (e - d) u t else 0 := by
  rw [passing, geodesics, there.depth]
  split
  · rename_i le
    obtain ⟨k, rfl⟩ := Nat.exists_eq_add_of_le le
    rw [Nat.add_sub_cancel_left]
    refine card_routes_via d k s t u _ fun q r first second route => ⟨fun member => ?_, fun reach => ?_⟩
    · obtain ⟨q', r', same, left, right⟩ := route.cut member
      have long : d ≤ q'.length := by
        by_contra less
        exact count_eq_zero.mp (here.2 _ (Nat.not_le.mp less)) q' rfl left
      have lengths := congrArg List.length same
      rw [List.length_append, List.length_append] at lengths
      have short : d + r'.length ≥ d + k := by
        obtain ⟨p, length, start⟩ := count_pos.mp here.1
        by_contra less
        exact count_eq_zero.mp (there.2 _ (Nat.not_le.mp less)) (p ++ r') (by rw [List.length_append, length])
          (route_append.mpr ⟨u, start, right⟩)
      obtain ⟨rfl, rfl⟩ := List.append_inj same (by omega)
      exact left
    · rw [← List.cons_append]
      exact List.mem_append_left r reach.mem_stop
  · rename_i less
    rw [Finset.card_eq_zero, Finset.filter_eq_empty_iff]
    intro p member passes
    obtain ⟨length, route⟩ := mem_routes.mp member
    obtain ⟨q, r, rfl, left, -⟩ := route.cut passes
    rw [List.length_append] at length
    exact count_eq_zero.mp (here.2 q.length (by omega)) q rfl left

theorem At.card_passing_eq_sum {d : ℕ} {u t : V} (here : At next s d u) (other : t ≠ u) {S : Finset V}
    (deeper : ∀ v, v ∈ S ↔ v ∈ next u ∧ At next s (d + 1) v) :
    ((passing next s u t).card : ℚ) = ∑ v ∈ S, (count next d s u : ℚ) / count next (d + 1) s v * (passing next s v t).card := by
  by_cases reached : ∃ e, At next s e t
  · obtain ⟨e, there⟩ := reached
    have each (v : V) (member : v ∈ S) :
        (count next d s u : ℚ) / count next (d + 1) s v * (passing next s v t).card =
          count next d s u * if d + 1 ≤ e then (count next (e - (d + 1)) v t : ℚ) else 0 := by
      obtain ⟨-, below⟩ := (deeper v).mp member
      have some : (count next (d + 1) s v : ℚ) ≠ 0 := by exact_mod_cast below.1.ne'
      rw [below.card_passing there]
      split
      · push_cast
        field_simp
      · simp
    rw [Finset.sum_congr rfl each, ← Finset.mul_sum, here.card_passing there]
    by_cases less : d + 1 ≤ e
    · have steps : e - d = (e - (d + 1)) + 1 := by omega
      simp only [if_pos less, if_pos (Nat.le_of_succ_le less)]
      rw [steps, Geodesics.count_succ]
      push_cast
      congr 1
      symm
      refine Finset.sum_subset (fun v member => ((deeper v).mp member).1) fun v edge outside => ?_
      have shallow : ¬ At next s (d + 1) v := fun below => outside ((deeper v).mpr ⟨edge, below⟩)
      obtain ⟨f, le, above⟩ := here.step edge
      have less' : f ≤ d := by
        have : f ≠ d + 1 := by
          rintro rfl
          exact shallow above
        omega
      rw [Nat.cast_eq_zero, count_eq_zero]
      intro r length right
      obtain ⟨p, length', start⟩ := count_pos.mp above.1
      exact count_eq_zero.mp (there.2 (f + (e - (d + 1))) (by omega)) (p ++ r)
        (by rw [List.length_append, length', length]) (route_append.mpr ⟨v, start, right⟩)
    · simp only [if_neg less, Finset.sum_const_zero, mul_zero]
      split
      · rename_i le
        obtain rfl : e = d := by omega
        rw [Nat.sub_self, count_zero, if_neg (Ne.symm other), Nat.mul_zero, Nat.cast_zero]
      · rw [Nat.cast_zero]
  · have nothing : geodesics next s t = ∅ := geodesics_unreached fun e there => reached ⟨e, there⟩
    simp [passing, nothing]

theorem At.dependency_eq {d : ℕ} {u : V} (here : At next s d u) {all S : Finset V} (inside : u ∈ all)
    (closed : ∀ v ∈ S, v ∈ all) (deeper : ∀ v, v ∈ S ↔ v ∈ next u ∧ At next s (d + 1) v) :
    dependency next all s u =
      ∑ v ∈ S, (count next d s u : ℚ) / count next (d + 1) s v * (1 + dependency next all s v) := by
  have rest (v : V) (member : v ∈ S) :
      ∑ t ∈ all.erase u, ((passing next s v t).card : ℚ) / (geodesics next s t).card =
        1 + dependency next all s v := by
    obtain ⟨-, below⟩ := (deeper v).mp member
    have above : (passing next s v u).card = 0 := by rw [below.card_passing here, if_neg (by omega)]
    have own : (passing next s v v).card = (geodesics next s v).card := by
      rw [below.card_passing below, if_pos le_rfl, Nat.sub_self, count_zero, if_pos rfl, Nat.mul_one,
        below.card_geodesics]
    have some : ((geodesics next s v).card : ℚ) ≠ 0 := by
      rw [below.card_geodesics]
      exact_mod_cast below.1.ne'
    have first := Finset.add_sum_erase all (fun t => ((passing next s v t).card : ℚ) / (geodesics next s t).card) inside
    have second := Finset.add_sum_erase all (fun t => ((passing next s v t).card : ℚ) / (geodesics next s t).card)
      (closed v member)
    simp only [above, Nat.cast_zero, zero_div, zero_add] at first
    rw [first, ← second, own, div_self some, dependency]
  calc dependency next all s u
      = ∑ t ∈ all.erase u, ∑ v ∈ S, (count next d s u : ℚ) / count next (d + 1) s v *
          (((passing next s v t).card : ℚ) / (geodesics next s t).card) := by
        refine Finset.sum_congr rfl fun t member => ?_
        rw [here.card_passing_eq_sum (Finset.ne_of_mem_erase member) deeper, Finset.sum_div]
        exact Finset.sum_congr rfl fun v _ => mul_div_assoc _ _ _
    _ = ∑ v ∈ S, (count next d s u : ℚ) / count next (d + 1) s v *
          ∑ t ∈ all.erase u, ((passing next s v t).card : ℚ) / (geodesics next s t).card := by
        rw [Finset.sum_comm]
        exact Finset.sum_congr rfl fun v _ => (Finset.mul_sum _ _ _).symm
    _ = _ := Finset.sum_congr rfl fun v member => by rw [rest v member]

theorem dependency_nonneg (all : Finset V) (s u : V) : 0 ≤ dependency next all s u :=
  Finset.sum_nonneg fun _ _ => div_nonneg (Nat.cast_nonneg _) (Nat.cast_nonneg _)

theorem dependency_unreached {u : V} (unreached : ∀ d, ¬ At next s d u) (all : Finset V) :
    dependency next all s u = 0 := by
  refine Finset.sum_eq_zero fun t _ => ?_
  have none : passing next s u t = ∅ := by
    rw [passing, Finset.filter_eq_empty_iff]
    intro p member passes
    obtain ⟨-, route⟩ := mem_routes.mp member
    obtain ⟨q, r, rfl, left, -⟩ := route.cut passes
    obtain ⟨d, -, here⟩ := exists_at (count_pos.mpr ⟨q, rfl, left⟩)
    exact unreached d here
  rw [none, Finset.card_empty, Nat.cast_zero, zero_div]

end Dependencies

end Radix.Lib.Geodesics
