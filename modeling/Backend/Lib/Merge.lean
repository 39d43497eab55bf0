import Mathlib.Algebra.Group.End
import Mathlib.Data.Int.Interval
import Mathlib.Data.Int.Range
import Mathlib.Data.List.Nodup
import Mathlib.Data.Set.Finite.Basic
import Backend.Lib.Compare

/-!
# Merging ranges

A range of an indexed family is written again from a list `τ` of its places: it has now the values
`τ.map a`.

* `rearranged_of_injOn`, **`rearranged_of_perm`**: this is a rearrangement;
* `pairwise_merge_lt`, **`sortedOn_of_pairwise`**: the order of `τ` is the order of the range;
* `filter_merge_lt`, `ties`: which of the values of one rank come first;
* `range_nil`, `range_cons`, `range_append`, `range_shift`, `pairwise_range`: the places of a range in their own order.
-/

set_option autoImplicit false

namespace Backend

open List

variable {ι α : Type*} {a b : ι → α} {S : Set ι}

/-! ## Rearrangements by a list of places -/

theorem rearranged_of_injOn [Finite S] {f : ι → ι} (hmap : Set.MapsTo f S S) (hinj : Set.InjOn f S)
    (hon : ∀ i ∈ S, b i = a (f i)) (hoff : ∀ i, i ∉ S → b i = a i) : Rearranged S a b := by
  classical
  have hbij : Function.Bijective (hmap.restrict f S S) :=
    Finite.injective_iff_bijective.mp ((Set.MapsTo.restrict_inj hmap).mpr hinj)
  refine ⟨Equiv.Perm.ofSubtype (Equiv.ofBijective _ hbij), fun i hi => ?_, ?_⟩
  · exact Equiv.Perm.ofSubtype_apply_of_not_mem _ hi
  · funext i
    by_cases hi : i ∈ S
    · rw [Function.comp_apply, Equiv.Perm.ofSubtype_apply_of_mem _ hi]
      exact hon i hi
    · rw [Function.comp_apply, Equiv.Perm.ofSubtype_apply_of_not_mem _ hi]
      exact hoff i hi

/-- **The places `l` are written again from a list `τ` of the same places.** -/
theorem rearranged_of_perm [DecidableEq ι] {l τ : List ι} (hl : l.Nodup) (hperm : τ ~ l)
    (hon : l.map b = τ.map a) (hoff : ∀ i, i ∉ l → b i = a i) : Rearranged {i | i ∈ l} a b := by
  have hlt : ∀ i ∈ l, l.idxOf i < τ.length := by
    intro i hi
    rw [hperm.length_eq]
    exact idxOf_lt_length_of_mem hi
  have hget : ∀ i ∈ l, ∀ d, τ[l.idxOf i]?.getD d ∈ τ ∧ b i = a (τ[l.idxOf i]?.getD d) := by
    intro i hi d
    have hval : (l.map b)[l.idxOf i]? = (τ.map a)[l.idxOf i]? := by rw [hon]
    rw [getElem?_map, getElem?_map, getElem?_eq_getElem (idxOf_lt_length_of_mem hi),
      getElem?_eq_getElem (hlt i hi)] at hval
    simp only [Option.map_some, getElem_idxOf, Option.some.injEq] at hval
    rw [getElem?_eq_getElem (hlt i hi)]
    exact ⟨getElem_mem _, hval⟩
  have : Finite {i | i ∈ l} := List.finite_toSet l
  apply rearranged_of_injOn (f := fun i => τ[l.idxOf i]?.getD i)
  · exact fun i hi => hperm.mem_iff.mp (hget i hi i).1
  · intro i hi j hj he
    simp only [getElem?_eq_getElem (hlt i hi), getElem?_eq_getElem (hlt j hj), Option.getD_some] at he
    rw [(hperm.nodup_iff.mpr hl).getElem_inj_iff] at he
    exact (idxOf_inj hi).mp he
  · exact fun i hi => (hget i hi i).2
  · exact hoff

/-! ## Ranges as lists of places -/

variable {lo mid hi : ℤ}

theorem range_nil (h : hi ≤ lo) : Int.range lo hi = [] := by
  rw [Int.range, Int.toNat_of_nonpos (by omega), range_zero, map_nil]

theorem range_cons (h : lo < hi) : Int.range lo hi = lo :: Int.range (lo + 1) hi := by
  obtain ⟨k, rfl⟩ : ∃ k : ℕ, hi = lo + (k + 1) := ⟨(hi - lo - 1).toNat, by omega⟩
  rw [Int.range, Int.range, show (lo + (k + 1) - lo).toNat = k + 1 by omega,
    show (lo + (k + 1) - (lo + 1)).toNat = k by omega, range_succ_eq_map, map_cons, map_map]
  congr 1
  · simp
  · apply map_congr_left
    intro i _
    simp only [Function.comp_apply]
    omega

theorem length_range_int (lo hi : ℤ) : (Int.range lo hi).length = (hi - lo).toNat := by
  rw [Int.range, length_map, length_range]

theorem range_shift (lo k : ℤ) : Int.range lo (lo + k) = (Int.range 0 k).map (lo + ·) := by
  rw [Int.range, Int.range, map_map, add_sub_cancel_left, sub_zero]
  apply map_congr_left
  intro i _
  simp only [Function.comp_apply, zero_add]

theorem pairwise_range (lo hi : ℤ) : (Int.range lo hi).Pairwise (· < ·) := by
  rw [Int.range, pairwise_map]
  exact pairwise_lt_range.imp fun h => by omega

theorem range_append (h : lo ≤ mid) (h' : mid ≤ hi) :
    Int.range lo mid ++ Int.range mid hi = Int.range lo hi := by
  obtain ⟨k, hk⟩ : ∃ k : ℕ, mid = lo + k := ⟨(mid - lo).toNat, by omega⟩
  induction k generalizing lo with
  | zero =>
    obtain rfl : mid = lo := by omega
    rw [range_nil le_rfl, nil_append]
  | succ k ih =>
    rw [range_cons (show lo < mid by omega), range_cons (show lo < hi by omega), cons_append,
      ih (by omega) (by omega)]

/-- **The order of the values as a list** is the order of the range. -/
theorem sortedOn_of_pairwise {c : α → α → ℤ} (hc : TotalPreorder c) {a : ℤ → α}
    (h : ((Int.range lo hi).map a).Pairwise fun x y => c x y ≤ 0) : SortedOn c lo hi a := by
  intro i j hi' hij hj
  rcases eq_or_lt_of_le hij with rfl | hlt
  · exact hc.refl _
  · rw [← range_append (show lo ≤ j by omega) hj.le, map_append, pairwise_append] at h
    exact h.2.2 _ (mem_map_of_mem (Int.mem_range_iff.mpr ⟨hi', hlt⟩)) _
      (mem_map_of_mem (Int.mem_range_iff.mpr ⟨le_rfl, hj⟩))

theorem pairwise_of_sortedOn {c : α → α → ℤ} {a : ℤ → α} (h : SortedOn c lo hi a) :
    (Int.range lo hi).Pairwise fun i j => c (a i) (a j) ≤ 0 := by
  refine (pairwise_range lo hi).imp_of_mem fun hi' hj hij => ?_
  exact h _ _ (Int.mem_range_iff.mp hi').1 hij.le (Int.mem_range_iff.mp hj).2

theorem pairwise_merge_lt {r : ι → ι → Prop} {lt : ι → ι → Bool} (htrans : ∀ x y z, r x y → r y z → r x z)
    (hlt : ∀ x y, lt x y → r x y) (hge : ∀ x y, ¬ lt x y → r y x) {l l' : List ι} (h : l.Pairwise r)
    (h' : l'.Pairwise r) : (l.merge l' lt).Pairwise r := by
  induction l generalizing l' with
  | nil => rwa [nil_merge]
  | cons x l ih =>
    induction l' with
    | nil => rwa [merge_right]
    | cons y l' ih' =>
      obtain ⟨hx, hl⟩ := pairwise_cons.mp h
      obtain ⟨hy, hl'⟩ := pairwise_cons.mp h'
      by_cases hc : lt x y
      · rw [cons_merge_cons_pos _ _ _ hc, pairwise_cons]
        refine ⟨fun z hz => ?_, ih hl h'⟩
        rw [mem_merge, mem_cons] at hz
        rcases hz with hz | rfl | hz
        · exact hx z hz
        · exact hlt x z hc
        · exact htrans _ _ _ (hlt x y hc) (hy z hz)
      · rw [cons_merge_cons_neg _ _ _ hc, pairwise_cons]
        refine ⟨fun z hz => ?_, ih' hl'⟩
        rw [mem_merge, mem_cons] at hz
        rcases hz with (rfl | hz) | hz
        · exact hge z y hc
        · exact htrans _ _ _ (hge x y hc) (hx z hz)
        · exact hy z hz

theorem filter_merge_lt {r : ι → ι → Prop} {lt : ι → ι → Bool} {p : ι → Bool} (hr : ∀ x y z, lt x y → r y z → lt x z)
    (hp : ∀ x y, p x → p y → ¬ lt x y) (l : List ι) {l' : List ι} (h' : l'.Pairwise r) :
    (l.merge l' lt).filter p = l'.filter p ++ l.filter p := by
  induction l generalizing l' with
  | nil => rw [nil_merge, filter_nil, append_nil]
  | cons x l ih =>
    induction l' with
    | nil => rw [merge_right, filter_nil, nil_append]
    | cons y l' ih' =>
      obtain ⟨hy, hl'⟩ := pairwise_cons.mp h'
      by_cases hc : lt x y
      · rw [cons_merge_cons_pos _ _ _ hc, filter_cons, ih h', filter_cons (x := x)]
        split_ifs with hx
        · -- the whole second list is above `x`
          have hnil : (y :: l').filter p = [] := by
            rw [filter_eq_nil_iff]
            intro z hz hpz
            refine hp x z hx hpz ?_
            rcases mem_cons.mp hz with rfl | hz
            · exact hc
            · exact hr x y z hc (hy z hz)
          rw [hnil, nil_append, nil_append]
        · rfl
      · rw [cons_merge_cons_neg _ _ _ hc, filter_cons, ih' hl', filter_cons (x := y)]
        split_ifs with hpy
        · rw [cons_append]
        · rfl

/-- The values of a range that compare equal to `x`, in their order. -/
def ties (c : α → α → ℤ) (x : α) (lo hi : ℤ) (a : ℤ → α) : List α :=
  ((Int.range lo hi).map a).filter fun y => decide (c x y = 0)

variable {c : α → α → ℤ} {x : α} {a b : ℤ → α}

theorem ties_append (h : lo ≤ mid) (h' : mid ≤ hi) : ties c x lo mid a ++ ties c x mid hi a = ties c x lo hi a := by
  rw [ties, ties, ← filter_append, ← map_append, range_append h h', ties]

theorem ties_congr (h : ∀ i, lo ≤ i → i < hi → b i = a i) : ties c x lo hi b = ties c x lo hi a := by
  rw [ties, ties]
  congr 1
  apply map_congr_left
  intro i hi'
  exact h i (Int.mem_range_iff.mp hi').1 (Int.mem_range_iff.mp hi').2

theorem ties_reverse_of_le (h : hi ≤ lo + 1) : (ties c x lo hi a).reverse = ties c x lo hi a := by
  rcases lt_or_ge lo hi with hlt | hge
  · obtain rfl : hi = lo + 1 := by omega
    rw [ties, range_cons hlt, range_nil le_rfl, map_singleton, filter_singleton]
    cases decide (c x (a lo) = 0) <;> rfl
  · rw [ties, range_nil hge]
    rfl

end Backend
