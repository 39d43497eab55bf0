import Mathlib.Algebra.Order.Ring.Int
import Mathlib.Data.Int.ConditionallyCompleteOrder
import Backend.Lib.Rearrange

/-!
# Three-way comparators

A comparator returns a negative number, `0` or a positive number. `TotalPreorder` is what a sorting
function may rely on; `SortedOn` is the order of a range of an indexed family.

* `TotalPreorder`: `le_of_not_lt`, `le_of_ge`, `refl`, `lt_of_lt_of_le`, `not_lt_of_eq`;
* `SortedOn`: `congr`, `sortedOn_of_le`, **`sortedOn_append`**.
-/

set_option autoImplicit false

namespace Backend

variable {α : Type*} {c : α → α → ℤ} {x y z : α}

/-- `c x y ≤ 0` is a total preorder, and the sign of `c` changes with the order of the arguments. -/
structure TotalPreorder (c : α → α → ℤ) : Prop where
  flip : ∀ x y, c x y ≤ 0 ↔ 0 ≤ c y x
  trans : ∀ x y z, c x y ≤ 0 → c y z ≤ 0 → c x z ≤ 0

namespace TotalPreorder

theorem le_of_not_lt (h : TotalPreorder c) (hxy : ¬ c x y < 0) : c y x ≤ 0 :=
  (h.flip y x).mpr (by omega)

theorem le_of_ge (h : TotalPreorder c) (hxy : 0 ≤ c x y) : c y x ≤ 0 := (h.flip y x).mpr hxy

theorem refl (h : TotalPreorder c) (x : α) : c x x ≤ 0 := by
  by_contra hno
  exact hno (h.le_of_ge (by omega))

theorem lt_of_lt_of_le (h : TotalPreorder c) (hxy : c x y < 0) (hyz : c y z ≤ 0) : c x z < 0 := by
  by_contra hno
  have hyx : c y x ≤ 0 := h.trans y z x hyz (h.le_of_not_lt hno)
  have := (h.flip y x).mp hyx
  omega

theorem not_lt_of_eq (h : TotalPreorder c) (hy : c x y = 0) (hz : c x z = 0) : ¬ c y z < 0 := by
  have hzy : c z y ≤ 0 := h.trans z x y (h.le_of_ge hz.ge) hy.le
  exact not_lt.mpr ((h.flip z y).mp hzy)

end TotalPreorder

/-- The values at `lo, …, hi - 1` are in order. -/
def SortedOn (c : α → α → ℤ) (lo hi : ℤ) (a : ℤ → α) : Prop :=
  ∀ i j, lo ≤ i → i ≤ j → j < hi → c (a i) (a j) ≤ 0

variable {a b : ℤ → α} {lo hi : ℤ}

theorem SortedOn.congr (h : SortedOn c lo hi a) (hab : ∀ i, lo ≤ i → i < hi → b i = a i) :
    SortedOn c lo hi b := by
  intro i j hi' hij hj
  rw [hab i hi' (by omega), hab j (by omega) hj]
  exact h i j hi' hij hj

theorem sortedOn_of_le (hc : TotalPreorder c) (h : hi ≤ lo + 1) (a : ℤ → α) : SortedOn c lo hi a := by
  intro i j hi' hij hj
  have heq : i = j := by omega
  rw [heq]
  exact hc.refl _

/-- **Two ranges side by side**, with a value between them. -/
theorem sortedOn_append (hc : TotalPreorder c) (mid : ℤ) (x : α) (h : SortedOn c lo mid a) (h' : SortedOn c mid hi a)
    (hl : ∀ i, lo ≤ i → i < mid → c (a i) x ≤ 0) (hr : ∀ i, mid ≤ i → i < hi → c x (a i) ≤ 0) :
    SortedOn c lo hi a := by
  intro i j hi' hij hj
  by_cases hjm : j < mid
  · exact h i j hi' hij hjm
  · by_cases him : i < mid
    · exact hc.trans _ _ _ (hl i hi' him) (hr j (by omega) hj)
    · exact h' i j (by omega) hij hj

end Backend
