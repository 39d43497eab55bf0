import Backend.Lib.Compare

/-!
# Binary heaps in an indexed family

The children of place `i` are `2 * i + 1` and `2 * i + 2`; the largest value of a heap is at its root. A value
sifts down from a hole: the order holds everywhere but between the hole and its children.

* `IsChild`, `HeapOn`, **`HeapOn.le_root`**, `HeapOn.swap_root`;
* `Sifting`: `sifting_of_heapOn`, **`Sifting.move`**, **`Sifting.finish`**.
-/

set_option autoImplicit false

namespace Backend

open Function

variable {α : Type*} {c : α → α → ℤ} {a : ℤ → α} {first last h i j : ℤ}

/-- `j` is a child of `i`. -/
def IsChild (i j : ℤ) : Prop := j = 2 * i + 1 ∨ j = 2 * i + 2

theorem IsChild.lt (hij : IsChild i j) (h0 : 0 ≤ i) : i < j := by
  unfold IsChild at hij
  omega

/-- From place `first` on, no child up to `last` is above its parent. -/
def HeapOn (c : α → α → ℤ) (first last : ℤ) (a : ℤ → α) : Prop :=
  ∀ i j, first ≤ i → IsChild i j → j ≤ last → c (a j) (a i) ≤ 0

/-- **The root is the largest.** -/
theorem HeapOn.le_root (hc : TotalPreorder c) (ha : HeapOn c 0 last a) (h0 : 0 ≤ i) (hi : i ≤ last) :
    c (a i) (a 0) ≤ 0 := by
  induction hk : i.toNat using Nat.strong_induction_on generalizing i with
  | _ k ih =>
    rcases eq_or_lt_of_le h0 with rfl | hpos
    · exact hc.refl _
    · -- the parent is closer to the root
      have hchild : IsChild ((i - 1) / 2) i := by
        unfold IsChild
        omega
      have hparent := ih ((i - 1) / 2).toNat (by omega) (i := (i - 1) / 2) (by omega) (by omega) rfl
      exact hc.trans _ _ _ (ha _ _ (by omega) hchild hi) hparent

theorem HeapOn.swap_root (ha : HeapOn c 0 last a) :
    HeapOn c (0 + 1) (last - 1) (update (update a last (a 0)) 0 (a last)) := by
  intro i j hi hij hj
  have hlt : i < j := hij.lt (by omega)
  rw [update_of_ne (by omega), update_of_ne (by omega), update_of_ne (by omega), update_of_ne (by omega)]
  exact ha i j (by omega) hij (by omega)

/-- The order but between the hole `h` and its children, which the parent of the hole is not below. -/
structure Sifting (c : α → α → ℤ) (first last h : ℤ) (a : ℤ → α) : Prop where
  off : ∀ i j, first ≤ i → i ≠ h → IsChild i j → j ≤ last → c (a j) (a i) ≤ 0
  grand : ∀ i j, first ≤ i → IsChild i h → IsChild h j → j ≤ last → c (a j) (a i) ≤ 0

theorem sifting_of_heapOn (h0 : 0 ≤ first) (ha : HeapOn c (first + 1) last a) :
    Sifting c first last first a where
  off i j hi hne hij hj := ha i j (by omega) hij hj
  grand i j hi hif := by
    unfold IsChild at hif
    omega

/-- **The hole moves** to its larger child, which is not below the value that sifts. -/
theorem Sifting.move (hs : Sifting c first last h a) (h0 : 0 ≤ h) (hf : first ≤ h) (hj : IsChild h j)
    (hjl : j ≤ last) (hlarge : ∀ k, IsChild h k → k ≤ last → c (a k) (a j) ≤ 0) (hup : c (a h) (a j) ≤ 0) :
    Sifting c first last j (update (update a h (a j)) j (a h)) := by
  have hlt : h < j := hj.lt h0
  have hother : ∀ {k}, k ≠ h → k ≠ j → update (update a h (a j)) j (a h) k = a k := by
    intro k hk hk'
    rw [update_of_ne hk', update_of_ne hk]
  have hhole : update (update a h (a j)) j (a h) h = a j := by
    rw [update_of_ne hlt.ne, update_self]
  constructor
  · intro i k hi hij hik hk
    by_cases hih : i = h
    · subst hih
      rw [hhole]
      by_cases hkj : k = j
      · rw [hkj, update_self]
        exact hup
      · have hki : k ≠ i := by
          unfold IsChild at hik
          omega
        rw [hother hki hkj]
        exact hlarge k hik hk
    · rw [hother hih hij]
      have hkj : k ≠ j := by
        unfold IsChild at hik hj
        omega
      by_cases hkh : k = h
      · subst hkh
        rw [hhole]
        exact hs.grand i j hi hik hj hjl
      · rw [hother hkh hkj]
        exact hs.off i k hi hih hik hk
  · intro i k hi hij hjk hk
    have hih : i = h := by
      unfold IsChild at hij hj
      omega
    have hkj : j < k := hjk.lt (by omega)
    rw [hih, hhole, hother (by omega) (by omega)]
    exact hs.off j k (by omega) (by omega) hjk hk

/-- **The sifting ends** when no child is above the value. -/
theorem Sifting.finish (hs : Sifting c first last h a)
    (hstop : ∀ j, IsChild h j → j ≤ last → c (a j) (a h) ≤ 0) : HeapOn c first last a := by
  intro i j hi hij hj
  by_cases hih : i = h
  · subst hih
    exact hstop j hij hj
  · exact hs.off i j hi hih hij hj

end Backend
