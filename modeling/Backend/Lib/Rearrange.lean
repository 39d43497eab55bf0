import Mathlib.Data.Set.Basic
import Mathlib.Logic.Equiv.Basic
import Mathlib.Logic.Function.Basic
import Mathlib.Order.Interval.Set.Defs

/-!
# Rearrangements of indexed values

The values at the places `S` of an indexed family are permuted, all others stay. A family with a hole is
one in which the value `x` of one place is kept aside: `update a h x` is the family with the hole filled.

* `Rearranged`: `refl`, `trans`, `mono`, `off`, `exists_mem`, `forall_mem`;
* **`rearranged_comp_swap`**, `rearranged_swap`, **`rearranged_hole`**: two values are exchanged, the hole moves.
-/

set_option autoImplicit false

namespace Backend

open Function

variable {ι α : Type*} {S T : Set ι} {a b c : ι → α}

/-- `b` is `a` with the values at the places in `S` permuted. -/
def Rearranged (S : Set ι) (a b : ι → α) : Prop :=
  ∃ σ : Equiv.Perm ι, (∀ i, i ∉ S → σ i = i) ∧ b = a ∘ σ

theorem Rearranged.refl (S : Set ι) (a : ι → α) : Rearranged S a a := ⟨Equiv.refl ι, fun _ _ => rfl, rfl⟩

theorem Rearranged.trans (h : Rearranged S a b) (h' : Rearranged S b c) : Rearranged S a c := by
  obtain ⟨σ, hσ, rfl⟩ := h
  obtain ⟨τ, hτ, rfl⟩ := h'
  refine ⟨τ.trans σ, fun i hi => ?_, rfl⟩
  rw [Equiv.trans_apply, hτ i hi, hσ i hi]

theorem Rearranged.mono (h : Rearranged S a b) (hST : S ⊆ T) : Rearranged T a b := by
  obtain ⟨σ, hσ, hb⟩ := h
  exact ⟨σ, fun i hi => hσ i fun hS => hi (hST hS), hb⟩

theorem Rearranged.off (h : Rearranged S a b) {i : ι} (hi : i ∉ S) : b i = a i := by
  obtain ⟨σ, hσ, rfl⟩ := h
  rw [comp_apply, hσ i hi]

theorem Rearranged.exists_mem (h : Rearranged S a b) {i : ι} (hi : i ∈ S) : ∃ j ∈ S, b i = a j := by
  obtain ⟨σ, hσ, rfl⟩ := h
  refine ⟨σ i, ?_, rfl⟩
  by_contra hno
  exact hno (by rwa [σ.injective (hσ _ hno)])

theorem Rearranged.forall_mem {P : α → Prop} (h : Rearranged S a b) (hP : ∀ i ∈ S, P (a i)) :
    ∀ i ∈ S, P (b i) := by
  intro i hi
  obtain ⟨j, hj, he⟩ := h.exists_mem hi
  rw [he]
  exact hP j hj

variable [DecidableEq ι]

/-- **Two places are exchanged.** -/
theorem rearranged_comp_swap (a : ι → α) {i j : ι} (hi : i ∈ S) (hj : j ∈ S) :
    Rearranged S a (a ∘ Equiv.swap i j) := by
  refine ⟨Equiv.swap i j, fun k hk => ?_, rfl⟩
  exact Equiv.swap_apply_of_ne_of_ne (by rintro rfl; exact hk hi) (by rintro rfl; exact hk hj)

theorem rearranged_swap (a : ι → α) {i j : ι} (hi : i ∈ S) (hj : j ∈ S) :
    Rearranged S a (update (update a i (a j)) j (a i)) := by
  have hswap : update (update a i (a j)) j (a i) = a ∘ Equiv.swap i j := by
    funext k
    rw [comp_apply, Equiv.swap_apply_def]
    split_ifs with h h'
    · subst h
      by_cases hij : k = j
      · rw [hij, update_self]
      · rw [update_of_ne hij, update_self]
    · rw [h', update_self]
    · rw [update_of_ne h', update_of_ne h]
  rw [hswap]
  exact rearranged_comp_swap a hi hj

/-- **The hole moves** from `h` to `j`, whose value fills it. -/
theorem rearranged_hole (a : ι → α) (x : α) {h j : ι} (hh : h ∈ S) (hj : j ∈ S) :
    Rearranged S (update a h x) (update (update a h (a j)) j x) := by
  by_cases hhj : h = j
  · subst hhj
    rw [update_eq_self]
    exact Rearranged.refl S _
  · have hs := rearranged_swap (update a h x) hh hj
    rw [update_self, update_of_ne (Ne.symm hhj), update_idem] at hs
    exact hs

end Backend
