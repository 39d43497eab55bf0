import Mathlib.Algebra.BigOperators.Group.Finset.Basic
import Mathlib.Algebra.BigOperators.Pi
import Mathlib.Algebra.Order.BigOperators.Group.Finset

/-!
# Tallies over the threads

Conservation arguments count the threads at given control points. `tally w pc` adds the weight
`w (pc t)` over all threads `t`; moving one thread changes it by the difference of two weights
(**`tally_update`**), so that conservation laws are closed by linear arithmetic.
-/

set_option autoImplicit false

namespace Backend

variable {ι P : Type*} [Fintype ι] [DecidableEq ι]

/-- The total weight of the threads' control points. -/
def tally (w : P → ℕ) (pc : ι → P) : ℕ := ∑ t, w (pc t)

/-- **Moving one thread.** -/
theorem tally_update (w : P → ℕ) (pc : ι → P) (t : ι) (c : P) :
    tally w (Function.update pc t c) + w (pc t) = tally w pc + w c := by
  have h : ∀ f : ι → P, tally w f = w (f t) + ∑ u ∈ Finset.univ.erase t, w (f u) := fun f =>
    (Finset.add_sum_erase _ _ (Finset.mem_univ t)).symm
  have he : ∑ u ∈ Finset.univ.erase t, w (Function.update pc t c u) =
      ∑ u ∈ Finset.univ.erase t, w (pc u) :=
    Finset.sum_congr rfl fun u hu => by rw [Function.update_of_ne (Finset.ne_of_mem_erase hu)]
  rw [h, h pc, he, Function.update_self]
  omega

theorem tally_update_eq {w : P → ℕ} {pc : ι → P} {t : ι} {c : P} (h : w c = w (pc t)) :
    tally w (Function.update pc t c) = tally w pc := by
  have := tally_update w pc t c
  omega

omit [DecidableEq ι] in
theorem le_tally (w : P → ℕ) (pc : ι → P) (t : ι) : w (pc t) ≤ tally w pc :=
  Finset.single_le_sum (f := fun u => w (pc u)) (fun _ _ => Nat.zero_le _) (Finset.mem_univ t)

omit [DecidableEq ι] in
theorem tally_add (v w : P → ℕ) (pc : ι → P) :
    tally (fun c => v c + w c) pc = tally v pc + tally w pc := Finset.sum_add_distrib

omit [DecidableEq ι] in
theorem tally_mono {v w : P → ℕ} (h : ∀ c, v c ≤ w c) (pc : ι → P) : tally v pc ≤ tally w pc :=
  Finset.sum_le_sum fun t _ => h (pc t)

/-- **Exclusion**: when `w` admits one thread, no other thread has weight. -/
theorem weight_eq_zero_of_ne {w : P → ℕ} {pc : ι → P} {t u : ι} (h : tally w pc ≤ 1)
    (ht : 1 ≤ w (pc t)) (hu : u ≠ t) : w (pc u) = 0 := by
  have h1 := Finset.add_sum_erase Finset.univ (fun u => w (pc u)) (Finset.mem_univ t)
  have h2 := Finset.single_le_sum (f := fun u => w (pc u)) (fun _ _ => Nat.zero_le _)
    (Finset.mem_erase.mpr ⟨hu, Finset.mem_univ u⟩)
  simp only [tally] at h
  omega

/-- When `w` admits one thread and `t` is that thread, a weight below `w` that vanishes at `t`
vanishes everywhere. -/
theorem tally_eq_zero_of_exclusive {w v : P → ℕ} {pc : ι → P} {t : ι} (h : tally w pc ≤ 1)
    (ht : 1 ≤ w (pc t)) (hv : v (pc t) = 0) (hvw : ∀ c, v c ≤ w c) : tally v pc = 0 := by
  refine Finset.sum_eq_zero fun u _ => ?_
  by_cases hu : u = t
  · rw [hu, hv]
  · have h1 := weight_eq_zero_of_ne h ht hu
    have h2 := hvw (pc u)
    omega

omit [DecidableEq ι] in
theorem tally_eq_zero {w : P → ℕ} {pc : ι → P} (h : ∀ t, w (pc t) = 0) : tally w pc = 0 :=
  Finset.sum_eq_zero fun t _ => h t

omit [DecidableEq ι] in
theorem tally_le_card {w : P → ℕ} (h : ∀ c, w c ≤ 1) (pc : ι → P) : tally w pc ≤ Fintype.card ι := by
  have := Finset.sum_le_card_nsmul Finset.univ (fun t => w (pc t)) 1 fun t _ => h (pc t)
  rwa [smul_eq_mul, mul_one] at this

omit [DecidableEq ι] in
theorem exists_weight_eq_zero {w : P → ℕ} {pc : ι → P} (h : tally w pc < Fintype.card ι) :
    ∃ t, w (pc t) = 0 := by
  by_contra hn
  have hle : ∀ t ∈ Finset.univ, 1 ≤ w (pc t) := fun t _ =>
    Nat.one_le_iff_ne_zero.mpr fun h0 => hn ⟨t, h0⟩
  have := Finset.card_nsmul_le_sum Finset.univ (fun t => w (pc t)) 1 hle
  rw [smul_eq_mul, mul_one] at this
  exact absurd h (not_lt.mpr this)

omit [DecidableEq ι] in
theorem weight_eq_one_of_card_le {w : P → ℕ} {pc : ι → P} (hw : ∀ c, w c ≤ 1)
    (h : Fintype.card ι ≤ tally w pc) (t : ι) : w (pc t) = 1 := by
  have heq : ∑ t, w (pc t) = ∑ _t : ι, 1 := by
    rw [Finset.sum_const, smul_eq_mul, mul_one]
    exact le_antisymm (tally_le_card hw pc) h
  exact (Finset.sum_eq_sum_iff_of_le fun t _ => hw (pc t)).mp heq t (Finset.mem_univ t)

end Backend
