import Backend.Lib.Compare
import Mathlib.Data.Fintype.Card
import Mathlib.Order.Interval.Finset.Basic
import Mathlib.Data.Int.Interval
import Mathlib.Tactic.Linarith

/-!
# One sorted order

* `exists_ge_of_injOn`: a permutation of a range cannot take all places up to `i` below `i`;
* **`sortedOn_unique`**: two sorted rearrangements of the same values compare equal at every place.
-/

set_option autoImplicit false

namespace Backend

open Function

theorem exists_ge_of_injOn {lo i : ℤ} (hi : lo ≤ i) {f : ℤ → ℤ} (hf : Injective f) (hlo : ∀ j, lo ≤ j → j ≤ i → lo ≤ f j) :
    ∃ j, lo ≤ j ∧ j ≤ i ∧ i ≤ f j := by
  by_contra hno
  have hmaps : ∀ j ∈ Finset.Icc lo i, f j ∈ Finset.Ico lo i := by
    intro j hj
    obtain ⟨h₁, h₂⟩ := Finset.mem_Icc.mp hj
    refine Finset.mem_Ico.mpr ⟨hlo j h₁ h₂, ?_⟩
    by_contra hge
    exact hno ⟨j, h₁, h₂, by omega⟩
  have hcard := Finset.card_le_card_of_injOn f hmaps hf.injOn
  rw [Int.card_Icc, Int.card_Ico] at hcard
  omega

variable {α : Type*} {c : α → α → ℤ} {a b b' : ℤ → α} {lo hi : ℤ}

theorem sortedOn_le (hc : TotalPreorder c) (h : Rearranged (Set.Ico lo hi) a b) (h' : Rearranged (Set.Ico lo hi) a b')
    (hs : SortedOn c lo hi b) (hs' : SortedOn c lo hi b') {i : ℤ} (h0 : lo ≤ i) (h1 : i < hi) : c (b i) (b' i) ≤ 0 := by
  obtain ⟨σ, hσ, rfl⟩ := h
  obtain ⟨τ, hτ, rfl⟩ := h'
  -- where the value at a place of the second one is in the first one
  have hplace : ∀ j, (a ∘ σ) (σ.symm (τ j)) = (a ∘ τ) j := by
    intro j
    rw [comp_apply, comp_apply, Equiv.apply_symm_apply]
  have hin : ∀ j, j ∈ Set.Ico lo hi → σ.symm (τ j) ∈ Set.Ico lo hi := by
    intro j hj
    by_contra hout
    have hfix : τ j = σ.symm (τ j) := by
      have := hσ _ hout
      rwa [Equiv.apply_symm_apply] at this
    have hout' : τ j ∉ Set.Ico lo hi := by rwa [hfix]
    have hj' : τ j = j := τ.injective (hτ _ hout')
    exact hout' (by rwa [hj'])
  obtain ⟨j, hj0, hj1, hge⟩ := exists_ge_of_injOn h0 (σ.symm.injective.comp τ.injective)
    fun j hj0 hj1 => (hin j ⟨hj0, by omega⟩).1
  have hlt := (hin j ⟨hj0, by omega⟩).2
  have hup : c ((a ∘ σ) i) ((a ∘ τ) j) ≤ 0 := by
    rw [← hplace j]
    exact hs i _ h0 hge hlt
  exact hc.trans _ _ _ hup (hs' j i hj0 hj1 h1)

/-- **Two sorted rearrangements** of the same values compare equal at every place. -/
theorem sortedOn_unique (hc : TotalPreorder c) (h : Rearranged (Set.Ico lo hi) a b) (h' : Rearranged (Set.Ico lo hi) a b')
    (hs : SortedOn c lo hi b) (hs' : SortedOn c lo hi b') {i : ℤ} (h0 : lo ≤ i) (h1 : i < hi) : c (b i) (b' i) = 0 := by
  have hle := sortedOn_le hc h h' hs hs' h0 h1
  have hge := (hc.flip _ _).mp (sortedOn_le hc h' h hs' hs h0 h1)
  omega

end Backend
