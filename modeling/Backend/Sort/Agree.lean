import Backend.Lib.SortUnique
import Backend.Sort.Quick
import Backend.Sort.Heap
import Backend.Sort.Merge
import Backend.Sort.Insertion

/-!
# The four sorting functions agree

* **`sorts_agree`**: `QSort`, `HeapSort`, `MergeSort` and `EQSort` put elements that compare equal at every place, and the
  same elements if the comparator tells different elements apart.
-/

set_option autoImplicit false

namespace Backend.Sort

variable {size : ℕ} {c : Elem size → Elem size → ℤ}

/-- The two blocks have the same elements, up to the comparator. -/
def Agree (c : Elem size → Elem size → ℤ) (num : ℤ) (m m' : Block) : Prop :=
  ∀ i, 0 ≤ i → i < num → c (m.view size i) (m'.view size i) = 0

/-- What a sorting function does with a total preorder. -/
def Sorts (c : Elem size → Elem size → ℤ) (num : ℤ) (m m' : Block) : Prop :=
  Rearranged (Set.Ico 0 num) (m.view size) (m'.view size) ∧ SortedOn c 0 num (m'.view size)

theorem Sorts.agree {num : ℤ} {m m' m'' : Block} (hc : TotalPreorder c) (h : Sorts c num m m') (h' : Sorts c num m m'') :
    Agree c num m' m'' := by
  intro i h0 h1
  exact sortedOn_unique hc h.1 h'.1 h.2 h'.2 h0 h1

/-- **The four functions agree** on every array, whatever is in the buffer of `MergeSort`: they all end, and at every place
their results compare equal; if different elements never compare equal, the results have the same elements. -/
theorem sorts_agree (hsize : 0 < size) (hc : TotalPreorder c) {num : ℤ} (h0 : 0 ≤ num) (hn : size * num ≤ 2 ^ 30)
    {m : Block} (hlen : m.len = size * num) (buf : ℤ → UInt8) :
    ∃ mq mh mm me visits, qSort c num m = some mq ∧ heapSort c num m = some mh ∧ mergeSort c num m buf = some mm ∧
      eqSort c num m = some (me, visits) ∧ (∀ m₁ ∈ [mq, mh, mm, me], ∀ m₂ ∈ [mq, mh, mm, me], Agree c num m₁ m₂) ∧
      ((∀ x y, c x y = 0 → x = y) → ∀ m₁ ∈ [mq, mh, mm, me], ∀ m₂ ∈ [mq, mh, mm, me], ∀ i, 0 ≤ i → i < num →
        m₁.view size i = m₂.view size i) := by
  have hle := le_mul_size hsize h0
  obtain ⟨mq, heq, hrq, hsq⟩ := qSort_spec c h0 (by omega) (by omega) hlen
  obtain ⟨mh, heh, hrh, hsh⟩ := heapSort_spec c h0 (by omega) (by omega) hlen
  obtain ⟨mm, _, _, hem, hrm, hsm⟩ := mergeSort_eq_doMergeSort c h0 (by omega) (by omega) hlen buf
  obtain ⟨me, visits, hee, hre, hse, _⟩ := eqSort_spec hc hsize (by omega) hlen h0
  have hall : ∀ m' ∈ [mq, mh, mm, me], Sorts c num m m' := by
    intro m' hm'
    simp only [List.mem_cons, List.not_mem_nil, or_false] at hm'
    rcases hm' with rfl | rfl | rfl | rfl
    · exact ⟨hrq, hsq hc⟩
    · exact ⟨hrh, hsh hc⟩
    · exact ⟨hrm, hsm hc⟩
    · exact ⟨hre, hse⟩
  refine ⟨mq, mh, mm, me, visits, heq, heh, hem, hee, fun m₁ h₁ m₂ h₂ => (hall m₁ h₁).agree hc (hall m₂ h₂), ?_⟩
  intro hanti m₁ h₁ m₂ h₂ i hi0 hi1
  exact hanti _ _ ((hall m₁ h₁).agree hc (hall m₂ h₂) i hi0 hi1)

/-- Five elements of two bytes, compared by their first bytes. -/
theorem sorts_agree_five : ∃ mq mh mm me visits,
    qSort compareFirst 5 ⟨10, fun i => UInt8.ofNat (i * 5 % 7).toNat⟩ = some mq ∧
    heapSort compareFirst 5 ⟨10, fun i => UInt8.ofNat (i * 5 % 7).toNat⟩ = some mh ∧
    mergeSort compareFirst 5 ⟨10, fun i => UInt8.ofNat (i * 5 % 7).toNat⟩ (fun _ => 0) = some mm ∧
    eqSort compareFirst 5 ⟨10, fun i => UInt8.ofNat (i * 5 % 7).toNat⟩ = some (me, visits) ∧
    ∀ m₁ ∈ [mq, mh, mm, me], ∀ m₂ ∈ [mq, mh, mm, me], Agree compareFirst 5 m₁ m₂ := by
  obtain ⟨mq, mh, mm, me, visits, h₁, h₂, h₃, h₄, h, -⟩ := sorts_agree Nat.zero_lt_two totalPreorder_compareFirst
    (show (0 : ℤ) ≤ 5 by decide) (by decide) (m := ⟨10, fun i => UInt8.ofNat (i * 5 % 7).toNat⟩) (by decide) (fun _ => 0)
  exact ⟨mq, mh, mm, me, visits, h₁, h₂, h₃, h₄, h⟩

end Backend.Sort
