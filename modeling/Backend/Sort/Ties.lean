import Backend.Sort.Merge

/-!
# The order of equal elements after `MergeSort`

Of two elements that compare equal `Merge` takes that of the right range first, at every level of the recursion.

* `merge_ties`: the equal elements of two ranges change their sides;
* `doMergeSort_ties`, **`ties_of_mergeSort`**: equal elements come out in the reverse of their order;
* `mergeSort_not_stable`: two elements that are exchanged.
-/

set_option autoImplicit false

namespace Backend.Sort

open List

variable {size : ℕ} {c : Elem size → Elem size → ℤ} {n mid high : ℤ} {m buf m' buf' : Block} {x : Elem size}

/-- The equal elements of the right range come first. -/
theorem merge_ties (hc : TotalPreorder c) (hn : size * n < 2 ^ 32) (h30 : n ≤ 2 ^ 30) (hlen : m.len = size * n)
    (hbuf : size * n ≤ buf.len) {low : ℤ} (h0 : 0 ≤ low) (hlow : low ≤ mid) (hmid : mid < high)
    (hhigh : high < n) (hs : SortedOn c (mid + 1) (high + 1) (m.view size))
    (h : merge c low mid high m buf = some (m', buf')) :
    ties c x low (high + 1) (m'.view size) =
      ties c x (mid + 1) (high + 1) (m.view size) ++ ties c x low (mid + 1) (m.view size) := by
  obtain ⟨m₁, buf₁, he, -, -, hmap, -⟩ := merge_places (c := c) hn h30 hlen hbuf h0 hlow hmid hhigh
  obtain ⟨rfl, rfl⟩ := Prod.mk.inj (Option.some.inj (he.symm.trans h))
  rw [ties, hmap, filter_map, mergePlaces, filter_merge_lt (r := fun i j => c (m.view size i) (m.view size j) ≤ 0),
    map_append, ← filter_map, ← filter_map]
  · rfl
  · intro i j k hij hjk
    exact decide_eq_true (hc.lt_of_lt_of_le (of_decide_eq_true hij) hjk)
  · intro i j hi hj hij
    exact hc.not_lt_of_eq (of_decide_eq_true hi) (of_decide_eq_true hj) (of_decide_eq_true hij)
  · exact pairwise_of_sortedOn hs

/-- **Every merge turns the equal elements round.** -/
theorem doMergeSort_ties (hc : TotalPreorder c) (hn : size * n < 2 ^ 32) (h30 : n ≤ 2 ^ 30) (fuel : ℕ) {low high : ℤ}
    {m buf m' buf' : Block} (hlen : m.len = size * n) (hbuf : size * n ≤ buf.len) (h0 : 0 ≤ low)
    (hle : low ≤ high + 1) (hhigh : high < n) (hf : high - low < fuel) (hf0 : 0 < fuel)
    (h : doMergeSort c fuel low high m buf = some (m', buf')) :
    ties c x low (high + 1) (m'.view size) = (ties c x low (high + 1) (m.view size)).reverse := by
  induction fuel generalizing low high m buf m' buf' with
  | zero => omega
  | succ fuel ih =>
    rw [doMergeSort] at h
    by_cases hlt : low < high
    · rw [if_pos hlt, i32_of_lt (by omega) (by omega), Int.tdiv_eq_ediv_of_nonneg (by omega)] at h
      obtain ⟨mid, hmid⟩ : ∃ mid, mid = (low + high) / 2 := ⟨_, rfl⟩
      simp only [← hmid, i32_of_lt (show -2 ^ 31 ≤ mid + 1 by omega) (by omega)] at h
      obtain ⟨m₁, buf₁, he₁, hlen₁, hbuf₁, hr₁, -⟩ := doMergeSort_spec (c := c) hn h30 fuel hlen hbuf h0
        (show low ≤ mid + 1 by omega) (by omega) (by omega) (by omega)
      obtain ⟨m₂, buf₂, he₂, hlen₂, hbuf₂, hr₂, hs₂⟩ := doMergeSort_spec (c := c) hn h30 fuel (hlen₁.trans hlen)
        (hbuf.trans hbuf₁.ge) (show 0 ≤ mid + 1 by omega) (show mid + 1 ≤ high + 1 by omega) hhigh (by omega) (by omega)
      simp only [he₁, he₂, Option.bind_eq_bind, Option.bind_some] at h
      have ht₁ := ih hlen hbuf h0 (by omega) (by omega) (by omega) (by omega) he₁
      have ht₂ := ih (hlen₁.trans hlen) (hbuf.trans hbuf₁.ge) (by omega) (by omega) hhigh (by omega) (by omega) he₂
      have ht₃ := merge_ties (x := x) hc hn h30 (hlen₂.trans (hlen₁.trans hlen))
        (hbuf.trans (hbuf₂.trans hbuf₁).ge) h0 (show low ≤ mid by omega) (show mid < high by omega) hhigh (hs₂ hc) h
      -- each half is left alone while the other is sorted
      have hleft : ties c x low (mid + 1) (m₂.view size) = ties c x low (mid + 1) (m₁.view size) :=
        ties_congr fun i _ hi => hr₂.off (by rw [Set.mem_Ico]; omega)
      have hright : ties c x (mid + 1) (high + 1) (m₁.view size) = ties c x (mid + 1) (high + 1) (m.view size) :=
        ties_congr fun i hi _ => hr₁.off (by rw [Set.mem_Ico]; omega)
      rw [ht₃, ht₂, hleft, ht₁, hright, ← reverse_append, ties_append (by omega) (by omega)]
    · rw [if_neg hlt] at h
      obtain ⟨rfl, rfl⟩ := Prod.mk.inj (Option.some.inj h)
      exact (ties_reverse_of_le (by omega)).symm

/-- **`MergeSort` reverses equal elements**: those that compare equal to `x` come out in the reverse of their order. -/
theorem ties_of_mergeSort (hsize : 0 < size) (hc : TotalPreorder c) {num : ℤ} (h0 : 0 ≤ num)
    (hn : size * num ≤ 2 ^ 30) {m : Block} (hlen : m.len = size * num) (buf : ℤ → UInt8) :
    ∃ m', mergeSort c num m buf = some m' ∧
      ∀ x, ties c x 0 num (m'.view size) = (ties c x 0 num (m.view size)).reverse := by
  have hle := le_mul_size hsize h0
  obtain ⟨m', buf', he, hm, -⟩ := mergeSort_eq_doMergeSort c h0 (by omega) (by omega) hlen buf
  refine ⟨m', hm, fun x => ?_⟩
  have ht := doMergeSort_ties (x := x) hc (by omega) (show num ≤ 2 ^ 30 by omega) (num.toNat + 1) hlen
    (lt_bufferLen h0 (by omega)).le le_rfl (show 0 ≤ num - 1 + 1 by omega) (by omega) (by omega) (by omega) he
  rwa [sub_add_cancel] at ht

/-- Two elements, `0, 1` and `0, 3`. -/
def twoTied : Block := ⟨4, fun i => UInt8.ofNat (i.toNat % 2 * i.toNat)⟩

theorem ties_of_mergeSort_two : ∃ m', mergeSort compareFirst 2 twoTied (fun _ => 0) = some m' ∧
    ∀ x, ties compareFirst x 0 2 (m'.view 2) = (ties compareFirst x 0 2 (twoTied.view 2)).reverse :=
  ties_of_mergeSort Nat.zero_lt_two totalPreorder_compareFirst (by decide) (by decide) (by decide) _

/-- Compared by their first bytes they are equal, and they are exchanged. -/
theorem mergeSort_not_stable : TotalPreorder compareFirst ∧
    (mergeSort compareFirst 2 twoTied fun _ => 0).map (fun m' => ties compareFirst (fun _ => 0) 0 2 (m'.view 2)) ≠
      some (ties compareFirst (fun _ => 0) 0 2 (twoTied.view 2)) :=
  ⟨totalPreorder_compareFirst, by decide⟩

end Backend.Sort
