import Backend.Lib.BinaryHeap
import Backend.Sort.Model

/-!
# `HeapSort` sorts

`HeapAdjust` keeps the element at `begin` in the buffer and lets the hole sink to where it belongs; it writes
the element back only if the hole has moved.

* `largerChild_spec`, `siftLoop_round`, `siftLoop_spec`, **`heapAdjust_spec`**;
* `buildLoop_spec`, `extractLoop_spec`, **`sorted_of_heapSort`**.
-/

set_option autoImplicit false

namespace Backend.Sort

open Function

variable {size : ℕ} {c : Elem size → Elem size → ℤ} {n last : ℤ} {m : Block}

/-! ## `HeapAdjust` -/

theorem i32_child {i : ℤ} (h0 : 0 ≤ i) (h : i < 2 ^ 30) : i32 (i32 (i * 2) + 1) = 2 * i + 1 := by
  rw [i32_of_lt (x := i * 2) (by omega) (by omega), i32_of_lt (by omega) (by omega), mul_comm]

theorem largerChild_spec (hlen : m.len = size * n) (hn : size * n < 2 ^ 32) (h30 : n ≤ 2 ^ 30) {i : ℤ}
    (h0 : 0 ≤ i) (hi : i ≤ last) (hl : last < n) :
    ∃ j, largerChild c m last i = some j ∧ (j = i ∨ j = i + 1) ∧ j ≤ last ∧
      (TotalPreorder c → ∀ k, k = i ∨ k = i + 1 → k ≤ last → c (m.view size k) (m.view size j) ≤ 0) := by
  unfold largerChild
  by_cases hlt : i < last
  · rw [if_pos hlt, load_idx hlen hn h0 (by omega), i32_of_lt (by omega) (by omega),
      load_idx hlen hn (by omega) (by omega)]
    simp only [Option.bind_eq_bind, Option.bind_some]
    by_cases hc : c (m.view size i) (m.view size (i + 1)) < 0
    · rw [if_pos hc]
      refine ⟨i + 1, rfl, Or.inr rfl, by omega, fun ht k hk _ => ?_⟩
      rcases hk with rfl | rfl
      · exact hc.le
      · exact ht.refl _
    · rw [if_neg hc]
      refine ⟨i, rfl, Or.inl rfl, hi, fun ht k hk _ => ?_⟩
      rcases hk with rfl | rfl
      · exact ht.refl _
      · exact ht.le_of_not_lt hc
  · rw [if_neg hlt]
    refine ⟨i, rfl, Or.inl rfl, hi, fun ht k hk hkl => ?_⟩
    rw [show k = i by omega]
    exact ht.refl _

/-- One round: the loop ends where no child is larger, or the hole moves to the larger child. -/
theorem siftLoop_round (hn : size * n < 2 ^ 32) (h30 : n ≤ 2 ^ 30) (ele : Elem size) (hl : last < n) (fuel : ℕ) {h : ℤ}
    (hlen : m.len = size * n) (h0 : 0 ≤ h) (hh : h ≤ last) :
    (siftLoop c ele last (fuel + 1) h (2 * h + 1) m = some (h, m) ∧
      (TotalPreorder c → ∀ k, IsChild h k → k ≤ last → c (m.view size k) ele ≤ 0)) ∨
    ∃ j m₁, IsChild h j ∧ j ≤ last ∧
      siftLoop c ele last (fuel + 1) h (2 * h + 1) m = siftLoop c ele last fuel j (2 * j + 1) m₁ ∧
      m₁.len = size * n ∧ m₁.view size = update (m.view size) h (m.view size j) ∧ c ele (m.view size j) < 0 ∧
      (TotalPreorder c → ∀ k, IsChild h k → k ≤ last → c (m.view size k) (m.view size j) ≤ 0) := by
  rw [siftLoop]
  unfold IsChild
  by_cases hi : 2 * h + 1 ≤ last
  · obtain ⟨j, hj, hij, hjl, hlarge⟩ := largerChild_spec (c := c) hlen hn h30 (i := 2 * h + 1) (by omega) hi hl
    rw [if_pos hi, hj]
    simp only [Option.bind_eq_bind, Option.bind_some]
    rw [load_idx hlen hn (by omega) (by omega), Option.bind_some]
    by_cases hc : c ele (m.view size j) ≥ 0
    · refine Or.inl ⟨if_pos hc, fun ht k hk hkl => ?_⟩
      exact ht.trans _ _ _ (hlarge ht k (by omega) hkl) (ht.le_of_ge hc)
    · obtain ⟨m₁, he₁, hlen₁, hv₁⟩ := store_idx hlen hn h0 (show h < n by omega) (m.view size j)
      rw [if_neg hc, he₁, Option.bind_some, i32_child (by omega) (by omega)]
      exact Or.inr ⟨j, m₁, by omega, hjl, rfl, hlen₁, hv₁, by omega, fun ht k hk hkl => hlarge ht k (by omega) hkl⟩
  · rw [if_neg hi]
    exact Or.inl ⟨rfl, fun _ k hk hkl => by omega⟩

theorem siftLoop_spec (hn : size * n < 2 ^ 32) (h30 : n ≤ 2 ^ 30) (ele : Elem size) (hl : last < n)
    (fuel : ℕ) {h : ℤ} {m : Block} (hlen : m.len = size * n) (h0 : 0 ≤ h) (hh : h ≤ last)
    (hf : last - h < fuel) :
    ∃ h' m', siftLoop c ele last fuel h (2 * h + 1) m = some (h', m') ∧ m'.len = m.len ∧ h ≤ h' ∧
      h' ≤ last ∧ (h' = h → m' = m) ∧
      Rearranged (Set.Icc h last) (update (m.view size) h ele) (update (m'.view size) h' ele) ∧
      (TotalPreorder c → ∀ first, 0 ≤ first → first ≤ h →
        Sifting c first last h (update (m.view size) h ele) →
          HeapOn c first last (update (m'.view size) h' ele)) := by
  induction fuel generalizing h m with
  | zero => omega
  | succ fuel ih =>
    have hv : ∀ k, IsChild h k → update (m.view size) h ele k = m.view size k := fun k hk =>
      update_of_ne (hk.lt h0).ne' _ _
    rcases siftLoop_round (c := c) hn h30 ele hl fuel hlen h0 hh with
      ⟨he, hstop⟩ | ⟨j, m₁, hchild, hjl, he, hlen₁, hv₁, hc, hlarge⟩
    · refine ⟨h, m, he, rfl, le_rfl, hh, fun _ => rfl, Rearranged.refl _ _, fun ht first _ _ hs => ?_⟩
      refine hs.finish fun k hk hkl => ?_
      rw [hv k hk, update_self]
      exact hstop ht k hk hkl
    · have hlt : h < j := hchild.lt h0
      obtain ⟨h', m', he', hlen', hle, hl', hsame, hr, hs⟩ := ih hlen₁ (by omega) hjl (by omega)
      refine ⟨h', m', he.trans he', hlen'.trans (hlen₁.trans hlen.symm), by omega, hl', fun hno => by omega, ?_, ?_⟩
      · have hr₁ := rearranged_hole (S := Set.Icc h last) (m.view size) ele (h := h) (j := j)
          ⟨le_rfl, hh⟩ ⟨by omega, hjl⟩
        rw [← hv₁] at hr₁
        exact hr₁.trans (hr.mono (Set.Icc_subset_Icc_left (by omega)))
      · intro ht first hf0 hfh hsift
        refine hs ht first hf0 (by omega) ?_
        have hmove := hsift.move h0 hfh hchild hjl (fun k hk hkl => ?_) ?_
        · rwa [hv j hchild, update_self, update_idem, ← hv₁] at hmove
        · rw [hv k hk, hv j hchild]
          exact hlarge ht k hk hkl
        · rw [hv j hchild, update_self]
          exact hc.le

/-- **`HeapAdjust`** makes the heap begin one place earlier. -/
theorem heapAdjust_spec (hn : size * n < 2 ^ 32) (h30 : n ≤ 2 ^ 30) {cap : ℤ} (hcap : size < cap)
    (hlen : m.len = size * n) {first : ℤ} (h0 : 0 ≤ first) (hle : first ≤ last) (hl : last < n) :
    ∃ m', heapAdjust c cap first last m = some m' ∧ m'.len = m.len ∧
      Rearranged (Set.Icc first last) (m.view size) (m'.view size) ∧
      (TotalPreorder c → HeapOn c (first + 1) last (m.view size) → HeapOn c first last (m'.view size)) := by
  obtain ⟨h, m₁, he, hlen₁, hh, hhl, hsame, hr, hs⟩ := siftLoop_spec (c := c) hn h30 (m.view size first) hl
    (last.toNat + 2) hlen h0 hle (by omega)
  rw [update_eq_self] at hr hs
  unfold heapAdjust
  rw [load_idx hlen hn h0 (by omega)]
  simp only [Option.bind_eq_bind, Option.bind_some]
  rw [keep, if_pos hcap, Option.bind_some, i32_child h0 (by omega), he, Option.bind_some]
  by_cases hne : h = first
  · rw [hne, hsame hne, update_eq_self] at hr hs
    rw [if_neg (not_not.mpr hne), hsame hne]
    exact ⟨m, rfl, rfl, hr, fun ht ha => hs ht first h0 le_rfl (sifting_of_heapOn h0 ha)⟩
  · obtain ⟨m₂, he₂, hlen₂, hv₂⟩ := store_idx (hlen₁.trans hlen) hn (show 0 ≤ h by omega)
      (show h < n by omega) (m.view size first)
    rw [if_pos hne]
    refine ⟨m₂, he₂, hlen₂.trans hlen.symm, ?_, fun ht ha => ?_⟩
    · rwa [hv₂]
    · rw [hv₂]
      exact hs ht first h0 le_rfl (sifting_of_heapOn h0 ha)

/-! ## `HeapSort` -/

theorem buildLoop_spec (hn : size * n < 2 ^ 32) (h30 : n ≤ 2 ^ 30) {cap : ℤ} (hcap : size < cap)
    (fuel : ℕ) {i : ℤ} {m : Block} (hlen : m.len = size * n) (h1 : -1 ≤ i) (hi : i < n) (hf : i + 1 < fuel) :
    ∃ m', buildLoop c cap (n - 1) fuel i m = some m' ∧ m'.len = m.len ∧
      Rearranged (Set.Ico 0 n) (m.view size) (m'.view size) ∧
      (TotalPreorder c → HeapOn c (i + 1) (n - 1) (m.view size) → HeapOn c 0 (n - 1) (m'.view size)) := by
  induction fuel generalizing i m with
  | zero => omega
  | succ fuel ih =>
    rw [buildLoop]
    by_cases h0 : i ≥ 0
    · obtain ⟨m₁, he₁, hlen₁, hr₁, hs₁⟩ := heapAdjust_spec (c := c) hn h30 hcap hlen h0
        (show i ≤ n - 1 by omega) (by omega)
      obtain ⟨m', he, hlen', hr, hs⟩ := ih (i := i - 1) (hlen₁.trans hlen) (by omega) (by omega) (by omega)
      have hsub : Set.Icc i (n - 1) ⊆ Set.Ico 0 n :=
        (Set.Icc_subset_Ico_right (by omega)).trans (Set.Ico_subset_Ico_left h0)
      refine ⟨m', ?_, hlen'.trans hlen₁, (hr₁.mono hsub).trans hr, fun ht ha => hs ht ?_⟩
      · rw [if_pos h0, he₁]
        exact he
      · rw [sub_add_cancel]
        exact hs₁ ht ha
    · have hi' : i = -1 := by omega
      subst hi'
      rw [if_neg h0]
      exact ⟨m, rfl, rfl, Rearranged.refl _ _, fun _ ha => ha⟩

/-- What the second loop keeps: a heap up to `i`, and behind it the larger elements in order. -/
structure Extracted (c : Elem size → Elem size → ℤ) (n i : ℤ) (a : ℤ → Elem size) : Prop where
  heap : HeapOn c 0 i a
  sorted : SortedOn c (i + 1) n a
  le : ∀ j k, 0 ≤ j → j ≤ i → i < k → k < n → c (a j) (a k) ≤ 0

/-- One round: the root goes to place `i`, and the heap is adjusted in front of it. -/
theorem Extracted.round (hc : TotalPreorder c) {i : ℤ} (hi : 0 < i) {a a₁ a₂ : ℤ → Elem size}
    (ha : Extracted c n i a) (h₁ : a₁ = update (update a i (a 0)) 0 (a i))
    (h₂ : Rearranged (Set.Icc 0 (i - 1)) a₁ a₂) (hheap : HeapOn c 0 (i - 1) a₂) :
    Extracted c n (i - 1) a₂ := by
  have hoff : ∀ k, i < k → a₂ k = a k := by
    intro k hk
    rw [h₂.off (by rw [Set.mem_Icc]; omega), h₁, update_of_ne (by omega), update_of_ne (by omega)]
  have hroot : a₂ i = a 0 := by
    rw [h₂.off (by rw [Set.mem_Icc]; omega), h₁, update_of_ne hi.ne', update_self]
  -- the rest of the heap holds values of the old heap
  have hold : ∀ j ∈ Set.Icc 0 (i - 1), ∃ k, 0 ≤ k ∧ k ≤ i ∧ a₁ j = a k := by
    intro j hj
    obtain ⟨hj, hj'⟩ := hj
    rw [h₁]
    by_cases hj0 : j = 0
    · rw [hj0, update_self]
      exact ⟨i, hi.le, le_rfl, rfl⟩
    · rw [update_of_ne hj0, update_of_ne (by omega)]
      exact ⟨j, hj, by omega, rfl⟩
  have hmem := h₂.forall_mem (P := fun x => ∃ k, 0 ≤ k ∧ k ≤ i ∧ x = a k) hold
  refine ⟨hheap, ?_, ?_⟩
  · rw [sub_add_cancel]
    refine sortedOn_append hc (i + 1) (a 0) (sortedOn_of_le hc (by omega) _) ?_ ?_ ?_
    · exact ha.sorted.congr fun k hk _ => hoff k (by omega)
    · intro k hk hk'
      rw [show k = i by omega, hroot]
      exact hc.refl _
    · intro k hk hk'
      rw [hoff k (by omega)]
      exact ha.le 0 k le_rfl hi.le (by omega) hk'
  · intro j k hj hj' hk hk'
    obtain ⟨l, hl, hl', he⟩ := hmem j ⟨hj, hj'⟩
    rw [he]
    by_cases hki : k = i
    · rw [hki, hroot]
      exact ha.heap.le_root hc hl hl'
    · rw [hoff k (by omega)]
      exact ha.le l k hl hl' (by omega) hk'

theorem Extracted.sortedOn (hc : TotalPreorder c) {i : ℤ} (hi : i ≤ 0) {a : ℤ → Elem size}
    (ha : Extracted c n i a) : SortedOn c 0 n a := by
  intro j k hj hjk hk
  by_cases hji : i < j
  · exact ha.sorted j k (by omega) hjk hk
  · by_cases hjk' : j = k
    · rw [hjk']
      exact hc.refl _
    · exact ha.le j k hj (by omega) (by omega) hk

theorem extractLoop_spec (hn : size * n < 2 ^ 32) (h30 : n ≤ 2 ^ 30) {cap : ℤ} (hcap : size < cap)
    (fuel : ℕ) {i : ℤ} {m : Block} (hlen : m.len = size * n) (hi : i < n) (hf : i < fuel) (hf0 : 0 < fuel) :
    ∃ m', extractLoop c cap fuel i m = some m' ∧ m'.len = m.len ∧
      Rearranged (Set.Ico 0 n) (m.view size) (m'.view size) ∧
      (TotalPreorder c → Extracted c n i (m.view size) → SortedOn c 0 n (m'.view size)) := by
  induction fuel generalizing i m with
  | zero => omega
  | succ fuel ih =>
    rw [extractLoop]
    by_cases h0 : i > 0
    · rw [if_pos h0, load_idx hlen hn h0.le hi]
      simp only [Option.bind_eq_bind, Option.bind_some]
      have hzero := load_view hlen le_rfl (show 0 < n by omega)
      rw [mul_zero] at hzero
      obtain ⟨m₀, he₀, hlen₀, hv₀⟩ := store_idx hlen hn h0.le hi (m.view size 0)
      obtain ⟨m₁, he₁, hlen₁, hv₁⟩ := store_view hlen₀ le_rfl (show 0 < n by omega) (m.view size i)
      rw [mul_zero] at he₁
      rw [hold, if_pos hcap.le, Option.bind_some, hzero, Option.bind_some, he₀, Option.bind_some, he₁,
        Option.bind_some]
      rw [hv₀] at hv₁
      obtain ⟨m₂, he₂, hlen₂, hr₂, hs₂⟩ := heapAdjust_spec (c := c) hn h30 hcap hlen₁ le_rfl
        (show 0 ≤ i - 1 by omega) (by omega)
      obtain ⟨m', he, hlen', hr, hs⟩ := ih (i := i - 1) (hlen₂.trans hlen₁) (by omega) (by omega) (by omega)
      rw [he₂, Option.bind_some]
      have hsub : Set.Icc 0 (i - 1) ⊆ Set.Ico 0 n := Set.Icc_subset_Ico_right (by omega)
      refine ⟨m', he, hlen'.trans (hlen₂.trans (hlen₁.trans hlen.symm)), ?_, fun ht ha => hs ht ?_⟩
      · have hr₁ := rearranged_swap (S := Set.Ico 0 n) (m.view size) (i := i) (j := 0) ⟨h0.le, hi⟩
          ⟨le_rfl, by omega⟩
        rw [← hv₁] at hr₁
        exact (hr₁.trans (hr₂.mono hsub)).trans hr
      · refine ha.round ht h0 hv₁ hr₂ (hs₂ ht ?_)
        rw [hv₁]
        exact ha.heap.swap_root
    · rw [if_neg h0]
      exact ⟨m, rfl, rfl, Rearranged.refl _ _, fun ht ha => ha.sortedOn ht (by omega)⟩

theorem heapSort_spec (c : Elem size → Elem size → ℤ) {num : ℤ} (h0 : 0 ≤ num) (hn : size * num < 2 ^ 32 - 1)
    (h30 : num ≤ 2 ^ 30) {m : Block} (hlen : m.len = size * num) :
    ∃ m', heapSort c num m = some m' ∧ Rearranged (Set.Ico 0 num) (m.view size) (m'.view size) ∧
      (TotalPreorder c → SortedOn c 0 num (m'.view size)) := by
  rw [heapSort, i32_of_lt (by omega) (by omega), i32_of_lt (by omega) (by omega)]
  rcases eq_or_lt_of_le h0 with rfl | hpos
  · exact ⟨m, rfl, Rearranged.refl _ _, fun hc => sortedOn_of_le hc (by omega) _⟩
  · have hcap := size_lt_cap size (show 1 ≤ num by omega) hn
    have hmid : -1 ≤ (num - 1 - 1).tdiv 2 ∧ (num - 1 - 1).tdiv 2 < num ∧
        num - 1 < 2 * ((num - 1 - 1).tdiv 2 + 1) + 1 := by
      -- the division truncates towards `0`
      by_cases h1 : num = 1
      · subst h1
        decide
      · rw [Int.tdiv_eq_ediv_of_nonneg (by omega)]
        omega
    obtain ⟨m₁, he₁, hlen₁, hr₁, hs₁⟩ := buildLoop_spec (c := c) (n := num) (by omega) (by omega) hcap
      (num.toNat + 1) hlen hmid.1 hmid.2.1 (by omega)
    obtain ⟨m₂, he₂, hlen₂, hr₂, hs₂⟩ := extractLoop_spec (c := c) (n := num) (by omega) (by omega) hcap
      (num.toNat + 1) (i := num - 1) (hlen₁.trans hlen) (by omega) (by omega) (by omega)
    refine ⟨m₂, ?_, hr₁.trans hr₂, fun hc => hs₂ hc ⟨hs₁ hc ?_, ?_, ?_⟩⟩
    · simp only [Option.bind_eq_bind, he₁, Option.bind_some]
      exact he₂
    · -- the places behind the middle have no children
      intro i j hi hij hj
      unfold IsChild at hij
      omega
    · exact sortedOn_of_le hc (by omega) _
    · intro j k hj hj' hk hk'
      omega

/-- **`HeapSort` sorts**: for every comparator it ends, stays in the array and permutes the elements; for a
total preorder the result is sorted. -/
theorem sorted_of_heapSort (hsize : 0 < size) (c : Elem size → Elem size → ℤ) {num : ℤ} (h0 : 0 ≤ num)
    (hn : size * num ≤ 2 ^ 30) {m : Block} (hlen : m.len = size * num) :
    ∃ m', heapSort c num m = some m' ∧ Rearranged (Set.Ico 0 num) (m.view size) (m'.view size) ∧
      (TotalPreorder c → SortedOn c 0 num (m'.view size)) := by
  have hle := le_mul_size hsize h0
  exact heapSort_spec c h0 (by omega) (by omega) hlen

/-- Five elements of two bytes, compared by their first bytes. -/
theorem sorted_of_heapSort_five : ∃ m', heapSort compareFirst 5 ⟨10, fun i => UInt8.ofNat (i * 5 % 7).toNat⟩ =
    some m' ∧ SortedOn compareFirst 0 5 (m'.view 2) := by
  obtain ⟨m', h, -, hs⟩ := sorted_of_heapSort Nat.zero_lt_two compareFirst (show (0 : ℤ) ≤ 5 by decide)
    (by decide) (m := ⟨10, fun i => UInt8.ofNat (i * 5 % 7).toNat⟩) (by decide)
  exact ⟨m', h, hs totalPreorder_compareFirst⟩

end Backend.Sort
