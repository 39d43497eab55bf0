import Backend.Sort.Pending

/-!
# `EQSort` sorts

After the first phase the smallest element is among the first ones. The second phase moves it to the front, where
it stops the inner loop of the insertion sort.

* `minLoop_spec`: the smallest of the first elements;
* `sortedOn_rot`, `insertLoop_spec`, **`insertionSort_spec`**: the second phase;
* `eqSort_spec`, **`sorted_of_eqSort`**, **`eqSort_in_bounds`**.
-/

set_option autoImplicit false

namespace Backend.Sort

open Function List

variable {size : ℕ} {c : Elem size → Elem size → ℤ} {n : ℤ} {m : Block}

/-! ## The smallest element -/

theorem minLoop_spec (hc : TotalPreorder c) (hsize : 0 < size) (hlen : m.len = size * n) {last : ℤ} (hl : last < n)
    (fuel : ℕ) {r t : ℤ} (ht : 0 ≤ t) (htr : t < r) (hr : r ≤ last + 1)
    (hmin : ∀ k, 0 ≤ k → k < r → c (m.view size t) (m.view size k) ≤ 0) (hf : last + 1 - r < fuel) :
    ∃ t' : ℤ, minLoop c m (size * last) fuel (size * r) (size * t) = some (size * t') ∧ 0 ≤ t' ∧ t' ≤ last ∧
      ∀ k, 0 ≤ k → k ≤ last → c (m.view size t') (m.view size k) ≤ 0 := by
  induction fuel generalizing r t with
  | zero => omega
  | succ fuel ih =>
    have hsize' : (0 : ℤ) < size := by exact_mod_cast hsize
    rw [minLoop, show (size : ℤ) * r + size = size * (r + 1) by ring]
    simp only [mul_le_mul_iff_right₀ hsize']
    by_cases hle : r ≤ last
    · rw [if_pos hle, cmpAt_spec hlen (by omega) (by omega) ht (by omega)]
      simp only [Option.bind_eq_bind, Option.bind_some]
      by_cases hlt : c (m.view size r) (m.view size t) < 0
      · rw [if_pos hlt]
        refine ih (by omega) (by omega) (by omega) (fun k hk hk' => ?_) (by omega)
        by_cases hkr : k = r
        · rw [hkr]
          exact hc.refl _
        · exact hc.trans _ _ _ hlt.le (hmin k hk (by omega))
      · rw [if_neg hlt]
        refine ih ht (by omega) (by omega) (fun k hk hk' => ?_) (by omega)
        by_cases hkr : k = r
        · rw [hkr]
          exact hc.le_of_not_lt hlt
        · exact hmin k hk (by omega)
    · rw [if_neg hle]
      exact ⟨t, rfl, ht, by omega, fun k hk hk' => hmin k hk (by omega)⟩

/-! ## Insertions -/

theorem sortedOn_rot (hc : TotalPreorder c) {a : ℤ → Elem size} {t r : ℤ} (htr : t ≤ r) (hs : SortedOn c 0 r a)
    (hl : ∀ k, 0 ≤ k → k < t → c (a k) (a r) ≤ 0) (hr : ∀ k, t ≤ k → k < r → c (a r) (a k) ≤ 0) (ht : 0 ≤ t) :
    SortedOn c 0 (r + 1) (a ∘ rot t r) := by
  intro i j hi hij hj
  rw [comp_apply, comp_apply, rot, rot]
  by_cases hjt : j = t
  · rw [if_pos hjt]
    by_cases hit : i = t
    · rw [if_pos hit]
      exact hc.refl _
    · rw [if_neg hit, if_neg (by omega)]
      exact hl i hi (by omega)
  · rw [if_neg hjt]
    by_cases hit : i = t
    · rw [if_pos hit, if_pos (by omega)]
      exact hr (j - 1) (by omega) (by omega)
    · rw [if_neg hit]
      split_ifs <;> exact hs _ _ (by omega) (by omega) (by omega)

/-- What the second phase keeps up to the element at `r`. -/
structure Inserted (c : Elem size → Elem size → ℤ) (n r : ℤ) (a : ℤ → Elem size) : Prop where
  sorted : SortedOn c 0 (r + 1) a
  least : ∀ k ∈ Set.Ico 0 n, c (a 0) (a k) ≤ 0

theorem inserted_one (hc : TotalPreorder c) {a : ℤ → Elem size} (hn : 1 < n)
    (hleast : ∀ k ∈ Set.Ico 0 n, c (a 0) (a k) ≤ 0) : Inserted c n 1 a := by
  refine ⟨fun i j hi hij hj => ?_, hleast⟩
  rcases eq_or_lt_of_le hij with rfl | hlt
  · exact hc.refl _
  · rw [show i = 0 by omega]
    exact hleast j ⟨by omega, by omega⟩

theorem insert_spec (hc : TotalPreorder c) (hsize : 0 < size) (hlen : m.len = size * n) {r : ℤ} (h0 : 0 ≤ r)
    (hr : r + 1 < n) (h : Inserted c n r (m.view size)) :
    ∃ (t : ℤ) (m' : Block), findPlace c m (size * (r + 1)) ((size * r : ℤ).toNat + 1) (size * r) = some (size * t) ∧
      moveTo size (size * (r + 1)) (size * (t + 1)) m = some m' ∧ m'.len = m.len ∧
      Rearranged (Set.Ico 0 n) (m.view size) (m'.view size) ∧
      Inserted c n (r + 1) (m'.view size) := by
  have hle := le_mul_size hsize h0
  have hstop := (hc.flip _ _).mp (h.least (r + 1) ⟨by omega, hr⟩)
  obtain ⟨t, he, ht, htr, hl, hge⟩ := scanRight_spec hlen (show 0 ≤ r + 1 by omega) hr le_rfl hstop
    ((size * r : ℤ).toNat + 1) (show r < n by omega) h0 (by omega)
  have hpos : ∀ k, 0 ≤ k → k < t + 1 → c (m.view size k) (m.view size (r + 1)) ≤ 0 := fun k hk hk' =>
    hc.trans _ _ _ (h.sorted k t hk (by omega) (by omega)) (hc.le_of_ge hge)
  have hsorted := sortedOn_rot hc (show t + 1 ≤ r + 1 by omega) h.sorted hpos
    (fun k hk hk' => hl k (by omega) (by omega)) (by omega)
  obtain ⟨m', he', hlen', hv⟩ := moveTo_spec hsize (show 0 ≤ t + 1 by omega) (show t + 1 ≤ r + 1 by omega) hr hlen
  have hrot := rearranged_rot (m.view size) (show t + 1 ≤ r + 1 by omega)
  have hsub : Set.Icc (t + 1) (r + 1) ⊆ Set.Ico 0 n :=
    (Set.Icc_subset_Ico_right hr).trans (Set.Ico_subset_Ico_left (by omega))
  rw [← hv] at hsorted hrot
  refine ⟨t, m', he, he', hlen', hrot.mono hsub, hsorted, ?_⟩
  rw [hrot.off (i := 0) (by rw [Set.mem_Icc]; omega)]
  exact (hrot.mono hsub).forall_mem (P := fun y => c (m.view size 0) y ≤ 0) h.least

theorem insertLoop_spec (hc : TotalPreorder c) (hsize : 0 < size) (fuel : ℕ) {r : ℤ} {m : Block}
    (hlen : m.len = size * n) (h0 : 0 ≤ r) (hr : r < n) (h : Inserted c n r (m.view size)) (hf : n - 1 - r < fuel) :
    ∃ m', insertLoop c (size * (n - 1)) fuel (size * r) m = some m' ∧ m'.len = m.len ∧
      Rearranged (Set.Ico 0 n) (m.view size) (m'.view size) ∧ SortedOn c 0 n (m'.view size) := by
  induction fuel generalizing r m with
  | zero => omega
  | succ fuel ih =>
    have hsize' : (0 : ℤ) < size := by exact_mod_cast hsize
    have hnext : (size : ℤ) * r + size = size * (r + 1) := by ring
    rw [insertLoop]
    by_cases hle : r + 1 ≤ n - 1
    · obtain ⟨t, m₁, he, he', hlen₁, hr₁, h₁⟩ := insert_spec hc hsize hlen h0 (by omega) h
      obtain ⟨m', he₂, hlen', hr', hs⟩ := ih (hlen₁.trans hlen) (show 0 ≤ r + 1 by omega) (by omega) h₁ (by omega)
      refine ⟨m', ?_, hlen'.trans hlen₁, hr₁.trans hr', hs⟩
      rw [hnext, if_pos (mul_le_mul_of_nonneg_left hle hsize'.le), he]
      simp only [Option.bind_eq_bind, Option.bind_some]
      rw [show (size : ℤ) * t + size = size * (t + 1) by ring, he', Option.bind_some]
      exact he₂
    · obtain rfl : r = n - 1 := by omega
      rw [hnext, if_neg fun hno => hle (le_of_mul_le_mul_left hno hsize')]
      refine ⟨m, rfl, rfl, Rearranged.refl _ _, ?_⟩
      have hs := h.sorted
      rwa [sub_add_cancel] at hs

theorem last_eq (hsize : 0 < size) (h63 : size * n < 2 ^ 63) (h1 : 1 ≤ n) :
    u64 ((size : ℤ) * u64 (n - 1)) = size * (n - 1) := by
  have hle := le_mul_size hsize (show 0 ≤ n by omega)
  have hle' : (size : ℤ) * (n - 1) ≤ size * n := mul_le_mul_of_nonneg_left (by omega) (by positivity)
  rw [u64_of_lt (x := n - 1) (by omega) (by omega)]
  exact u64_of_lt (mul_nonneg (by positivity) (by omega)) (by omega)

theorem thresh_eq (h63 : size * n < 2 ^ 63) (h1 : 1 ≤ n) :
    min ((size : ℤ) * (n - 1)) (u64 (maxThresh * size)) = size * min (n - 1) 4 := by
  rcases eq_or_lt_of_le h1 with rfl | h2
  · rw [sub_self, mul_zero, min_eq_left (show (0 : ℤ) ≤ 4 by decide), mul_zero]
    exact min_eq_left (Int.emod_nonneg _ (by decide))
  · have hle : (size : ℤ) * 2 ≤ size * n := mul_le_mul_of_nonneg_left (by omega) (by positivity)
    rw [maxThresh, u64_of_lt (x := 4 * size) (by positivity) (by omega), mul_comm 4, mul_min_of_nonneg _ _ (by positivity)]

theorem toFront_spec (hsize : 0 < size) (hs : (size : ℤ) < 2 ^ 64) (hlen : m.len = size * n) {t : ℤ} (ht : 0 ≤ t)
    (htn : t < n) :
    ∃ m', toFront size (size * t) m = some m' ∧ m'.len = m.len ∧ m'.view size = m.view size ∘ Equiv.swap t 0 := by
  rw [toFront]
  by_cases h : t = 0
  · subst h
    rw [mul_zero, if_neg (not_not.mpr rfl), Equiv.swap_self]
    exact ⟨m, rfl, rfl, rfl⟩
  · have hne : (size : ℤ) * t ≠ 0 := mul_ne_zero (by exact_mod_cast hsize.ne') h
    have hswap := swap_spec hsize hs hlen ht htn le_rfl (show 0 < n by omega)
    rw [mul_zero] at hswap
    rw [if_pos hne]
    exact hswap

theorem FrontAt.least (hc : TotalPreorder c) {a : ℤ → Elem size} {r t : ℤ} (h : FrontAt c n [] a r)
    (ht : ∀ k, 0 ≤ k → k ≤ min (n - 1) 4 → c (a t) (a k) ≤ 0) : ∀ k ∈ Set.Ico 0 n, c (a t) (a k) ≤ 0 := by
  intro k hk
  obtain ⟨h0, hn⟩ := hk
  have hr := h.nonneg
  have hrn := h.lt
  have h4 : r ≤ 4 := h.thresh.resolve_right not_mem_nil
  by_cases hk4 : k ≤ 4
  · exact ht k h0 (by omega)
  · exact hc.trans _ _ _ (ht r hr (by omega)) (h.le r k hr le_rfl (by omega) hn)

/-- **The second phase** sorts, when the smallest element is among the first ones. -/
theorem insertionSort_spec (hc : TotalPreorder c) (hsize : 0 < size) (h63 : size * n < 2 ^ 63)
    (hlen : m.len = size * n) (h1 : 1 ≤ n) {r : ℤ} (hfront : FrontAt c n [] (m.view size) r) :
    ∃ m', insertionSort c (u64 (maxThresh * size)) n m = some m' ∧ m'.len = m.len ∧
      Rearranged (Set.Ico 0 n) (m.view size) (m'.view size) ∧ SortedOn c 0 n (m'.view size) := by
  have hs : (size : ℤ) < 2 ^ 64 := by
    have := size_le_mul size h1
    omega
  have hzero : ∀ k, 0 ≤ k → k < 1 → c (m.view size 0) (m.view size k) ≤ 0 := fun k hk hk' => by
    rw [show k = 0 by omega]
    exact hc.refl _
  obtain ⟨t, he, ht, htl, hmin⟩ := minLoop_spec hc hsize hlen (show min (n - 1) 4 < n by omega) (maxThresh.toNat + 1)
    le_rfl (show (0 : ℤ) < 1 by decide) (by omega) hzero (by rw [maxThresh]; omega)
  obtain ⟨m₁, he₁, hlen₁, hv₁⟩ := toFront_spec hsize hs hlen ht (by omega)
  have hr₁ := rearranged_comp_swap (S := Set.Ico 0 n) (m.view size) (i := t) (j := 0) ⟨ht, by omega⟩
    ⟨le_rfl, by omega⟩
  have hleast := hr₁.forall_mem (P := fun y => c (m.view size t) y ≤ 0) (hfront.least hc hmin)
  rw [← hv₁] at hr₁ hleast
  rw [show m.view size t = m₁.view size 0 by rw [hv₁, comp_apply, Equiv.swap_apply_right]] at hleast
  rw [mul_one, mul_zero] at he
  rw [insertionSort, last_eq hsize h63 h1]
  simp only [thresh_eq h63 h1, he, he₁, Option.bind_eq_bind, Option.bind_some]
  rcases eq_or_lt_of_le h1 with rfl | h2
  · refine ⟨m₁, ?_, hlen₁, hr₁, sortedOn_of_le hc le_rfl _⟩
    exact if_neg (by omega)
  · obtain ⟨m', he', hlen', hr', hs'⟩ := insertLoop_spec hc hsize (n.toNat + 1) (hlen₁.trans hlen) zero_le_one h2
      (inserted_one hc h2 hleast) (by omega)
    rw [mul_one] at he'
    exact ⟨m', he', hlen'.trans hlen₁, hr₁.trans hr', hs'⟩

/-! ## `EQSort` -/

theorem quickSortPhase_spec (hc : TotalPreorder c) (hsize : 0 < size) (h63 : size * n < 2 ^ 63)
    (hlen : m.len = size * n) (h1 : 1 ≤ n) :
    ∃ m' visits, quickSortPhase c (u64 (maxThresh * size)) n m = some (m', visits) ∧ m'.len = m.len ∧
      Rearranged (Set.Ico 0 n) (m.view size) (m'.view size) ∧ (∃ r, FrontAt c n [] (m'.view size) r) ∧
      ∀ v ∈ visits, v.Ok size n := by
  rw [quickSortPhase]
  by_cases hmax : n > maxThresh
  · have h4 : n > 4 := hmax
    have hparts : Parts n [(0, n - 1)] := by
      refine ⟨fun p hp => ?_, pairwise_singleton _ _, ?_, trivial⟩
      · rw [mem_singleton.mp hp]
        exact ⟨le_rfl, by omega, by omega⟩
      · rw [length_nil, pow_zero]
        omega
    have hfront : FrontAt c n [(0, n - 1)] (m.view size) (n - 1) := by
      refine ⟨by omega, by omega, fun i j _ _ hj hj' => by omega, fun p hp => ?_, ?_⟩
      · exact Or.inl (mem_singleton.mp hp)
      · exact Or.inr mem_cons_self
    have hweight : weight [(0, n - 1)] < n.toNat := by
      rw [weight_cons, weight, map_nil, sum_nil]
      omega
    obtain ⟨m', visits, he, h⟩ := quickLoop_spec hc hsize h63 n.toNat hlen hparts hfront hweight
    refine ⟨m', visits, ?_, h⟩
    rw [part, node, mul_zero] at he
    rw [if_pos hmax, last_eq hsize h63 h1]
    exact he
  · have h4 : ¬ n > 4 := hmax
    rw [if_neg hmax]
    refine ⟨m, [], rfl, rfl, Rearranged.refl _ _, ⟨n - 1, ?_⟩, fun v hv => absurd hv not_mem_nil⟩
    exact ⟨by omega, by omega, fun i j _ _ hj hj' => by omega, fun p hp => absurd hp not_mem_nil,
      Or.inl (by omega)⟩

theorem eqSort_spec (hc : TotalPreorder c) (hsize : 0 < size) (h63 : size * n < 2 ^ 63) (hlen : m.len = size * n)
    (h0 : 0 ≤ n) :
    ∃ m' visits, eqSort c n m = some (m', visits) ∧ Rearranged (Set.Ico 0 n) (m.view size) (m'.view size) ∧
      SortedOn c 0 n (m'.view size) ∧ ∀ v ∈ visits, v.Ok size n := by
  rw [eqSort]
  rcases eq_or_lt_of_le h0 with rfl | hpos
  · rw [if_pos rfl]
    exact ⟨m, [], rfl, Rearranged.refl _ _, sortedOn_of_le hc (by omega) _, fun v hv => absurd hv not_mem_nil⟩
  · rw [if_neg hpos.ne']
    obtain ⟨m₁, visits, he₁, hlen₁, hr₁, ⟨r, hfront⟩, hok⟩ := quickSortPhase_spec hc hsize h63 hlen
      (show 1 ≤ n by omega)
    obtain ⟨m₂, he₂, -, hr₂, hs₂⟩ := insertionSort_spec hc hsize h63 (hlen₁.trans hlen) (show 1 ≤ n by omega) hfront
    refine ⟨m₂, visits, ?_, hr₁.trans hr₂, hs₂, hok⟩
    simp only [he₁, he₂, Option.bind_eq_bind, Option.bind_some]

/-- **`EQSort` sorts**: for a comparator that is a total preorder it ends and leaves the elements of the array in
order. An array in memory has less than `2 ^ 63` bytes. -/
theorem sorted_of_eqSort (hsize : 0 < size) (hc : TotalPreorder c) {elems : ℤ} (h0 : 0 ≤ elems)
    (hmem : size * elems < 2 ^ 63) (hlen : m.len = size * elems) :
    ∃ m' visits, eqSort c elems m = some (m', visits) ∧
      Rearranged (Set.Ico 0 elems) (m.view size) (m'.view size) ∧
      ∀ i, 0 ≤ i → i + 1 < elems → c (m'.view size i) (m'.view size (i + 1)) ≤ 0 := by
  obtain ⟨m', visits, he, hr, hs, -⟩ := eqSort_spec hc hsize hmem hlen h0
  exact ⟨m', visits, he, hr, fun i hi hi' => hs i (i + 1) hi (by omega) hi'⟩

/-- Seven elements of two bytes, compared by their first bytes. -/
theorem sorted_of_eqSort_seven : ∃ m' visits,
    eqSort compareFirst 7 ⟨14, fun i => UInt8.ofNat (i * 5 % 7).toNat⟩ = some (m', visits) ∧
      ∀ i, 0 ≤ i → i + 1 < 7 → compareFirst (m'.view 2 i) (m'.view 2 (i + 1)) ≤ 0 := by
  obtain ⟨m', visits, h, -, hs⟩ := sorted_of_eqSort Nat.zero_lt_two totalPreorder_compareFirst
    (show (0 : ℤ) ≤ 7 by decide) (by decide) (m := ⟨14, fun i => UInt8.ofNat (i * 5 % 7).toNat⟩) (by decide)
  exact ⟨m', visits, h, hs⟩

/-- **`EQSort` stays inside its array and its stack**: no access is outside, so that the result is not `none`; every
part that is processed has `lo < hi`, lies in the array with the pointers of its partition, and the stack never
has more than `STACK_SIZE` entries. -/
theorem eqSort_in_bounds (hsize : 0 < size) (hc : TotalPreorder c) {elems : ℤ} (h0 : 0 ≤ elems)
    (hmem : size * elems < 2 ^ 63) (hlen : m.len = size * elems) :
    ∃ m' visits, eqSort c elems m = some (m', visits) ∧ ∀ v ∈ visits,
      0 ≤ v.lo ∧ v.lo < v.hi ∧ v.hi + size ≤ m.len ∧ (v.lo ≤ v.left ∧ v.left ≤ v.hi) ∧
      (v.lo ≤ v.right ∧ v.right ≤ v.hi) ∧ v.depth ≤ stackSize := by
  obtain ⟨m', visits, he, -, -, hok⟩ := eqSort_spec hc hsize hmem hlen h0
  refine ⟨m', visits, he, fun v hv => ?_⟩
  rw [hlen]
  obtain ⟨h1, h2, h3, h4, h5, h6⟩ := hok v hv
  exact ⟨h1, h2, h3, h5, h4, h6⟩

theorem eqSort_in_bounds_seven : ∃ m' visits,
    eqSort compareFirst 7 ⟨14, fun i => UInt8.ofNat (i * 5 % 7).toNat⟩ = some (m', visits) ∧
      ∀ v ∈ visits, v.lo < v.hi := by
  obtain ⟨m', visits, h, hv⟩ := eqSort_in_bounds Nat.zero_lt_two totalPreorder_compareFirst
    (show (0 : ℤ) ≤ 7 by decide) (by decide) (m := ⟨14, fun i => UInt8.ofNat (i * 5 % 7).toNat⟩) (by decide)
  exact ⟨m', visits, h, fun v hmem => (hv v hmem).2.1⟩

end Backend.Sort
