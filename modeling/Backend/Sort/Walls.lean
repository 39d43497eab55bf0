import Backend.Sort.Bytes

/-!
# One partition of `EQSort`

The inner loops have no bounds: the median-of-three step leaves an element at each end that stops them, and
later the elements behind the walls do. The pivot is in the array and moves with the exchanges.

* `swapIf_spec`, **`medianOfThree_spec`**: the three elements are in order;
* `scanLeft_spec`, `scanRight_spec`: the scans stop at a sentinel;
* `Walls`, **`collapse_spec`**: the two parts, for a total preorder.
-/

set_option autoImplicit false

namespace Backend.Sort

open Function

variable {size : ℕ} {c : Elem size → Elem size → ℤ} {n : ℤ} {m : Block}

/-! ## The median of three -/

theorem swapIf_spec (hc : TotalPreorder c) (hsize : 0 < size) (hs : (size : ℤ) < 2 ^ 64)
    (hlen : m.len = size * n) {i j : ℤ} (hi0 : 0 ≤ i) (hi : i < n) (hj0 : 0 ≤ j) (hj : j < n) :
    ∃ m', swapIf c (size * i) (size * j) m = some m' ∧ m'.len = m.len ∧
      Rearranged {i, j} (m.view size) (m'.view size) ∧ c (m'.view size j) (m'.view size i) ≤ 0 := by
  rw [swapIf, cmpAt_spec hlen hi0 hi hj0 hj]
  simp only [Option.bind_eq_bind, Option.bind_some]
  by_cases hlt : c (m.view size i) (m.view size j) < 0
  · obtain ⟨m', he, hlen', hv⟩ := swap_spec hsize hs hlen hi0 hi hj0 hj
    rw [if_pos hlt, he]
    refine ⟨m', rfl, hlen', ?_, ?_⟩
    · rw [hv]
      exact rearranged_comp_swap _ (Set.mem_insert i _) (Set.mem_insert_of_mem i rfl)
    · rw [hv, comp_apply, comp_apply, Equiv.swap_apply_left, Equiv.swap_apply_right]
      exact hlt.le
  · rw [if_neg hlt]
    exact ⟨m, rfl, rfl, Rearranged.refl _ _, hc.le_of_not_lt hlt⟩

/-- **The elements at `lo`, `mid` and `hi` are put in order.** -/
theorem medianOfThree_spec (hc : TotalPreorder c) (hsize : 0 < size) (hs : (size : ℤ) < 2 ^ 64)
    (hlen : m.len = size * n) {lo mid hi : ℤ} (h0 : 0 ≤ lo) (hlm : lo < mid) (hmh : mid < hi) (hn : hi < n) :
    ∃ m', medianOfThree c (size * lo) (size * mid) (size * hi) m = some m' ∧ m'.len = m.len ∧
      Rearranged (Set.Icc lo hi) (m.view size) (m'.view size) ∧
      c (m'.view size lo) (m'.view size mid) ≤ 0 ∧ c (m'.view size mid) (m'.view size hi) ≤ 0 := by
  have hpair : ({mid, lo} : Set ℤ) ⊆ Set.Icc lo hi := by
    rintro k (rfl | rfl)
    · exact ⟨hlm.le, hmh.le⟩
    · exact ⟨le_rfl, by omega⟩
  have hhi : hi ∉ ({mid, lo} : Set ℤ) := by
    rintro (h | h)
    · omega
    · have : hi = lo := h
      omega
  obtain ⟨m₁, he₁, hlen₁, hr₁, ho₁⟩ := swapIf_spec hc hsize hs hlen (show 0 ≤ mid by omega) (by omega) h0 (by omega)
  have hlen₁' := hlen₁.trans hlen
  unfold medianOfThree
  rw [he₁]
  simp only [Option.bind_eq_bind, Option.bind_some]
  rw [cmpAt_spec hlen₁' (by omega) hn (by omega) (by omega), Option.bind_some]
  by_cases hlt : c (m₁.view size hi) (m₁.view size mid) < 0
  · obtain ⟨m₂, he₂, hlen₂, hv₂⟩ := swap_spec hsize hs hlen₁' (show 0 ≤ mid by omega) (by omega)
      (show 0 ≤ hi by omega) hn
    obtain ⟨m₃, he₃, hlen₃, hr₃, ho₃⟩ := swapIf_spec hc hsize hs (hlen₂.trans hlen₁')
      (show 0 ≤ mid by omega) (by omega) h0 (by omega)
    rw [if_pos hlt, he₂, Option.bind_some, he₃]
    have hr₂ := rearranged_comp_swap (S := Set.Icc lo hi) (m₁.view size) (i := mid) (j := hi)
      ⟨hlm.le, hmh.le⟩ ⟨by omega, le_rfl⟩
    rw [← hv₂] at hr₂
    refine ⟨m₃, rfl, hlen₃.trans (hlen₂.trans hlen₁), ?_, ho₃, ?_⟩
    · exact ((hr₁.mono hpair).trans hr₂).trans (hr₃.mono hpair)
    · -- the largest of the three is at `hi`
      have hmid : m₂.view size mid = m₁.view size hi := by rw [hv₂, comp_apply, Equiv.swap_apply_left]
      have hlo : m₂.view size lo = m₁.view size lo := by
        rw [hv₂, comp_apply, Equiv.swap_apply_of_ne_of_ne (by omega) (by omega)]
      rw [hr₃.off hhi, show m₂.view size hi = m₁.view size mid by rw [hv₂, comp_apply, Equiv.swap_apply_right]]
      obtain ⟨k, hk, he⟩ := hr₃.exists_mem (Set.mem_insert mid _)
      rw [he]
      rcases hk with rfl | rfl
      · rw [hmid]
        exact hlt.le
      · rw [hlo]
        exact ho₁
  · rw [if_neg hlt]
    exact ⟨m₁, rfl, hlen₁, hr₁.mono hpair, ho₁, hc.le_of_not_lt hlt⟩

/-! ## The scans -/

theorem scanLeft_spec (hlen : m.len = size * n) {mid s : ℤ} (hm0 : 0 ≤ mid) (hm : mid < n) (hsn : s < n)
    (hstop : 0 ≤ c (m.view size s) (m.view size mid)) (fuel : ℕ) {i : ℤ} (h0 : 0 ≤ i) (his : i ≤ s)
    (hf : s - i < fuel) :
    ∃ i' : ℤ, scanLeft c m (size * mid) fuel (size * i) = some (size * i') ∧ i ≤ i' ∧ i' ≤ s ∧
      (∀ k, i ≤ k → k < i' → c (m.view size k) (m.view size mid) ≤ 0) ∧
      0 ≤ c (m.view size i') (m.view size mid) := by
  induction fuel generalizing i with
  | zero => omega
  | succ fuel ih =>
    rw [scanLeft, cmpAt_spec hlen h0 (by omega) hm0 hm]
    simp only [Option.bind_eq_bind, Option.bind_some]
    by_cases hlt : c (m.view size i) (m.view size mid) < 0
    · have hne : i ≠ s := by
        rintro rfl
        omega
      obtain ⟨i', he, h1, h2, h3, h4⟩ := ih (show 0 ≤ i + 1 by omega) (by omega) (by omega)
      rw [mul_add, mul_one] at he
      refine ⟨i', ?_, by omega, h2, fun k hk hk' => ?_, h4⟩
      · rw [if_pos hlt]
        exact he
      · by_cases hki : k = i
        · rw [hki]
          exact hlt.le
        · exact h3 k (by omega) hk'
    · rw [if_neg hlt]
      exact ⟨i, rfl, le_rfl, his, fun k hk hk' => by omega, by omega⟩

theorem scanRight_spec (hlen : m.len = size * n) {mid s : ℤ} (hm0 : 0 ≤ mid) (hm : mid < n) (hs0 : 0 ≤ s)
    (hstop : 0 ≤ c (m.view size mid) (m.view size s)) (fuel : ℕ) {j : ℤ} (hj : j < n) (hsj : s ≤ j)
    (hf : j - s < fuel) :
    ∃ j' : ℤ, scanRight c m (size * mid) fuel (size * j) = some (size * j') ∧ s ≤ j' ∧ j' ≤ j ∧
      (∀ k, j' < k → k ≤ j → c (m.view size mid) (m.view size k) ≤ 0) ∧
      0 ≤ c (m.view size mid) (m.view size j') := by
  induction fuel generalizing j with
  | zero => omega
  | succ fuel ih =>
    rw [scanRight, cmpAt_spec hlen hm0 hm (by omega) hj]
    simp only [Option.bind_eq_bind, Option.bind_some]
    by_cases hlt : c (m.view size mid) (m.view size j) < 0
    · have hne : j ≠ s := by
        rintro rfl
        omega
      obtain ⟨j', he, h1, h2, h3, h4⟩ := ih (show j - 1 < n by omega) (by omega) (by omega)
      rw [mul_sub, mul_one] at he
      refine ⟨j', ?_, h1, by omega, fun k hk hk' => ?_, h4⟩
      · rw [if_pos hlt]
        exact he
      · by_cases hkj : k = j
        · rw [hkj]
          exact hlt.le
        · exact h3 k hk (by omega)
    · rw [if_neg hlt]
      exact ⟨j, rfl, hsj, le_rfl, fun k hk hk' => by omega, by omega⟩

/-! ## Collapsing the walls -/

/-- What is behind the walls `i` and `j`, in the part from `lo` to `hi` with the pivot `x`. -/
structure Walls (c : Elem size → Elem size → ℤ) (x : Elem size) (lo hi i j : ℤ) (a : ℤ → Elem size) : Prop where
  left : ∀ k, lo ≤ k → k < i → c (a k) x ≤ 0
  right : ∀ k, j < k → k ≤ hi → c x (a k) ≤ 0

variable {x : Elem size} {lo hi i j : ℤ} {a : ℤ → Elem size}

theorem Walls.scan (h : Walls c x lo hi i j a) {i' j' : ℤ} (hl : ∀ k, i ≤ k → k < i' → c (a k) x ≤ 0)
    (hr : ∀ k, j' < k → k ≤ j → c x (a k) ≤ 0) : Walls c x lo hi i' j' a where
  left k hk hk' := by
    by_cases hki : k < i
    · exact h.left k hk hki
    · exact hl k (by omega) hk'
  right k hk hk' := by
    by_cases hkj : j < k
    · exact h.right k hkj hk'
    · exact hr k hk (by omega)

theorem Walls.swap (hc : TotalPreorder c) (h : Walls c x lo hi i j a) (hij : i < j) (hi' : 0 ≤ c (a i) x)
    (hj' : 0 ≤ c x (a j)) : Walls c x lo hi (i + 1) (j - 1) (a ∘ Equiv.swap i j) where
  left k hk hk' := by
    rw [comp_apply]
    by_cases hki : k = i
    · rw [hki, Equiv.swap_apply_left]
      exact hc.le_of_ge hj'
    · rw [Equiv.swap_apply_of_ne_of_ne hki (by omega)]
      exact h.left k hk (by omega)
  right k hk hk' := by
    rw [comp_apply]
    by_cases hkj : k = j
    · rw [hkj, Equiv.swap_apply_right]
      exact hc.le_of_ge hi'
    · rw [Equiv.swap_apply_of_ne_of_ne (by omega) hkj]
      exact h.right k (by omega) hk'

theorem Walls.meet (hc : TotalPreorder c) (h : Walls c x lo hi i i a) (hi' : 0 ≤ c (a i) x)
    (hj' : 0 ≤ c x (a i)) : Walls c x lo hi (i + 1) (i - 1) a := by
  refine h.scan (fun k hk hk' => ?_) (fun k hk hk' => ?_)
  · rw [show k = i by omega]
    exact hc.le_of_ge hj'
  · rw [show k = i by omega]
    exact hc.le_of_ge hi'

theorem pivot_swap (a : ℤ → Elem size) (i j mid : ℤ) :
    (a ∘ Equiv.swap i j) (if mid = i then j else if mid = j then i else mid) = a mid := by
  rw [comp_apply, ← Equiv.swap_apply_def, Equiv.swap_apply_self]

/-- Both scans: the walls stop each other. -/
theorem scans_spec (hc : TotalPreorder c) (h0 : 0 ≤ lo) (hn : hi < n) (fuel : ℕ) {mid : ℤ}
    (hlen : m.len = size * n) (hm : lo ≤ mid) (hm' : mid ≤ hi) (hx : m.view size mid = x)
    (hw : Walls c x lo hi i j (m.view size)) (hi' : lo < i) (hij : i ≤ j) (hj : j < hi) (hf : j - i + 1 < fuel) :
    ∃ i' j' : ℤ, scanLeft c m (size * mid) fuel (size * i) = some (size * i') ∧
      scanRight c m (size * mid) fuel (size * j) = some (size * j') ∧ i ≤ i' ∧ i' ≤ j + 1 ∧ i' - 1 ≤ j' ∧ j' ≤ j ∧
      0 ≤ c (m.view size i') x ∧ 0 ≤ c x (m.view size j') ∧ Walls c x lo hi i' j' (m.view size) := by
  have hright : 0 ≤ c (m.view size (j + 1)) (m.view size mid) := by
    rw [hx]
    exact (hc.flip _ _).mp (hw.right _ (by omega) (by omega))
  obtain ⟨i', he, hi₁, hi₂, hl, hstop⟩ := scanLeft_spec hlen (show 0 ≤ mid by omega) (by omega)
    (show j + 1 < n by omega) hright fuel (show 0 ≤ i by omega) (by omega) (by omega)
  rw [hx] at hl hstop
  have hw₁ : Walls c x lo hi i' j (m.view size) := hw.scan hl fun k hk hk' => by omega
  have hleft : 0 ≤ c (m.view size mid) (m.view size (i' - 1)) := by
    rw [hx]
    exact (hc.flip _ _).mp (hw₁.left _ (by omega) (by omega))
  obtain ⟨j', he', hj₁, hj₂, hr, hstop'⟩ := scanRight_spec hlen (show 0 ≤ mid by omega) (by omega)
    (show 0 ≤ i' - 1 by omega) hleft fuel (show j < n by omega) (by omega) (by omega)
  rw [hx] at hr hstop'
  exact ⟨i', j', he, he', hi₁, hi₂, hj₁, hj₂, hstop, hstop', hw₁.scan (fun k hk hk' => by omega) hr⟩

/-- **The walls collapse** around the pivot `x`, which is at `mid`. -/
theorem collapse_spec (hc : TotalPreorder c) (hsize : 0 < size) (hs : (size : ℤ) < 2 ^ 64) (h0 : 0 ≤ lo)
    (hn : hi < n) (fuel : ℕ) {mid i j : ℤ} {m : Block} (hlen : m.len = size * n) (hm : lo ≤ mid)
    (hm' : mid ≤ hi) (hx : m.view size mid = x) (hw : Walls c x lo hi i j (m.view size)) (hi' : lo < i)
    (hij : i ≤ j) (hj : j < hi) (hf : j - i + 1 < fuel) :
    ∃ (i' j' : ℤ) (m' : Block), collapse c fuel (size * mid) (size * i) (size * j) m =
        some (size * i', size * j', m') ∧ m'.len = m.len ∧ lo ≤ j' ∧ j' < i' ∧ i' ≤ hi ∧
      Rearranged (Set.Icc lo hi) (m.view size) (m'.view size) ∧ Walls c x lo hi i' j' (m'.view size) := by
  induction fuel generalizing mid i j m with
  | zero => omega
  | succ fuel ih =>
    have hsize' : (0 : ℤ) < size := by exact_mod_cast hsize
    obtain ⟨i₁, j₁, he₁, he₂, hi₁, hi₂, hj₁, hj₂, hstop, hstop', hw₁⟩ := scans_spec hc h0 hn (fuel + 1) hlen hm hm'
      hx hw hi' hij hj hf
    rw [collapse, he₁]
    simp only [Option.bind_eq_bind, Option.bind_some, he₂, mul_lt_mul_iff_right₀ hsize',
      mul_left_cancel_iff_of_pos hsize', show (size : ℤ) * i₁ + size = size * (i₁ + 1) by ring,
      show (size : ℤ) * j₁ - size = size * (j₁ - 1) by ring, mul_le_mul_iff_right₀ hsize']
    by_cases hlt : i₁ < j₁
    · obtain ⟨m₂, he₃, hlen₂, hv₂⟩ := swap_spec hsize hs hlen (show 0 ≤ i₁ by omega) (by omega)
        (show 0 ≤ j₁ by omega) (by omega)
      have hr₂ := rearranged_comp_swap (S := Set.Icc lo hi) (m.view size) (i := i₁) (j := j₁)
        ⟨by omega, by omega⟩ ⟨by omega, by omega⟩
      have hw₂ := hw₁.swap hc hlt hstop hstop'
      have hx₂ := (pivot_swap (m.view size) i₁ j₁ mid).trans hx
      obtain ⟨mid₂, hmid⟩ : ∃ mid₂, mid₂ = if mid = i₁ then j₁ else if mid = j₁ then i₁ else mid := ⟨_, rfl⟩
      have hbound : lo ≤ mid₂ ∧ mid₂ ≤ hi := by
        rw [hmid]
        split_ifs <;> omega
      rw [← hv₂] at hr₂ hw₂ hx₂
      rw [← hmid] at hx₂
      rw [if_pos hlt, he₃, Option.bind_some]
      by_cases hagain : i₁ + 1 ≤ j₁ - 1
      · obtain ⟨i', j', m', he, hlen', h1, h2, h3, hr, hw'⟩ := ih (hlen₂.trans hlen) hbound.1
          hbound.2 hx₂ hw₂ (by omega) hagain (by omega) (by omega)
        refine ⟨i', j', m', ?_, hlen'.trans hlen₂, h1, h2, h3, hr₂.trans hr, hw'⟩
        rw [if_pos hagain, ← he, hmid]
        congr 1
        split_ifs <;> rfl
      · rw [if_neg hagain]
        exact ⟨i₁ + 1, j₁ - 1, m₂, rfl, hlen₂, by omega, by omega, by omega, hr₂, hw₂⟩
    · rw [if_neg hlt]
      by_cases heq : i₁ = j₁
      · subst heq
        rw [if_pos rfl]
        exact ⟨i₁ + 1, i₁ - 1, m, rfl, rfl, by omega, by omega, by omega, Rearranged.refl _ _,
          hw₁.meet hc hstop hstop'⟩
      · rw [if_neg heq]
        exact ⟨i₁, j₁, m, rfl, rfl, by omega, by omega, by omega, Rearranged.refl _ _, hw₁⟩

end Backend.Sort
