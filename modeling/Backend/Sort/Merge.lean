import Backend.Lib.Merge
import Backend.Sort.Model

/-!
# `MergeSort` sorts

The three loops of `Merge` write the elements of two neighbouring ranges to the buffer in the order of
`List.merge`: places are merged, and the buffer holds the elements of a list of places.

* `Holds`: the elements of a list of places are in the buffer;
* `mergeLoop_spec`, `copyLoop_spec`, `memcpy_spec`: the loops, and the copy back;
* `mergePlaces`, `merge_eq_memcpy`, **`merge_places`**, **`merge_spec`**: the order in which the elements are taken;
* **`doMergeSort_spec`**, `sorted_of_mergeSort`.
-/

set_option autoImplicit false

namespace Backend.Sort

open Function List

variable {size : ℕ} {c : Elem size → Elem size → ℤ} {n mid high : ℤ} {m buf : Block}

/-! ## The buffer -/

/-- The buffer begins with the elements of `a` at the places `τ`. -/
def Holds (a : ℤ → Elem size) (buf : Block) (τ : List ℤ) : Prop :=
  (Int.range 0 τ.length).map (buf.view size) = τ.map a

theorem holds_nil (a : ℤ → Elem size) (buf : Block) : Holds a buf [] := rfl

theorem Holds.snoc {a : ℤ → Elem size} {τ : List ℤ} (h : Holds a buf τ) (i : ℤ) :
    Holds a (buf.put (size * τ.length) (a i)) (τ ++ [i]) := by
  unfold Holds at h ⊢
  have hr : Int.range 0 (τ ++ [i]).length = Int.range 0 τ.length ++ [(τ.length : ℤ)] := by
    have hlen : ((τ ++ [i]).length : ℤ) = τ.length + 1 := by
      rw [length_append, length_singleton, Nat.cast_succ]
    rw [hlen, ← range_append (show 0 ≤ (τ.length : ℤ) by omega) (by omega),
      range_cons (show (τ.length : ℤ) < τ.length + 1 by omega), range_nil le_rfl]
  rw [hr, view_put, map_append, map_append, ← h]
  congr 1
  · apply map_congr_left
    intro k hk
    exact update_of_ne (Int.mem_range_iff.mp hk).2.ne _ _
  · rw [map_singleton, map_singleton, update_self]

theorem store_buf (hlen : size * n ≤ buf.len) (hn : size * n < 2 ^ 32) {k : ℤ} (h0 : 0 ≤ k) (hk : k < n)
    (x : Elem size) : buf.store (addr size 0 k) x = some (buf.put (size * k) x) := by
  have hle : (size : ℤ) * k ≤ size * n := mul_le_mul_of_nonneg_left hk.le (by positivity)
  rw [addr, zero_add, u32_of_lt (by positivity) (by omega)]
  exact if_pos (has_of_lt hlen h0 hk)

/-! ## `Merge` -/

theorem mergeLoop_spec (hlen : m.len = size * n) (hn : size * n < 2 ^ 32) (h30 : n ≤ 2 ^ 30) (hmid : mid < n)
    (hhigh : high < n) (fuel : ℕ) {i j : ℤ} {τ : List ℤ} {buf : Block} (hτ : Holds (m.view size) buf τ)
    (hbuf : size * n ≤ buf.len) (h0 : 0 ≤ i) (h0' : 0 ≤ j) (hi : i ≤ mid + 1) (hj : j ≤ high + 1)
    (hk : τ.length + (mid + 1 - i) + (high + 1 - j) ≤ n) (hf : (mid + 1 - i) + (high + 1 - j) < fuel) :
    ∃ i' j' τ' buf', mergeLoop c m mid high fuel i j τ.length buf = some (i', j', (τ'.length : ℤ), buf') ∧
      buf'.len = buf.len ∧ i ≤ i' ∧ i' ≤ mid + 1 ∧ j ≤ j' ∧ j' ≤ high + 1 ∧
      τ'.length + (mid + 1 - i') + (high + 1 - j') ≤ n ∧ Holds (m.view size) buf' τ' ∧
      τ' ++ (Int.range i' (mid + 1) ++ Int.range j' (high + 1)) = τ ++
        (Int.range i (mid + 1)).merge (Int.range j (high + 1))
          (fun x y => decide (c (m.view size x) (m.view size y) < 0)) := by
  induction fuel generalizing i j τ buf with
  | zero => omega
  | succ fuel ih =>
    rw [mergeLoop]
    by_cases h : i ≤ mid ∧ j ≤ high
    · obtain ⟨him, hjh⟩ := h
      rw [if_pos ⟨him, hjh⟩, load_idx hlen hn h0 (by omega), load_idx hlen hn h0' (by omega),
        range_cons (show i < mid + 1 by omega), range_cons (show j < high + 1 by omega)]
      simp only [Option.bind_eq_bind, Option.bind_some]
      have hnext : ∀ l, i32 ((τ.length : ℤ) + 1) = ((τ ++ [l]).length : ℤ) := by
        intro l
        rw [i32_of_lt (by omega) (by omega), length_append, length_singleton]
        push_cast
        ring
      by_cases hc : c (m.view size i) (m.view size j) < 0
      · rw [if_pos hc, store_buf hbuf hn (by omega) (by omega), Option.bind_some,
          i32_of_lt (x := i + 1) (by omega) (by omega), hnext i, cons_merge_cons_pos _ _ _ (by simpa using hc)]
        obtain ⟨i', j', τ', buf', he, hb, h1, h2, h3, h4, h5, h6, h7⟩ := ih (i := i + 1) (hτ.snoc i) hbuf
          (by omega) h0' (by omega) hj (by simp only [length_append, length_singleton]; omega) (by omega)
        refine ⟨i', j', τ', buf', he, hb, by omega, h2, h3, h4, h5, h6, ?_⟩
        rw [h7, append_assoc, singleton_append, range_cons (show j < high + 1 by omega)]
      · rw [if_neg hc, store_buf hbuf hn (by omega) (by omega), Option.bind_some,
          i32_of_lt (x := j + 1) (by omega) (by omega), hnext j, cons_merge_cons_neg _ _ _ (by simpa using hc)]
        obtain ⟨i', j', τ', buf', he, hb, h1, h2, h3, h4, h5, h6, h7⟩ := ih (j := j + 1) (hτ.snoc j) hbuf
          h0 (by omega) hi (by omega) (by simp only [length_append, length_singleton]; omega) (by omega)
        refine ⟨i', j', τ', buf', he, hb, h1, h2, by omega, h4, h5, h6, ?_⟩
        rw [h7, append_assoc, singleton_append, range_cons (show i < mid + 1 by omega)]
    · rw [if_neg h]
      refine ⟨i, j, τ, buf, rfl, rfl, le_rfl, hi, le_rfl, hj, hk, hτ, ?_⟩
      by_cases him : i ≤ mid
      · rw [range_nil (show high + 1 ≤ j by omega), merge_right, append_nil]
      · rw [range_nil (show mid + 1 ≤ i by omega), nil_merge, nil_append]

theorem copyLoop_spec (hlen : m.len = size * n) (hn : size * n < 2 ^ 32) (h30 : n ≤ 2 ^ 30) {last : ℤ}
    (hlast : last < n) (fuel : ℕ) {i : ℤ} {τ : List ℤ} {buf : Block} (hτ : Holds (m.view size) buf τ)
    (hbuf : size * n ≤ buf.len) (h0 : 0 ≤ i) (hi : i ≤ last + 1) (hk : τ.length + (last + 1 - i) ≤ n)
    (hf : last + 1 - i < fuel) : ∃ buf', copyLoop size m last fuel i τ.length buf =
        some (((τ ++ Int.range i (last + 1)).length : ℤ), buf') ∧ buf'.len = buf.len ∧
      Holds (m.view size) buf' (τ ++ Int.range i (last + 1)) := by
  induction fuel generalizing i τ buf with
  | zero => omega
  | succ fuel ih =>
    rw [copyLoop]
    by_cases h : i ≤ last
    · have hnext : i32 ((τ.length : ℤ) + 1) = ((τ ++ [i]).length : ℤ) := by
        rw [i32_of_lt (by omega) (by omega), length_append, length_singleton]
        push_cast
        ring
      rw [if_pos h, load_idx hlen hn h0 (by omega)]
      simp only [Option.bind_eq_bind, Option.bind_some]
      rw [store_buf hbuf hn (by omega) (by omega), Option.bind_some,
        i32_of_lt (x := i + 1) (by omega) (by omega), hnext]
      obtain ⟨buf', he, hb, hτ'⟩ := ih (i := i + 1) (hτ.snoc i) hbuf (by omega) (by omega)
        (by simp only [length_append, length_singleton]; omega) (by omega)
      rw [append_assoc, singleton_append, ← range_cons (by omega)] at he hτ'
      exact ⟨buf', he, hb, hτ'⟩
    · rw [if_neg h, range_nil (by omega), append_nil]
      exact ⟨buf, rfl, rfl, hτ⟩

theorem memcpy_spec {low k : ℤ} (h0 : 0 ≤ low) (hlen : size * (low + k) ≤ m.len)
    (hbuf : size * k ≤ buf.len) :
    ∃ m', m.memcpy (size * low) buf (size * k) = some m' ∧ m'.len = m.len ∧
      (∀ i, low ≤ i → i < low + k → m'.view size i = buf.view size (i - low)) ∧
      ∀ i, i < low ∨ low + k ≤ i → m'.view size i = m.view size i := by
  rw [mul_add] at hlen
  have hhas : m.Has (size * low) (size * k) ∧ buf.Has 0 (size * k) :=
    ⟨⟨by positivity, hlen⟩, le_rfl, by omega⟩
  rw [Block.memcpy, if_pos hhas]
  refine ⟨_, rfl, rfl, fun i hi hi' => ?_, fun i hi => ?_⟩
  all_goals
    funext b
    have hb : (b : ℤ) < size := by exact_mod_cast b.isLt
    simp only [Block.view, Block.elem]
    rw [← mul_add]
  · have hle : (size : ℤ) * low ≤ size * i := mul_le_mul_of_nonneg_left hi (by positivity)
    have hle' := mul_add_le size hi'
    rw [if_pos (by omega), mul_sub]
    congr 1
    ring
  · rw [if_neg]
    rcases hi with hi | hi
    · have hle := mul_add_le size hi
      omega
    · have hle : (size : ℤ) * (low + k) ≤ size * i := mul_le_mul_of_nonneg_left hi (by positivity)
      omega

/-- The places of two neighbouring ranges in the order in which `Merge` takes them. -/
def mergePlaces (c : Elem size → Elem size → ℤ) (a : ℤ → Elem size) (low mid high : ℤ) : List ℤ :=
  (Int.range low (mid + 1)).merge (Int.range (mid + 1) (high + 1)) fun x y => decide (c (a x) (a y) < 0)

theorem mergePlaces_perm (c : Elem size → Elem size → ℤ) (a : ℤ → Elem size) {low : ℤ} (hlow : low ≤ mid + 1)
    (hmid : mid ≤ high) : mergePlaces c a low mid high ~ Int.range low (high + 1) := by
  rw [← range_append hlow (show mid + 1 ≤ high + 1 by omega)]
  exact merge_perm_append _

theorem pairwise_mergePlaces (hc : TotalPreorder c) {a : ℤ → Elem size} {low : ℤ}
    (h : SortedOn c low (mid + 1) a) (h' : SortedOn c (mid + 1) (high + 1) a) :
    (mergePlaces c a low mid high).Pairwise fun i j => c (a i) (a j) ≤ 0 := by
  apply pairwise_merge_lt (r := fun i j => c (a i) (a j) ≤ 0) (fun x y z => hc.trans _ _ _) ?_ ?_
    (pairwise_of_sortedOn h) (pairwise_of_sortedOn h') <;> intro x y hxy
  · exact (of_decide_eq_true hxy).le
  · exact hc.le_of_not_lt (by simpa using hxy)

theorem merge_eq_memcpy (hn : size * n < 2 ^ 32) (h30 : n ≤ 2 ^ 30) (hlen : m.len = size * n)
    (hbuf : size * n ≤ buf.len) {low : ℤ} (h0 : 0 ≤ low) (hlow : low ≤ mid) (hmid : mid < high)
    (hhigh : high < n) :
    ∃ buf', buf'.len = buf.len ∧ Holds (m.view size) buf' (mergePlaces c (m.view size) low mid high) ∧
      merge c low mid high m buf =
        (m.memcpy (size * low) buf' (size * (high + 1 - low))).bind fun m => some (m, buf') := by
  obtain ⟨i, j, τ, buf₁, he₁, hb₁, hi, hi', hj, hj', hk, hτ₁, hmerge⟩ := mergeLoop_spec (c := c) hlen hn h30
    (show mid < n by omega) hhigh ((high - low).toNat + 2) (holds_nil _ buf) hbuf h0
    (show 0 ≤ mid + 1 by omega) (by omega) (by omega) (by simp only [length_nil]; omega) (by omega)
  obtain ⟨buf₂, he₂, hb₂, hτ₂⟩ := copyLoop_spec hlen hn h30 (show mid < n by omega) ((high - low).toNat + 2) hτ₁
    (hbuf.trans hb₁.ge) (by omega) hi' (by omega) (by omega)
  have hk₂ : ((τ ++ Int.range i (mid + 1)).length : ℤ) + (high + 1 - j) ≤ n := by
    rw [length_append, Nat.cast_add, length_range_int, Int.toNat_of_nonneg (by omega)]
    exact hk
  obtain ⟨buf₃, he₃, hb₃, hτ₃⟩ := copyLoop_spec hlen hn h30 hhigh ((high - low).toNat + 2) hτ₂
    (hbuf.trans (hb₂.trans hb₁).ge) (by omega) hj' hk₂ (by omega)
  rw [append_assoc, hmerge, nil_append] at hτ₃ he₃
  refine ⟨buf₃, hb₃.trans (hb₂.trans hb₁), hτ₃, ?_⟩
  have hτlen := (mergePlaces_perm c (m.view size) (show low ≤ mid + 1 by omega) hmid.le).length_eq
  rw [length_range_int, mergePlaces] at hτlen
  have hle : (size : ℤ) * (high + 1 - low) ≤ size * n := mul_le_mul_of_nonneg_left (by omega) (by positivity)
  have hle₀ : (size : ℤ) * low ≤ size * n := mul_le_mul_of_nonneg_left (by omega) (by positivity)
  have hpos : (0 : ℤ) ≤ size * (high + 1 - low) := mul_nonneg (by positivity) (by omega)
  rw [length_nil, Nat.cast_zero] at he₁
  simp only [merge, i32_of_lt (show -2 ^ 31 ≤ mid + 1 by omega) (by omega), he₁, he₂, he₃,
    Option.bind_eq_bind, Option.bind_some]
  rw [hτlen, Int.toNat_of_nonneg (by omega), mul_comm, u32_of_lt hpos (by omega), addr, zero_add,
    u32_of_lt (by positivity) (by omega)]

/-- **`Merge` writes the elements again** in the order in which it takes them. -/
theorem merge_places (hn : size * n < 2 ^ 32) (h30 : n ≤ 2 ^ 30) (hlen : m.len = size * n)
    (hbuf : size * n ≤ buf.len) {low : ℤ} (h0 : 0 ≤ low) (hlow : low ≤ mid) (hmid : mid < high)
    (hhigh : high < n) :
    ∃ m' buf', merge c low mid high m buf = some (m', buf') ∧ m'.len = m.len ∧ buf'.len = buf.len ∧
      (Int.range low (high + 1)).map (m'.view size) =
        (mergePlaces c (m.view size) low mid high).map (m.view size) ∧
      ∀ i, i < low ∨ high + 1 ≤ i → m'.view size i = m.view size i := by
  obtain ⟨buf', hb, hτ, hmerge⟩ := merge_eq_memcpy (c := c) hn h30 hlen hbuf h0 hlow hmid hhigh
  have hperm := mergePlaces_perm c (m.view size) (show low ≤ mid + 1 by omega) hmid.le
  have hle : (size : ℤ) * (low + (high + 1 - low)) ≤ size * n :=
    mul_le_mul_of_nonneg_left (by omega) (by positivity)
  have hle' : (size : ℤ) * (high + 1 - low) ≤ size * n := mul_le_mul_of_nonneg_left (by omega) (by positivity)
  obtain ⟨m', he, hlen', hon, hoff⟩ := memcpy_spec h0 (hle.trans hlen.ge)
    (hle'.trans (hbuf.trans hb.ge))
  refine ⟨m', buf', ?_, hlen', hb, ?_, fun i hi => hoff i (by omega)⟩
  · rw [hmerge, he, Option.bind_some]
  · rw [← hτ, hperm.length_eq, length_range_int, Int.toNat_of_nonneg (by omega),
      show Int.range low (high + 1) = Int.range low (low + (high + 1 - low)) by rw [add_sub_cancel],
      range_shift, map_map]
    apply map_congr_left
    intro k hk
    obtain ⟨hk0, hk1⟩ := Int.mem_range_iff.mp hk
    rw [Function.comp_apply, hon _ (by omega) (by omega), add_sub_cancel_left]

/-- **`Merge`** of two neighbouring ranges. -/
theorem merge_spec (hn : size * n < 2 ^ 32) (h30 : n ≤ 2 ^ 30) (hlen : m.len = size * n)
    (hbuf : size * n ≤ buf.len) {low : ℤ} (h0 : 0 ≤ low) (hlow : low ≤ mid) (hmid : mid < high)
    (hhigh : high < n) :
    ∃ m' buf', merge c low mid high m buf = some (m', buf') ∧ m'.len = m.len ∧ buf'.len = buf.len ∧
      Rearranged (Set.Ico low (high + 1)) (m.view size) (m'.view size) ∧
      (TotalPreorder c → SortedOn c low (mid + 1) (m.view size) → SortedOn c (mid + 1) (high + 1) (m.view size) →
        SortedOn c low (high + 1) (m'.view size)) := by
  obtain ⟨m', buf', he, hlen', hb, hmap, hoff⟩ := merge_places (c := c) hn h30 hlen hbuf h0 hlow hmid hhigh
  refine ⟨m', buf', he, hlen', hb, ?_, fun hc hs hs' => ?_⟩
  · have hperm := mergePlaces_perm c (m.view size) (show low ≤ mid + 1 by omega) hmid.le
    have hr := rearranged_of_perm (pairwise_range low (high + 1)).nodup hperm hmap fun i hi => hoff i (by
      rw [Int.mem_range_iff] at hi
      omega)
    exact hr.mono fun i hi => Int.mem_range_iff.mp hi
  · refine sortedOn_of_pairwise hc ?_
    rw [hmap, pairwise_map]
    exact pairwise_mergePlaces hc hs hs'

/-! ## `MergeSort` -/

/-- **`DoMergeSort`** of the range from `low` to `high`. -/
theorem doMergeSort_spec (hn : size * n < 2 ^ 32) (h30 : n ≤ 2 ^ 30) (fuel : ℕ) {low high : ℤ} {m buf : Block}
    (hlen : m.len = size * n) (hbuf : size * n ≤ buf.len) (h0 : 0 ≤ low) (hle : low ≤ high + 1) (hhigh : high < n)
    (hf : high - low < fuel) (hf0 : 0 < fuel) :
    ∃ m' buf', doMergeSort c fuel low high m buf = some (m', buf') ∧ m'.len = m.len ∧ buf'.len = buf.len ∧
      Rearranged (Set.Ico low (high + 1)) (m.view size) (m'.view size) ∧
      (TotalPreorder c → SortedOn c low (high + 1) (m'.view size)) := by
  induction fuel generalizing low high m buf with
  | zero => omega
  | succ fuel ih =>
    rw [doMergeSort]
    by_cases hlt : low < high
    · rw [if_pos hlt, i32_of_lt (by omega) (by omega), Int.tdiv_eq_ediv_of_nonneg (by omega)]
      obtain ⟨mid, hmid⟩ : ∃ mid, mid = (low + high) / 2 := ⟨_, rfl⟩
      simp only [← hmid, i32_of_lt (show -2 ^ 31 ≤ mid + 1 by omega) (by omega)]
      obtain ⟨m₁, buf₁, he₁, hlen₁, hbuf₁, hr₁, hs₁⟩ := ih hlen hbuf h0 (show low ≤ mid + 1 by omega) (by omega)
        (by omega) (by omega)
      obtain ⟨m₂, buf₂, he₂, hlen₂, hbuf₂, hr₂, hs₂⟩ := ih (hlen₁.trans hlen) (hbuf.trans hbuf₁.ge)
        (show 0 ≤ mid + 1 by omega) (show mid + 1 ≤ high + 1 by omega) hhigh (by omega) (by omega)
      obtain ⟨m₃, buf₃, he₃, hlen₃, hbuf₃, hr₃, hs₃⟩ := merge_spec (c := c) hn h30
        (hlen₂.trans (hlen₁.trans hlen)) (hbuf.trans (hbuf₂.trans hbuf₁).ge) h0 (show low ≤ mid by omega)
        (show mid < high by omega) hhigh
      refine ⟨m₃, buf₃, ?_, hlen₃.trans (hlen₂.trans hlen₁), hbuf₃.trans (hbuf₂.trans hbuf₁), ?_, fun hc => ?_⟩
      · simp only [he₁, he₂, Option.bind_eq_bind, Option.bind_some]
        exact he₃
      · have h₁ := hr₁.mono (Set.Ico_subset_Ico_right (show mid + 1 ≤ high + 1 by omega))
        have h₂ := hr₂.mono (Set.Ico_subset_Ico_left (show low ≤ mid + 1 by omega))
        exact (h₁.trans h₂).trans hr₃
      · refine hs₃ hc ((hs₁ hc).congr fun i _ hi => ?_) (hs₂ hc)
        exact hr₂.off (by rw [Set.mem_Ico]; omega)
    · rw [if_neg hlt]
      exact ⟨m, buf, rfl, rfl, rfl, Rearranged.refl _ _, fun hc => sortedOn_of_le hc (by omega) _⟩

theorem lt_bufferLen {num : ℤ} (h0 : 0 ≤ num) (hn : size * num < 2 ^ 32 - 1) :
    (size : ℤ) * num < u32 (u32 (num * size) + 1) := by
  have hpos : (0 : ℤ) ≤ size * num := by positivity
  rw [mul_comm num, u32_of_lt (x := size * num) hpos (by omega), u32_of_lt (by omega) (by omega)]
  omega

theorem mergeSort_eq_doMergeSort (c : Elem size → Elem size → ℤ) {num : ℤ} (h0 : 0 ≤ num) (hn : size * num < 2 ^ 32 - 1)
    (h30 : num ≤ 2 ^ 30) {m : Block} (hlen : m.len = size * num) (buf : ℤ → UInt8) :
    ∃ m' buf', doMergeSort c (num.toNat + 1) 0 (num - 1) m ⟨u32 (u32 (num * size) + 1), buf⟩ = some (m', buf') ∧
      mergeSort c num m buf = some m' ∧ Rearranged (Set.Ico 0 num) (m.view size) (m'.view size) ∧
      (TotalPreorder c → SortedOn c 0 num (m'.view size)) := by
  obtain ⟨m', buf', he, -, -, hr, hs⟩ := doMergeSort_spec (c := c) (by omega) h30 (num.toNat + 1) hlen
    (show _ ≤ (⟨u32 (u32 (num * size) + 1), buf⟩ : Block).len from (lt_bufferLen h0 hn).le) le_rfl
    (show 0 ≤ num - 1 + 1 by omega) (by omega) (by omega) (by omega)
  rw [sub_add_cancel] at hr hs
  refine ⟨m', buf', he, ?_, hr, hs⟩
  rw [mergeSort, i32_of_lt (by omega) (by omega), he]
  rfl

/-- **`MergeSort` sorts**: for every comparator it ends, stays in the array and its buffer and permutes the
elements; for a total preorder the result is sorted. -/
theorem sorted_of_mergeSort (hsize : 0 < size) (c : Elem size → Elem size → ℤ) {num : ℤ} (h0 : 0 ≤ num)
    (hn : size * num ≤ 2 ^ 30) {m : Block} (hlen : m.len = size * num) (buf : ℤ → UInt8) :
    ∃ m', mergeSort c num m buf = some m' ∧ Rearranged (Set.Ico 0 num) (m.view size) (m'.view size) ∧
      (TotalPreorder c → SortedOn c 0 num (m'.view size)) := by
  have hle := le_mul_size hsize h0
  obtain ⟨m', -, -, h⟩ := mergeSort_eq_doMergeSort c h0 (by omega) (by omega) hlen buf
  exact ⟨m', h⟩

/-- Five elements of two bytes, compared by their first bytes. -/
theorem sorted_of_mergeSort_five : ∃ m',
    mergeSort compareFirst 5 ⟨10, fun i => UInt8.ofNat (i * 5 % 7).toNat⟩ (fun _ => 0) = some m' ∧
      SortedOn compareFirst 0 5 (m'.view 2) := by
  obtain ⟨m', h, -, hs⟩ := sorted_of_mergeSort Nat.zero_lt_two compareFirst (show (0 : ℤ) ≤ 5 by decide)
    (by decide) (m := ⟨10, fun i => UInt8.ofNat (i * 5 % 7).toNat⟩) (by decide) (fun _ => 0)
  exact ⟨m', h, hs totalPreorder_compareFirst⟩

end Backend.Sort
