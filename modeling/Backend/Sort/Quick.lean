import Backend.Sort.Model

/-!
# `QSort` sorts

`Partition` keeps its pivot aside and moves the hole that this leaves between its two pointers; the array
with the hole filled is a rearrangement of the array it began with.

* `scanHigh_spec`, `scanLow_spec`: the inner loops;
* `Split`, `partitionLoop_round`, **`partitionLoop_spec`**, **`partition_spec`**: for any comparator;
* **`quickSort_spec`**, `sorted_of_qSort`.
-/

set_option autoImplicit false

namespace Backend.Sort

open Function

variable {size : ℕ} {c : Elem size → Elem size → ℤ} {n b : ℤ} {m : Block}

/-! ## The inner loops -/

theorem scanHigh_spec (hlen : m.len = size * n) (hn : size * n < 2 ^ 32) (hb : 0 ≤ b) (pivot : Elem size)
    {low : ℤ} (h0 : 0 ≤ low) (fuel : ℕ) {high : ℤ} (hle : low ≤ high) (hh : b + high < n)
    (h32 : high < 2 ^ 32) (hf : high - low < fuel) :
    ∃ high', scanHigh c m (size * b) pivot low fuel high = some high' ∧ low ≤ high' ∧ high' ≤ high ∧
      (∀ i, high' < i → i ≤ high → 0 ≤ c (m.view size (b + i)) pivot) ∧
      (low < high' → c (m.view size (b + high')) pivot < 0) := by
  induction fuel generalizing high with
  | zero => omega
  | succ fuel ih =>
    rw [scanHigh]
    by_cases hlt : low < high
    · rw [if_pos hlt, load_addr hlen hn hb (by omega) hh]
      simp only [Option.bind_eq_bind, Option.bind_some]
      by_cases hc : c (m.view size (b + high)) pivot ≥ 0
      · rw [if_pos hc, u32_of_lt (by omega) (by omega)]
        obtain ⟨high', he, h1, h2, h3, h4⟩ := ih (show low ≤ high - 1 by omega) (by omega) (by omega) (by omega)
        refine ⟨high', he, h1, by omega, fun i hi hi' => ?_, h4⟩
        by_cases hih : i = high
        · rw [hih]
          exact hc
        · exact h3 i hi (by omega)
      · rw [if_neg hc]
        exact ⟨high, rfl, hle, le_rfl, fun i hi hi' => by omega, fun _ => by omega⟩
    · rw [if_neg hlt]
      exact ⟨high, rfl, hle, le_rfl, fun i hi hi' => by omega, fun h => absurd h hlt⟩

theorem scanLow_spec (hlen : m.len = size * n) (hn : size * n < 2 ^ 32) (hb : 0 ≤ b) (pivot : Elem size)
    {high : ℤ} (hh : b + high < n) (h32 : high < 2 ^ 32) (fuel : ℕ) {low : ℤ} (h0 : 0 ≤ low)
    (hle : low ≤ high) (hf : high - low < fuel) :
    ∃ low', scanLow c m (size * b) pivot high fuel low = some low' ∧ low ≤ low' ∧ low' ≤ high ∧
      (∀ i, low ≤ i → i < low' → c (m.view size (b + i)) pivot ≤ 0) ∧
      (low' < high → 0 < c (m.view size (b + low')) pivot) := by
  induction fuel generalizing low with
  | zero => omega
  | succ fuel ih =>
    rw [scanLow]
    by_cases hlt : low < high
    · rw [if_pos hlt, load_addr hlen hn hb h0 (by omega)]
      simp only [Option.bind_eq_bind, Option.bind_some]
      by_cases hc : c (m.view size (b + low)) pivot ≤ 0
      · rw [if_pos hc, u32_of_lt (by omega) (by omega)]
        obtain ⟨low', he, h1, h2, h3, h4⟩ := ih (show 0 ≤ low + 1 by omega) (by omega) (by omega)
        refine ⟨low', he, by omega, h2, fun i hi hi' => ?_, h4⟩
        by_cases hil : i = low
        · rw [hil]
          exact hc
        · exact h3 i (by omega) hi'
      · rw [if_neg hc]
        exact ⟨low, rfl, le_rfl, hle, fun i hi hi' => by omega, fun _ => by omega⟩
    · rw [if_neg hlt]
      exact ⟨low, rfl, le_rfl, hle, fun i hi hi' => by omega, fun h => absurd h hlt⟩

/-! ## `Partition` -/

/-- The elements before `low` are at most the pivot, those behind `high` are at least it. -/
structure Split (c : Elem size → Elem size → ℤ) (pivot : Elem size) (num low high : ℤ)
    (a : ℤ → Elem size) : Prop where
  left : ∀ i, 0 ≤ i → i < low → c (a i) pivot ≤ 0
  right : ∀ i, high < i → i < num → 0 ≤ c (a i) pivot

/-- The elements from `b` on. -/
def shift (b : ℤ) (a : ℤ → Elem size) (i : ℤ) : Elem size := a (b + i)

theorem shift_update (a : ℤ → Elem size) (b i : ℤ) (x : Elem size) :
    shift b (update a (b + i) x) = update (shift b a) i x := by
  funext j
  rw [shift, update_apply, update_apply]
  simp only [add_right_inj]
  rfl

/-- One round of `Partition`: the hole at `low` is filled with the element at `high'`, and the one that is left
there with the element at `low'`. -/
theorem Split.round {pivot : Elem size} {num low high low' high' : ℤ} {a : ℤ → Elem size}
    (hs : Split c pivot num low high a) (hlow : low ≤ low') (hle : low' ≤ high')
    (hright : ∀ i, high' < i → i ≤ high → 0 ≤ c (a i) pivot)
    (hleft : ∀ i, low ≤ i → i < low' → c (update a low (a high') i) pivot ≤ 0) :
    Split c pivot num low' high' (update (update a low (a high')) high' (update a low (a high') low')) := by
  constructor
  · intro i hi hi'
    rw [update_of_ne (by omega)]
    by_cases hil : low ≤ i
    · exact hleft i hil hi'
    · rw [update_of_ne (by omega)]
      exact hs.left i hi (by omega)
  · intro i hi hi'
    rw [update_of_ne (by omega), update_of_ne (by omega)]
    by_cases hih : i ≤ high
    · exact hright i hi hih
    · exact hs.right i (by omega) hi'

theorem partitionLoop_round (hn : size * n < 2 ^ 32) (hb : 0 ≤ b) (pivot : Elem size) {num : ℤ}
    (hnum : b + num ≤ n) (h32 : num ≤ 2 ^ 32) (fuel : ℕ) {low high : ℤ} (hlen : m.len = size * n) (h0 : 0 ≤ low)
    (hlt : low < high) (hh : high < num) (hf : high - low < fuel + 1)
    (hs : Split c pivot num low high (shift b (m.view size))) :
    ∃ low' high' m', partitionLoop c (size * b) pivot (fuel + 1) low high m =
        partitionLoop c (size * b) pivot fuel low' high' m' ∧ m'.len = size * n ∧ low ≤ low' ∧ low' ≤ high' ∧
      high' ≤ high ∧ (low' = high' ∨ low < low') ∧ Split c pivot num low' high' (shift b (m'.view size)) ∧
      Rearranged (Set.Ico b (b + num)) (update (m.view size) (b + low) pivot)
        (update (m'.view size) (b + low') pivot) := by
  obtain ⟨high', he, h1, h2, h3, h4⟩ := scanHigh_spec (c := c) hlen hn hb pivot h0 (fuel + 1) hlt.le (by omega)
    (by omega) hf
  obtain ⟨m₁, he₁, hlen₁, hv₁⟩ := store_addr hlen hn hb h0 (show b + low < n by omega) (m.view size (b + high'))
  obtain ⟨low', he', k1, k2, k3, k4⟩ := scanLow_spec (c := c) hlen₁ hn hb pivot (show b + high' < n by omega)
    (by omega) (fuel + 1) h0 h1 (by omega)
  obtain ⟨m₂, he₂, hlen₂, hv₂⟩ := store_addr hlen₁ hn hb (show 0 ≤ high' by omega)
    (show b + high' < n by omega) (m₁.view size (b + low'))
  refine ⟨low', high', m₂, ?_, hlen₂, k1, k2, h2, ?_, ?_, ?_⟩
  · rw [partitionLoop, if_pos hlt, he]
    simp only [Option.bind_eq_bind, Option.bind_some]
    rw [load_addr hlen hn hb (by omega) (by omega), Option.bind_some, he₁, Option.bind_some, he', Option.bind_some,
      load_addr hlen₁ hn hb (by omega) (by omega), Option.bind_some, he₂, Option.bind_some]
  · -- the element that fills the hole is below the pivot, so `low` moves on
    by_contra hno
    have hll : low' = low := by omega
    have hlt' : low < high' := by omega
    have hneg := h4 hlt'
    have hpos := k4 (by omega)
    rw [hll, hv₁, update_self] at hpos
    omega
  · have hw₁ : shift b (m₁.view size) = update (shift b (m.view size)) low (shift b (m.view size) high') := by
      rw [hv₁, shift_update]
      rfl
    have hw₂ : shift b (m₂.view size) = update (shift b (m₁.view size)) high' (shift b (m₁.view size) low') := by
      rw [hv₂, shift_update]
      rfl
    rw [hw₂, hw₁]
    apply hs.round k1 k2 h3
    rw [← hw₁]
    exact k3
  · have hr₁ := rearranged_hole (S := Set.Ico b (b + num)) (m.view size) pivot (h := b + low)
      (j := b + high') ⟨by omega, by omega⟩ ⟨by omega, by omega⟩
    have hr₂ := rearranged_hole (S := Set.Ico b (b + num)) (m₁.view size) pivot (h := b + high')
      (j := b + low') ⟨by omega, by omega⟩ ⟨by omega, by omega⟩
    rw [← hv₁] at hr₁
    rw [← hv₂] at hr₂
    exact hr₁.trans hr₂

/-- **The loop of `Partition`**: the hole is at `low` before and after each round. -/
theorem partitionLoop_spec (hn : size * n < 2 ^ 32) (hb : 0 ≤ b) (pivot : Elem size) {num : ℤ}
    (hnum : b + num ≤ n) (h32 : num ≤ 2 ^ 32) (fuel : ℕ) {low high : ℤ} {m : Block}
    (hlen : m.len = size * n) (h0 : 0 ≤ low) (hle : low ≤ high) (hh : high < num) (hf : high - low < fuel)
    (hs : Split c pivot num low high (shift b (m.view size))) :
    ∃ p m', partitionLoop c (size * b) pivot fuel low high m = some (p, p, m') ∧ m'.len = m.len ∧
      0 ≤ p ∧ p < num ∧ Split c pivot num p p (shift b (m'.view size)) ∧
      Rearranged (Set.Ico b (b + num)) (update (m.view size) (b + low) pivot)
        (update (m'.view size) (b + p) pivot) := by
  induction fuel generalizing low high m with
  | zero => omega
  | succ fuel ih =>
    by_cases hlt : low < high
    · obtain ⟨low', high', m₁, he, hlen₁, h1, h2, h3, hprogress, hs₁, hr₁⟩ :=
        partitionLoop_round hn hb pivot hnum h32 fuel hlen h0 hlt hh (by omega) hs
      obtain ⟨p, m', hp, hlen', hp0, hpn, hsp, hr⟩ := ih hlen₁ (by omega) h2 (by omega) (by omega) hs₁
      exact ⟨p, m', he.trans hp, hlen'.trans (hlen₁.trans hlen.symm), hp0, hpn, hsp, hr₁.trans hr⟩
    · have hlh : low = high := by omega
      subst hlh
      rw [partitionLoop, if_neg hlt]
      exact ⟨low, m, rfl, rfl, h0, hh, hs, Rearranged.refl _ _⟩

/-- **`Partition`**: what is before the index it returns is at most the pivot, which is there, and what is
behind it is at least the pivot. -/
theorem partition_spec (hn : size * n < 2 ^ 32) (hb : 0 ≤ b) {cap num : ℤ} (hcap : size < cap)
    (h1 : 1 ≤ num) (hnum : b + num ≤ n) (h32 : num ≤ 2 ^ 32) (hlen : m.len = size * n) :
    ∃ p m', partition c cap (size * b) 0 (num - 1) m = some (p, m') ∧ m'.len = m.len ∧ 0 ≤ p ∧ p < num ∧
      m'.view size (b + p) = m.view size b ∧
      Split c (m.view size b) num p p (shift b (m'.view size)) ∧
      Rearranged (Set.Ico b (b + num)) (m.view size) (m'.view size) := by
  have hs : Split c (m.view size b) num 0 (num - 1) (shift b (m.view size)) :=
    ⟨fun i hi hi' => by omega, fun i hi hi' => by omega⟩
  obtain ⟨p, m₁, he, hlen₁, hp0, hpn, hsp, hr⟩ := partitionLoop_spec hn hb (m.view size b) hnum h32
    ((num - 1 - 0).toNat + 1) hlen le_rfl (by omega) (by omega) (by omega) hs
  obtain ⟨m₂, he₂, hlen₂, hv₂⟩ := store_addr (hlen₁.trans hlen) hn hb hp0 (show b + p < n by omega)
    (m.view size b)
  refine ⟨p, m₂, ?_, hlen₂.trans hlen.symm, hp0, hpn, ?_, ?_, ?_⟩
  · rw [partition, load_view hlen hb (by omega)]
    simp only [Option.bind_eq_bind, Option.bind_some]
    rw [keep, if_pos hcap, Option.bind_some, he, Option.bind_some, he₂, Option.bind_some]
  · rw [hv₂, update_self]
  · rw [hv₂, shift_update]
    constructor
    · intro i hi hi'
      rw [update_of_ne (by omega)]
      exact hsp.left i hi hi'
    · intro i hi hi'
      rw [update_of_ne (by omega)]
      exact hsp.right i hi hi'
  · rw [hv₂]
    rwa [add_zero, update_eq_self] at hr

/-! ## `QuickSort` -/

theorem sortedOn_of_split (hc : TotalPreorder c) {a₁ a₂ a₃ : ℤ → Elem size} {num p : ℤ}
    (hs : Split c (a₁ (b + p)) num p p (shift b a₁))
    (h₂ : Rearranged (Set.Ico b (b + p)) a₁ a₂) (hs₂ : SortedOn c b (b + p) a₂)
    (h₃ : Rearranged (Set.Ico (b + (p + 1)) (b + num)) a₂ a₃)
    (hs₃ : SortedOn c (b + (p + 1)) (b + num) a₃) : SortedOn c b (b + num) a₃ := by
  have hleft : ∀ i, b ≤ i → i < b + p → c (a₃ i) (a₁ (b + p)) ≤ 0 := by
    intro i hi hi'
    rw [h₃.off (by rw [Set.mem_Ico]; omega)]
    refine h₂.forall_mem (P := fun x => c x (a₁ (b + p)) ≤ 0) (fun j hj => ?_) i ⟨hi, hi'⟩
    obtain ⟨hj, hj'⟩ := hj
    have := hs.left (j - b) (by omega) (by omega)
    rwa [shift, add_sub_cancel] at this
  have hright : ∀ i, b + (p + 1) ≤ i → i < b + num → c (a₁ (b + p)) (a₃ i) ≤ 0 := by
    intro i hi hi'
    refine h₃.forall_mem (P := fun x => c (a₁ (b + p)) x ≤ 0) (fun j hj => ?_) i ⟨hi, hi'⟩
    obtain ⟨hj, hj'⟩ := hj
    rw [h₂.off (by rw [Set.mem_Ico]; omega)]
    have := hs.right (j - b) (by omega) (by omega)
    rw [shift, add_sub_cancel] at this
    exact hc.le_of_ge this
  have hmid : a₃ (b + p) = a₁ (b + p) := by
    rw [h₃.off (by rw [Set.mem_Ico]; omega), h₂.off (by rw [Set.mem_Ico]; omega)]
  refine sortedOn_append hc (b + p) (a₁ (b + p)) ?_ ?_ hleft ?_
  · exact hs₂.congr fun i _ hi' => h₃.off (by rw [Set.mem_Ico]; omega)
  · refine sortedOn_append hc (b + (p + 1)) (a₁ (b + p)) (sortedOn_of_le hc (by omega) _) hs₃ ?_ hright
    intro i hi hi'
    rw [show i = b + p by omega, hmid]
    exact hc.refl _
  · intro i hi hi'
    by_cases hip : i = b + p
    · rw [hip, hmid]
      exact hc.refl _
    · exact hright i (by omega) hi'

/-- **`QuickSort`** of `num` elements. -/
theorem quickSort_spec (hn : size * n < 2 ^ 32) {cap : ℤ} (hcap : size < cap) (fuel : ℕ) {num : ℤ}
    {m : Block} (hlen : m.len = size * n) (hb : 0 ≤ b) (h0 : 0 ≤ num) (hnum : b + num ≤ n)
    (h32 : num < 2 ^ 32) (hf : num < fuel) :
    ∃ m', quickSort c cap fuel (size * b) num m = some m' ∧ m'.len = m.len ∧
      Rearranged (Set.Ico b (b + num)) (m.view size) (m'.view size) ∧
      (TotalPreorder c → SortedOn c b (b + num) (m'.view size)) := by
  induction fuel generalizing b num m with
  | zero => omega
  | succ fuel ih =>
    rw [quickSort]
    by_cases h1 : num ≤ 1
    · rw [if_pos h1]
      exact ⟨m, rfl, rfl, Rearranged.refl _ _, fun hc => sortedOn_of_le hc (by omega) _⟩
    · rw [if_neg h1, u32_of_lt (by omega) (by omega)]
      obtain ⟨p, m₁, he, hlen₁, hp0, hpn, hpiv, hs, hr⟩ := partition_spec (c := c) hn hb hcap (by omega) hnum
        h32.le hlen
      obtain ⟨m₂, he₂, hlen₂, hr₂, hs₂⟩ := ih (hlen₁.trans hlen) hb hp0 (by omega) (by omega) (by omega)
      have hsize : (size : ℤ) * (p + 1) ≤ size * n := mul_le_mul_of_nonneg_left (by omega) (by positivity)
      obtain ⟨m₃, he₃, hlen₃, hr₃, hs₃⟩ := ih (b := b + (p + 1)) (hlen₂.trans (hlen₁.trans hlen))
        (by omega) (show 0 ≤ num - p - 1 by omega) (by omega) (by omega) (by omega)
      rw [show b + (p + 1) + (num - p - 1) = b + num by ring] at hr₃ hs₃
      refine ⟨m₃, ?_, hlen₃.trans (hlen₂.trans hlen₁), ?_, fun hc => ?_⟩
      · simp only [he, Option.bind_eq_bind, Option.bind_some, he₂]
        rw [u32_of_lt (by omega) (by omega), u32_of_lt (by omega) (by omega), addr_eq (by omega) (by omega)]
        exact he₃
      · have hsub₂ : Set.Ico b (b + p) ⊆ Set.Ico b (b + num) := Set.Ico_subset_Ico_right (by omega)
        have hsub₃ : Set.Ico (b + (p + 1)) (b + num) ⊆ Set.Ico b (b + num) := Set.Ico_subset_Ico_left (by omega)
        exact (hr.trans (hr₂.mono hsub₂)).trans (hr₃.mono hsub₃)
      · rw [← hpiv] at hs
        exact sortedOn_of_split hc hs hr₂ (hs₂ hc) hr₃ (hs₃ hc)

theorem qSort_spec (c : Elem size → Elem size → ℤ) {num : ℤ} (h0 : 0 ≤ num) (hn : size * num < 2 ^ 32 - 1)
    (h30 : num ≤ 2 ^ 30) {m : Block} (hlen : m.len = size * num) :
    ∃ m', qSort c num m = some m' ∧ Rearranged (Set.Ico 0 num) (m.view size) (m'.view size) ∧
      (TotalPreorder c → SortedOn c 0 num (m'.view size)) := by
  rcases eq_or_lt_of_le h0 with rfl | hpos
  · exact ⟨m, rfl, Rearranged.refl _ _, fun hc => sortedOn_of_le hc (by omega) _⟩
  · obtain ⟨m', he, -, hr, hs⟩ := quickSort_spec (c := c) (b := 0) (n := num) (by omega)
      (size_lt_cap size (by omega) hn) (num.toNat + 1) hlen le_rfl h0 (by omega) (by omega) (by omega)
    rw [zero_add] at hr hs
    rw [mul_zero] at he
    exact ⟨m', he, hr, hs⟩

/-- **`QSort` sorts**: for every comparator it ends, stays in the array and permutes the elements, and every
call of `Partition` on a part of the array splits that part at the index it returns; for a total preorder
the result is sorted. -/
theorem sorted_of_qSort (hsize : 0 < size) (c : Elem size → Elem size → ℤ) {num : ℤ} (h0 : 0 ≤ num)
    (hn : size * num ≤ 2 ^ 30) {m : Block} (hlen : m.len = size * num) :
    (∃ m', qSort c num m = some m' ∧ Rearranged (Set.Ico 0 num) (m.view size) (m'.view size) ∧
      (TotalPreorder c → SortedOn c 0 num (m'.view size))) ∧
    ∀ (b k : ℤ) (m₁ : Block), m₁.len = size * num → 0 ≤ b → 1 ≤ k → b + k ≤ num →
      ∃ p m₂, partition c (u32 (size + 1)) (size * b) 0 (k - 1) m₁ = some (p, m₂) ∧ 0 ≤ p ∧ p < k ∧
        m₂.view size (b + p) = m₁.view size b ∧
        (∀ i, b ≤ i → i < b + p → c (m₂.view size i) (m₁.view size b) ≤ 0) ∧
        (∀ i, b + p < i → i < b + k → 0 ≤ c (m₂.view size i) (m₁.view size b)) ∧
        Rearranged (Set.Ico b (b + k)) (m₁.view size) (m₂.view size) := by
  have hle := le_mul_size hsize h0
  constructor
  · exact qSort_spec c h0 (by omega) (by omega) hlen
  · intro b k m₁ hlen₁ hb hk hbk
    obtain ⟨p, m₂, he, -, hp0, hpk, hpiv, hs, hr⟩ := partition_spec (c := c) (n := num) (by omega) hb
      (size_lt_cap size (show 1 ≤ num by omega) (by omega)) hk hbk (by omega) hlen₁
    refine ⟨p, m₂, he, hp0, hpk, hpiv, fun i hi hi' => ?_, fun i hi hi' => ?_, hr⟩
    · have := hs.left (i - b) (by omega) (by omega)
      rwa [shift, add_sub_cancel] at this
    · have := hs.right (i - b) (by omega) (by omega)
      rwa [shift, add_sub_cancel] at this

/-- Four elements of two bytes, compared by their first bytes. -/
theorem sorted_of_qSort_four : ∃ m', qSort compareFirst 4 ⟨8, fun i => UInt8.ofNat (i * 5 % 7).toNat⟩ = some m' ∧
    SortedOn compareFirst 0 4 (m'.view 2) := by
  obtain ⟨m', h, -, hs⟩ := (sorted_of_qSort Nat.zero_lt_two compareFirst (show (0 : ℤ) ≤ 4 by decide)
    (by decide) (m := ⟨8, fun i => UInt8.ofNat (i * 5 % 7).toNat⟩) (by decide)).1
  exact ⟨m', h, hs totalPreorder_compareFirst⟩

end Backend.Sort
