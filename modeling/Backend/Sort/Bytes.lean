import Backend.Lib.Merge
import Backend.Sort.Enhanced

/-!
# Bytes and elements of `EQSort`

`SWAP` and the rotation of the insertion sort move one byte at a time. A byte is seen as a column of an
element: the loops go through the columns, and what they have done to a column they do to all of them.

* `get_view`, `set_view`: a byte of an element;
* **`swap_spec`**: two elements are exchanged;
* `rot`, `shiftLoop_spec`, **`rotate_spec`**, `rearranged_rot`: an element is moved to the front of a range;
* `cmpAt_spec`: two elements are compared.
-/

set_option autoImplicit false

namespace Backend.Sort

open Function

variable {size : ℕ} {c : Elem size → Elem size → ℤ} {n : ℤ} {m : Block}

/-! ## Bytes of an element -/

theorem has_byte (hlen : m.len = size * n) {i : ℤ} (h0 : 0 ≤ i) (hi : i < n) {o : ℕ} (ho : o < size) :
    m.Has (size * i + o) 1 := by
  obtain ⟨hl, hr⟩ := has_of_lt hlen.ge h0 hi
  exact ⟨by omega, by omega⟩

theorem get_view (hlen : m.len = size * n) {i : ℤ} (h0 : 0 ≤ i) (hi : i < n) {o : ℕ} (ho : o < size) :
    m.get (size * i + o) = some (m.view size i ⟨o, ho⟩) :=
  if_pos (has_byte hlen h0 hi ho)

theorem column_inj {i j : ℤ} {o : ℕ} (ho : o < size) (b : Fin size) :
    (size : ℤ) * j + (b : ℕ) = size * i + o ↔ j = i ∧ (b : ℕ) = o := by
  constructor
  · intro h
    have hb := b.isLt
    rcases lt_trichotomy j i with hji | rfl | hji
    · have := mul_add_le size hji
      omega
    · exact ⟨rfl, by omega⟩
    · have := mul_add_le size hji
      omega
  · rintro ⟨rfl, rfl⟩
    rfl

theorem set_view (hlen : m.len = size * n) {i : ℤ} (h0 : 0 ≤ i) (hi : i < n) {o : ℕ} (ho : o < size) (x : UInt8) :
    ∃ m', m.set (size * i + o) x = some m' ∧ m'.len = m.len ∧
      ∀ j b, m'.view size j b = if j = i ∧ (b : ℕ) = o then x else m.view size j b := by
  refine ⟨_, if_pos (has_byte hlen h0 hi ho), rfl, fun j b => ?_⟩
  simp only [Block.view, Block.elem, update_apply, column_inj ho b]

/-! ## `SWAP` -/

theorem swap_column {i j : ℤ} (hi0 : 0 ≤ i) (hi : i < n) (hj0 : 0 ≤ j) (hj : j < n) (hlen : m.len = size * n)
    {o : ℕ} (ho : o < size) :
    ∃ m₁ m₂, m.set (size * i + o) (m.view size j ⟨o, ho⟩) = some m₁ ∧
      m₁.set (size * j + o) (m.view size i ⟨o, ho⟩) = some m₂ ∧ m₂.len = m.len ∧
      ∀ l b, m₂.view size l b =
        if (b : ℕ) = o then m.view size (Equiv.swap i j l) b else m.view size l b := by
  obtain ⟨m₁, he₁, hlen₁, hv₁⟩ := set_view hlen hi0 hi ho (m.view size j ⟨o, ho⟩)
  obtain ⟨m₂, he₂, hlen₂, hv₂⟩ := set_view (hlen₁.trans hlen) hj0 hj ho (m.view size i ⟨o, ho⟩)
  refine ⟨m₁, m₂, he₁, he₂, hlen₂.trans hlen₁, fun l b => ?_⟩
  rw [hv₂, hv₁]
  by_cases hb : (b : ℕ) = o
  · subst hb
    by_cases hl : l = j
    · subst hl
      rw [if_pos ⟨rfl, rfl⟩, if_pos rfl, Equiv.swap_apply_right]
    · rw [if_neg fun h => hl h.1, if_pos rfl]
      by_cases hli : l = i
      · subst hli
        rw [if_pos ⟨rfl, rfl⟩, Equiv.swap_apply_left]
      · rw [if_neg fun h => hli h.1, Equiv.swap_apply_of_ne_of_ne hli hl]
  · rw [if_neg fun h => hb h.2, if_neg fun h => hb h.2, if_neg hb]

theorem swapLoop_spec (hs : (size : ℤ) < 2 ^ 64) {i j : ℤ} (hi0 : 0 ≤ i) (hi : i < n) (hj0 : 0 ≤ j) (hj : j < n)
    (fuel : ℕ) {o : ℕ} {m : Block} (hlen : m.len = size * n) (ho : o + fuel = size) (hf : 0 < fuel) :
    ∃ m', swapLoop fuel fuel (size * i + o) (size * j + o) m = some m' ∧ m'.len = m.len ∧
      ∀ l b, m'.view size l b =
        if o ≤ (b : ℕ) then m.view size (Equiv.swap i j l) b else m.view size l b := by
  induction fuel generalizing o m with
  | zero => omega
  | succ fuel ih =>
    have ho' : o < size := by omega
    obtain ⟨m₁, m₂, he₁, he₂, hlen₂, hv₂⟩ := swap_column hi0 hi hj0 hj hlen ho'
    have hk : u64 (((fuel + 1 : ℕ) : ℤ) - 1) = fuel := by
      rw [Nat.cast_succ, add_sub_cancel_right]
      exact u64_of_lt (by omega) (by omega)
    rw [swapLoop, get_view hlen hi0 hi ho', hk]
    simp only [Option.bind_eq_bind, Option.bind_some]
    rw [get_view hlen hj0 hj ho', Option.bind_some, he₁, Option.bind_some, he₂, Option.bind_some]
    by_cases hpos : 0 < fuel
    · obtain ⟨m', he, hlen', hv⟩ := ih (o := o + 1) (hlen₂.trans hlen) (by omega) hpos
      refine ⟨m', ?_, hlen'.trans hlen₂, fun l b => ?_⟩
      · rw [if_pos (by omega), add_assoc, add_assoc]
        exact he
      · rw [hv, hv₂, hv₂]
        split_ifs <;> first | rfl | omega
    · refine ⟨m₂, if_neg (by omega), hlen₂, fun l b => ?_⟩
      have hb := b.isLt
      rw [hv₂]
      split_ifs <;> first | rfl | omega

/-- **`SWAP`** exchanges two elements. -/
theorem swap_spec (hsize : 0 < size) (hs : (size : ℤ) < 2 ^ 64) (hlen : m.len = size * n) {i j : ℤ} (hi0 : 0 ≤ i)
    (hi : i < n) (hj0 : 0 ≤ j) (hj : j < n) :
    ∃ m', swap size (size * i) (size * j) m = some m' ∧ m'.len = m.len ∧
      m'.view size = m.view size ∘ Equiv.swap i j := by
  obtain ⟨m', he, hlen', hv⟩ := swapLoop_spec hs hi0 hi hj0 hj size hlen (zero_add size) hsize
  rw [Nat.cast_zero, add_zero, add_zero] at he
  refine ⟨m', he, hlen', ?_⟩
  funext l b
  rw [hv, if_pos (Nat.zero_le _), comp_apply]

/-! ## The rotation of the insertion sort -/

/-- The place from which the rotation of `t, …, r` takes the element for `j`. -/
def rot (t r j : ℤ) : ℤ := if j = t then r else if t < j ∧ j ≤ r then j - 1 else j

theorem shiftLoop_spec {t : ℤ} (ht : 0 ≤ t) {o : ℕ} (ho : o < size) (x : UInt8) (fuel : ℕ) {k : ℤ} {m : Block}
    (hlen : m.len = size * n) (hk : t ≤ k) (hkn : k < n) (hf : k - t < fuel) :
    ∃ m', shiftLoop size (size * t) x fuel (size * k + o) m = some m' ∧ m'.len = m.len ∧
      ∀ j b, m'.view size j b = if (b : ℕ) = o then if j = t then x else m.view size (rot t k j) b
        else m.view size j b := by
  induction fuel generalizing k m with
  | zero => omega
  | succ fuel ih =>
    rw [shiftLoop]
    have hprev : (size : ℤ) * k + o - size = size * (k - 1) + o := by ring
    by_cases htk : t < k
    · have hle : (size : ℤ) * t ≤ size * (k - 1) := mul_le_mul_of_nonneg_left (by omega) (by positivity)
      rw [hprev, if_pos (by omega), get_view hlen (by omega) (by omega) ho]
      simp only [Option.bind_eq_bind, Option.bind_some]
      obtain ⟨m₁, he₁, hlen₁, hv₁⟩ := set_view hlen (show 0 ≤ k by omega) hkn ho (m.view size (k - 1) ⟨o, ho⟩)
      rw [he₁, Option.bind_some]
      obtain ⟨m', he, hlen', hv⟩ := ih (hlen₁.trans hlen) (show t ≤ k - 1 by omega) (by omega) (by omega)
      refine ⟨m', he, hlen'.trans hlen₁, fun j b => ?_⟩
      rw [hv, hv₁, hv₁]
      by_cases hb : (b : ℕ) = o
      · subst hb
        by_cases hjk : j = k
        · subst hjk
          have hrot : rot t (j - 1) j = j := by
            rw [rot, if_neg htk.ne', if_neg (by omega)]
          have hrot' : rot t j j = j - 1 := by
            rw [rot, if_neg htk.ne', if_pos ⟨htk, le_rfl⟩]
          rw [if_pos rfl, if_pos rfl, if_neg htk.ne', if_neg htk.ne', hrot, hrot', if_pos ⟨rfl, rfl⟩]
        · unfold rot
          split_ifs <;> first | rfl | omega
      · rw [if_neg hb, if_neg hb, if_neg fun h => hb h.2]
    · obtain rfl : k = t := by omega
      have hlt : (size : ℤ) * (k - 1) + size ≤ size * k := mul_add_le size (by omega)
      rw [hprev, if_neg (by omega)]
      obtain ⟨m', he, hlen', hv⟩ := set_view hlen ht hkn ho x
      refine ⟨m', he, hlen', fun j b => ?_⟩
      rw [hv]
      unfold rot
      split_ifs <;> first | rfl | omega

theorem rotateLoop_spec (hsize : 0 < size) {t r : ℤ} (ht : 0 ≤ t) (htr : t < r) (hr : r < n) (fuel : ℕ) {o : ℕ}
    {m : Block} (hlen : m.len = size * n) (ho : o ≤ size) (hf : o < fuel) :
    ∃ m', rotateLoop size (size * r) (size * t) fuel (size * r + o) m = some m' ∧ m'.len = m.len ∧
      ∀ j b, m'.view size j b = if (b : ℕ) < o then m.view size (rot t r j) b else m.view size j b := by
  induction fuel generalizing o m with
  | zero => omega
  | succ fuel ih =>
    rw [rotateLoop]
    by_cases hpos : 0 < o
    · have hprev : (size : ℤ) * r + o - 1 = size * r + (o - 1 : ℕ) := by omega
      have hle : r - t ≤ size * (r - t) := le_mul_size hsize (by omega)
      rw [mul_sub] at hle
      obtain ⟨m₁, he₁, hlen₁, hv₁⟩ := shiftLoop_spec ht (show o - 1 < size by omega)
        (m.view size r ⟨o - 1, by omega⟩) ((size * r - size * t : ℤ).toNat + 1) hlen htr.le hr (by omega)
      obtain ⟨m', he, hlen', hv⟩ := ih (hlen₁.trans hlen) (show o - 1 ≤ size by omega) (by omega)
      refine ⟨m', ?_, hlen'.trans hlen₁, fun j b => ?_⟩
      · rw [hprev, if_pos (by omega), get_view hlen (by omega) hr (by omega)]
        simp only [Option.bind_eq_bind, Option.bind_some, he₁]
        exact he
      · rw [hv, hv₁, hv₁]
        by_cases hb : (b : ℕ) = o - 1
        · rw [if_neg (by omega), if_pos hb, if_pos (show (b : ℕ) < o by omega)]
          by_cases hj : j = t
          · rw [if_pos hj, rot, if_pos hj]
            congr 1
            ext
            exact hb.symm
          · rw [if_neg hj]
        · rw [if_neg hb, if_neg hb]
          split_ifs <;> first | rfl | omega
    · rw [if_neg (by omega)]
      refine ⟨m, rfl, rfl, fun j b => ?_⟩
      rw [if_neg (by omega)]

/-- **The rotation** takes the element at `r` to `t`. -/
theorem rotate_spec (hsize : 0 < size) {t r : ℤ} (ht : 0 ≤ t) (htr : t < r) (hr : r < n)
    (hlen : m.len = size * n) :
    ∃ m', rotateLoop size (size * r) (size * t) (size + 1) (size * r + size) m = some m' ∧ m'.len = m.len ∧
      m'.view size = m.view size ∘ rot t r := by
  obtain ⟨m', he, hlen', hv⟩ := rotateLoop_spec hsize ht htr hr (size + 1) hlen le_rfl (by omega)
  refine ⟨m', he, hlen', ?_⟩
  funext j b
  rw [hv, if_pos b.isLt, comp_apply]

theorem comp_rot_self {α : Type*} (a : ℤ → α) (t : ℤ) : a ∘ rot t t = a := by
  funext j
  rw [comp_apply, rot]
  split_ifs <;> congr 1 <;> omega

theorem rearranged_rot {α : Type*} (a : ℤ → α) {t r : ℤ} (htr : t ≤ r) :
    Rearranged (Set.Icc t r) a (a ∘ rot t r) := by
  apply rearranged_of_injOn (f := rot t r)
  · intro j hj
    obtain ⟨h, h'⟩ := hj
    rw [Set.mem_Icc]
    unfold rot
    split_ifs <;> omega
  · intro j hj k hk he
    obtain ⟨h, h'⟩ := hj
    obtain ⟨l, l'⟩ := hk
    unfold rot at he
    split_ifs at he <;> omega
  · exact fun j _ => rfl
  · intro j hj
    rw [Set.mem_Icc] at hj
    rw [comp_apply, rot, if_neg (by omega), if_neg (by omega)]

theorem moveTo_spec (hsize : 0 < size) {t r : ℤ} (ht : 0 ≤ t) (htr : t ≤ r) (hr : r < n)
    (hlen : m.len = size * n) :
    ∃ m', moveTo size (size * r) (size * t) m = some m' ∧ m'.len = m.len ∧
      m'.view size = m.view size ∘ rot t r := by
  rw [moveTo]
  rcases eq_or_lt_of_le htr with rfl | hlt
  · rw [if_neg (not_not.mpr rfl)]
    exact ⟨m, rfl, rfl, (comp_rot_self _ _).symm⟩
  · have hne : (size : ℤ) * t ≠ size * r := fun hno =>
      hlt.ne (mul_left_cancel₀ (by exact_mod_cast hsize.ne') hno)
    rw [if_pos hne]
    exact rotate_spec hsize ht hlt hr hlen

/-! ## Comparisons -/

theorem cmpAt_spec (hlen : m.len = size * n) {i j : ℤ} (hi0 : 0 ≤ i) (hi : i < n) (hj0 : 0 ≤ j) (hj : j < n) :
    cmpAt c m (size * i) (size * j) = some (c (m.view size i) (m.view size j)) := by
  rw [cmpAt, load_view hlen hi0 hi, load_view hlen hj0 hj]
  rfl

end Backend.Sort
