import Mathlib.Data.Int.Order.Basic
import Mathlib.Algebra.Order.Ring.Int
import Mathlib.Tactic.Ring
import Mathlib.Tactic.NormNum

/-!
# Machine integers and the doubling loop

`u32`, `i32` and `u64` reduce an integer to `uint32_t`, `int32_t` and `size_t`. `CommonQueue::Init`,
`SessionPool::Init` and `HashMap::Init` round a size up to a power of two by one loop,
`while (m < size) m <<= 1`, on these types: `doubleLoop`.

* **`doubleLoop_spec`**: for a size up to `2 ^ 30` the loop ends at the least power of two that is
  not below the size.
-/

set_option autoImplicit false

namespace Backend

/-- The value of an integer as `uint32_t`. -/
def u32 (x : ℤ) : ℤ := x % 2 ^ 32

/-- The value of an integer as `int32_t`. -/
def i32 (x : ℤ) : ℤ := Int.bmod x (2 ^ 32)

/-- The value of an integer as `size_t`. -/
def u64 (x : ℤ) : ℤ := x % 2 ^ 64

theorem u32_of_lt {x : ℤ} (h0 : 0 ≤ x) (h : x < 2 ^ 32) : u32 x = x := Int.emod_eq_of_lt h0 h

theorem u64_of_lt {x : ℤ} (h0 : 0 ≤ x) (h : x < 2 ^ 64) : u64 x = x := Int.emod_eq_of_lt h0 h

theorem i32_of_lt {x : ℤ} (h0 : -2 ^ 31 ≤ x) (h : x < 2 ^ 31) : i32 x = x := by
  rw [i32, Int.bmod_def]
  split_ifs <;> omega

theorem u32_lt (x : ℤ) : u32 x < 2 ^ 32 := Int.emod_lt_of_pos x (by norm_num)

theorem i32_lt (x : ℤ) : i32 x < 2 ^ 31 := by
  rw [i32, Int.bmod_def]
  split_ifs <;> omega

/-- `while (m < size) m <<= 1`, on the integer type that `wrap` reduces to; `none` when `fuel`
tests of the condition do not end it. After 33 tests a 32-bit `m` is `0` and stays `0`. -/
def doubleLoop (wrap : ℤ → ℤ) : ℕ → ℤ → ℤ → Option ℤ
  | 0, _, _ => none
  | fuel + 1, m, size => if m < size then doubleLoop wrap fuel (wrap (2 * m)) size else some m

theorem doubleLoop_from {wrap : ℤ → ℤ} {B : ℕ} (hw : ∀ j : ℕ, j ≤ B → wrap (2 ^ j) = 2 ^ j) {size : ℤ}
    (hs : size ≤ 2 ^ B) : ∀ (fuel j : ℕ), j ≤ B → B + 1 ≤ fuel + j → (j = 0 ∨ 2 ^ (j - 1) < size) →
      ∃ k, k ≤ B ∧ doubleLoop wrap fuel (2 ^ j) size = some (2 ^ k) ∧ size ≤ 2 ^ k ∧
        (k = 0 ∨ 2 ^ (k - 1) < size) := by
  intro fuel
  induction fuel with
  | zero => intro j h1 h2; omega
  | succ fuel ih =>
    intro j hj hf hl
    rw [doubleLoop]
    split_ifs with h
    · have hj' : j < B := by
        by_contra hc
        have : j = B := by omega
        subst this
        omega
      rw [show (2 : ℤ) * 2 ^ j = 2 ^ (j + 1) by ring, hw (j + 1) hj']
      exact ih (j + 1) hj' (by omega) (Or.inr (by simpa using h))
    · exact ⟨j, hj, rfl, by omega, hl⟩

theorem doubleLoop_inv {wrap : ℤ → ℤ} {P : ℤ → Prop} (hP : ∀ x, P x → P (wrap (2 * x))) {size : ℤ} :
    ∀ {fuel : ℕ} {m r : ℤ}, P m → doubleLoop wrap fuel m size = some r → P r ∧ size ≤ r := by
  intro fuel
  induction fuel with
  | zero => intro m r _ h; cases h
  | succ fuel ih =>
    intro m r hm h
    rw [doubleLoop] at h
    split_ifs at h with hlt
    · exact ih (hP m hm) h
    · cases h
      exact ⟨hm, by omega⟩

/-- On `int32_t` the loop does not end for sizes above `2 ^ 30`. -/
theorem size_le_of_doubleLoop_i32 {fuel : ℕ} {size r : ℤ} (h : doubleLoop i32 fuel 1 size = some r) :
    size ≤ 2 ^ 30 := by
  have hP : ∀ x : ℤ, (x = 0 ∨ x = -2 ^ 31 ∨ ∃ j, j ≤ 30 ∧ x = 2 ^ j) →
      i32 (2 * x) = 0 ∨ i32 (2 * x) = -2 ^ 31 ∨ ∃ j, j ≤ 30 ∧ i32 (2 * x) = 2 ^ j := by
    rintro x (rfl | rfl | ⟨j, hj, rfl⟩)
    · exact Or.inl rfl
    · exact Or.inl rfl
    · rcases Nat.lt_or_eq_of_le hj with hj | rfl
      · have hp : (2 : ℤ) ^ (j + 1) ≤ 2 ^ 30 := pow_le_pow_right₀ (by norm_num) (by omega)
        have h0 : (0 : ℤ) < 2 ^ (j + 1) := by positivity
        rw [show (2 : ℤ) * 2 ^ j = 2 ^ (j + 1) by ring, i32_of_lt (by omega) (by omega)]
        exact Or.inr (Or.inr ⟨j + 1, by omega, rfl⟩)
      · exact Or.inr (Or.inl rfl)
  have h1 := doubleLoop_inv hP (Or.inr (Or.inr ⟨0, by omega, by norm_num⟩)) h
  rcases h1.1 with h2 | h2 | ⟨j, hj, h2⟩
  · omega
  · omega
  · have hp : (2 : ℤ) ^ j ≤ 2 ^ 30 := pow_le_pow_right₀ (by norm_num) hj
    omega

/-- On `uint32_t` the loop ends at `0` or at a power of two. -/
theorem pow_of_doubleLoop_u32 {fuel : ℕ} {size r : ℤ} (h : doubleLoop u32 fuel 1 size = some r) :
    (r = 0 ∨ ∃ j : ℕ, j ≤ 31 ∧ r = 2 ^ j) ∧ size ≤ r := by
  refine doubleLoop_inv (P := fun r => r = 0 ∨ ∃ j : ℕ, j ≤ 31 ∧ r = 2 ^ j) ?_
    (Or.inr ⟨0, by omega, by norm_num⟩) h
  rintro x (rfl | ⟨j, hj, rfl⟩)
  · exact Or.inl rfl
  · rcases Nat.lt_or_eq_of_le hj with hj | rfl
    · have hp : (2 : ℤ) ^ (j + 1) ≤ 2 ^ 31 := pow_le_pow_right₀ (by norm_num) (by omega)
      have h0 : (0 : ℤ) < 2 ^ (j + 1) := by positivity
      rw [show (2 : ℤ) * 2 ^ j = 2 ^ (j + 1) by ring, u32_of_lt (by omega) (by omega)]
      exact Or.inr ⟨j + 1, by omega, rfl⟩
    · exact Or.inl rfl

theorem le_of_pow_le {size : ℤ} {j k : ℕ} (hj : size ≤ 2 ^ j) (hk : k = 0 ∨ 2 ^ (k - 1) < size) : k ≤ j := by
  rcases hk with rfl | hk
  · exact Nat.zero_le _
  · have hlt : (2 : ℤ) ^ (k - 1) < 2 ^ j := lt_of_lt_of_le hk hj
    have := (pow_lt_pow_iff_right₀ (by norm_num : (1 : ℤ) < 2)).mp hlt
    omega

theorem pow_unique {size : ℤ} {j k : ℕ} (hj : size ≤ 2 ^ j) (hj' : j = 0 ∨ 2 ^ (j - 1) < size)
    (hk : size ≤ 2 ^ k) (hk' : k = 0 ∨ 2 ^ (k - 1) < size) : j = k :=
  le_antisymm (le_of_pow_le hk hj') (le_of_pow_le hj hk')

/-- **The doubling loop** rounds up to the least power of two that is not below `size`. -/
theorem doubleLoop_spec {wrap : ℤ → ℤ} (hw : ∀ x, 0 ≤ x → x < 2 ^ 31 → wrap x = x) {size : ℤ}
    (hs : size ≤ 2 ^ 30) : ∃ k, k ≤ 30 ∧ doubleLoop wrap 33 1 size = some (2 ^ k) ∧ size ≤ 2 ^ k ∧
      (k = 0 ∨ 2 ^ (k - 1) < size) := by
  have hpow : ∀ j : ℕ, j ≤ 30 → wrap (2 ^ j) = 2 ^ j := by
    intro j hj
    have hp : (2 : ℤ) ^ j ≤ 2 ^ 30 := pow_le_pow_right₀ (by norm_num) hj
    exact hw _ (by positivity) (by omega)
  have := doubleLoop_from hpow hs 33 0 (by omega) (by omega) (Or.inl rfl)
  simpa using this

end Backend
