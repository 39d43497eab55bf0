import Mathlib.Data.Nat.ModEq
import Mathlib.Data.List.Basic
import Mathlib.Data.Nat.Bitwise
import Mathlib.Logic.Function.Basic

/-!
# Ring buffers

A ring buffer of `m` slots is addressed by ever growing positions reduced modulo `m`. Positions
in a window of length `m` lie in different slots (`slot_inj`); `Holds data m r l` says that the
slots from position `r` on hold the list `l`, and **`Holds.push`**, **`Holds.head`**,
**`Holds.tail`** are the two ends of the buffer. For a power of two, masking with `m - 1` is
reduction modulo `m` (`mask_eq_mod`).
-/

set_option autoImplicit false

namespace Backend

variable {T : Type*}

theorem slot_inj {m r i j : ℕ} (hi : r ≤ i) (hi' : i < r + m) (hj : r ≤ j) (hj' : j < r + m)
    (h : i % m = j % m) : i = j := by
  rcases Nat.lt_or_ge i j with hij | hij
  · have := (Nat.modEq_iff_dvd' hij.le).mp h
    have := Nat.eq_zero_of_dvd_of_lt this (by omega)
    omega
  · have := (Nat.modEq_iff_dvd' hij).mp h.symm
    have := Nat.eq_zero_of_dvd_of_lt this (by omega)
    omega

theorem slot_succ (n m : ℕ) : (n % m + 1) % m = (n + 1) % m := Nat.mod_add_mod n m 1

theorem mask_eq_mod (k i : ℕ) : i &&& (2 ^ k - 1) = i % 2 ^ k := Nat.and_two_pow_sub_one_eq_mod i k

/-- The slots from position `r` on hold `l`. -/
def Holds (data : ℕ → T) (m r : ℕ) (l : List T) : Prop :=
  ∀ i x, l[i]? = some x → data ((r + i) % m) = x

theorem holds_nil (data : ℕ → T) (m r : ℕ) : Holds data m r [] := by
  intro i x h
  simp at h

theorem Holds.head {data : ℕ → T} {m r : ℕ} {x : T} {l : List T} (h : Holds data m r (x :: l)) :
    data (r % m) = x := h 0 x rfl

theorem Holds.tail {data : ℕ → T} {m r : ℕ} {x : T} {l : List T} (h : Holds data m r (x :: l)) :
    Holds data m (r + 1) l := by
  intro i y hy
  rw [Nat.add_assoc, Nat.add_comm 1 i]
  exact h (i + 1) y hy

/-- **Appending** at the first free slot. -/
theorem Holds.push {data : ℕ → T} {m r : ℕ} {l : List T} (h : Holds data m r l)
    (hl : l.length < m) (x : T) :
    Holds (Function.update data ((r + l.length) % m) x) m r (l ++ [x]) := by
  intro i y hy
  rcases Nat.lt_trichotomy i l.length with hi | rfl | hi
  · rw [List.getElem?_append_left hi] at hy
    have hne : (r + i) % m ≠ (r + l.length) % m := by
      intro he
      have := slot_inj (r := r) (by omega) (by omega) (by omega) (by omega) he
      omega
    rw [Function.update_of_ne hne]
    exact h i y hy
  · simp only [List.getElem?_concat_length, Option.some.injEq] at hy
    rw [Function.update_self, hy]
  · rw [List.getElem?_eq_none (by simp; omega)] at hy
    cases hy

end Backend
