import Backend.Lib.Compare
import Backend.Word
import Mathlib.Tactic.Linarith

/-!
# Memory of the sorting functions (`base/dsalgo/sort.cc`)

The functions of `sort.cc` move elements of a size that is given at run time, byte by byte or by `memcpy`.

* `Elem`, `Block`: an element, and a block of memory that is accessed within its bounds;
* `Block.load`, `Block.store`, `Block.memcpy`: accesses;
* `addr`: the address of an element, computed in `uint32_t`;
* `Block.view`: the elements of a block; **`load_view`**, **`store_view`**: the accesses to them.
-/

set_option autoImplicit false

namespace Backend.Sort

open Function

/-- An element of `size` bytes. -/
abbrev Elem (size : ℕ) := Fin size → UInt8

/-- A block of `len` bytes. Addresses count from its first byte. -/
structure Block where
  len : ℤ
  byte : ℤ → UInt8

variable {size : ℕ} {m : Block}

/-- The `k` bytes at `p` lie in the block. -/
def Block.Has (m : Block) (p k : ℤ) : Prop := 0 ≤ p ∧ p + k ≤ m.len

instance (m : Block) (p k : ℤ) : Decidable (m.Has p k) := inferInstanceAs (Decidable (_ ∧ _))

/-- The element at `p`. -/
def Block.elem (m : Block) (size : ℕ) (p : ℤ) : Elem size := fun b => m.byte (p + (b : ℕ))

/-- The block with the element `x` at `p`. -/
def Block.put (m : Block) (p : ℤ) (x : Elem size) : Block :=
  { m with byte := fun q =>
      if h : p ≤ q ∧ q < p + size then x ⟨(q - p).toNat, by omega⟩ else m.byte q }

/-- An element is read; `none` when it is not in the block. -/
def Block.load (m : Block) (size : ℕ) (p : ℤ) : Option (Elem size) :=
  if m.Has p size then some (m.elem size p) else none

/-- An element is written; `none` when it is not in the block. -/
def Block.store (m : Block) (p : ℤ) (x : Elem size) : Option Block :=
  if m.Has p size then some (m.put p x) else none

/-- `memcpy` of `k` bytes from the beginning of `src` to `p`. -/
def Block.memcpy (m : Block) (p : ℤ) (src : Block) (k : ℤ) : Option Block :=
  if m.Has p k ∧ src.Has 0 k then
    some { m with byte := fun q => if p ≤ q ∧ q < p + k then src.byte (q - p) else m.byte q }
  else none

/-- `(char*)data + i * each_element_size`, where the product is a `uint32_t`. -/
def addr (size : ℕ) (data i : ℤ) : ℤ := data + u32 (size * i)

/-- The elements of a block. -/
def Block.view (m : Block) (size : ℕ) (i : ℤ) : Elem size := m.elem size (size * i)

theorem addr_eq {b i : ℤ} (hi : 0 ≤ i) (h : size * i < 2 ^ 32) : addr size (size * b) i = size * (b + i) := by
  rw [addr, u32_of_lt (by positivity) h, mul_add]

theorem mul_add_le (size : ℕ) {i j : ℤ} (h : i < j) : (size : ℤ) * i + size ≤ size * j := by
  have hle : (size : ℤ) * (i + 1) ≤ size * j := mul_le_mul_of_nonneg_left (by omega) (by positivity)
  rw [mul_add, mul_one] at hle
  exact hle

theorem view_put (m : Block) (i : ℤ) (x : Elem size) :
    (m.put (size * i) x).view size = update (m.view size) i x := by
  funext j b
  have hb : (b : ℤ) < size := by exact_mod_cast b.isLt
  simp only [Block.view, Block.elem, Block.put]
  rcases lt_trichotomy j i with h | rfl | h
  · have := mul_add_le size h
    rw [update_of_ne h.ne, dif_neg (by omega)]
    rfl
  · rw [update_self, dif_pos (by omega)]
    congr 1
    ext
    simp
  · have := mul_add_le size h
    rw [update_of_ne h.ne', dif_neg (by omega)]
    rfl

theorem has_of_lt {n i : ℤ} (hlen : size * n ≤ m.len) (h0 : 0 ≤ i) (hi : i < n) : m.Has (size * i) size := by
  have hle := mul_add_le size hi
  exact ⟨by positivity, by omega⟩

/-- **An element of the block is read.** -/
theorem load_view {n i : ℤ} (hlen : m.len = size * n) (h0 : 0 ≤ i) (hi : i < n) :
    m.load size (size * i) = some (m.view size i) :=
  if_pos (has_of_lt hlen.ge h0 hi)

/-- **An element of the block is written.** -/
theorem store_view {n i : ℤ} (hlen : m.len = size * n) (h0 : 0 ≤ i) (hi : i < n) (x : Elem size) :
    ∃ m', m.store (size * i) x = some m' ∧ m'.len = size * n ∧ m'.view size = update (m.view size) i x :=
  ⟨m.put (size * i) x, if_pos (has_of_lt hlen.ge h0 hi), hlen, view_put m i x⟩

/-- **An element is read by its index**, in an array of less than `2 ^ 32` bytes. -/
theorem load_addr {n b i : ℤ} (hlen : m.len = size * n) (hn : size * n < 2 ^ 32) (hb : 0 ≤ b) (h0 : 0 ≤ i)
    (hi : b + i < n) : m.load size (addr size (size * b) i) = some (m.view size (b + i)) := by
  have hle : (size : ℤ) * i ≤ size * n := mul_le_mul_of_nonneg_left (by omega) (by positivity)
  rw [addr_eq h0 (by omega), load_view hlen (by omega) hi]

/-- **An element is written by its index.** -/
theorem store_addr {n b i : ℤ} (hlen : m.len = size * n) (hn : size * n < 2 ^ 32) (hb : 0 ≤ b) (h0 : 0 ≤ i)
    (hi : b + i < n) (x : Elem size) :
    ∃ m', m.store (addr size (size * b) i) x = some m' ∧ m'.len = size * n ∧
      m'.view size = update (m.view size) (b + i) x := by
  have hle : (size : ℤ) * i ≤ size * n := mul_le_mul_of_nonneg_left (by omega) (by positivity)
  rw [addr_eq h0 (by omega)]
  exact store_view hlen (by omega) hi x

theorem load_idx {n i : ℤ} (hlen : m.len = size * n) (hn : size * n < 2 ^ 32) (h0 : 0 ≤ i) (hi : i < n) :
    m.load size (addr size 0 i) = some (m.view size i) := by
  have h := load_addr hlen hn le_rfl h0 (by rwa [zero_add])
  rwa [mul_zero, zero_add] at h

theorem store_idx {n i : ℤ} (hlen : m.len = size * n) (hn : size * n < 2 ^ 32) (h0 : 0 ≤ i) (hi : i < n)
    (x : Elem size) :
    ∃ m', m.store (addr size 0 i) x = some m' ∧ m'.len = size * n ∧ m'.view size = update (m.view size) i x := by
  have h := store_addr hlen hn le_rfl h0 (by rwa [zero_add]) x
  rwa [mul_zero, zero_add] at h

theorem size_le_mul (size : ℕ) {num : ℤ} (h1 : 1 ≤ num) : (size : ℤ) ≤ size * num :=
  le_mul_of_one_le_right (by positivity) h1

theorem size_lt_cap (size : ℕ) {num : ℤ} (h1 : 1 ≤ num) (hn : size * num < 2 ^ 32 - 1) :
    (size : ℤ) < u32 (size + 1) := by
  have hle := size_le_mul size h1
  rw [u32_of_lt (by positivity) (by omega)]
  omega

theorem le_mul_size (hsize : 0 < size) {num : ℤ} (h0 : 0 ≤ num) : num ≤ size * num :=
  le_mul_of_one_le_left h0 (by exact_mod_cast hsize)

/-- The comparator of the first bytes of elements of two bytes. -/
def compareFirst (x y : Elem 2) : ℤ := (x ⟨0, Nat.zero_lt_two⟩).toNat - (y ⟨0, Nat.zero_lt_two⟩).toNat

theorem totalPreorder_compareFirst : TotalPreorder compareFirst where
  flip x y := by
    unfold compareFirst
    omega
  trans x y z := by
    unfold compareFirst
    omega

end Backend.Sort
