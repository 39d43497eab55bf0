import Mathlib.Data.List.Infix
import Mathlib.Data.List.Basic

/-!
# Iterated compression of blocks

A list is cut into blocks of `n` elements and a function is folded over them; what does not fill a block is kept.

* `blocks`, `rest`: the whole blocks and what is left; `flatten_blocks`; `rest_append`, **`foldl_blocks_append`**: more
  elements later;
* **`exists_collision`**: two lists of blocks with the same result, none of them a suffix of the other, have a state and a
  block each that the function takes to the same state.
-/

set_option autoImplicit false

namespace Backend

variable {α β σ : Type*}

/-! ## Blocks of a list -/

/-- The whole blocks of `n` elements. -/
def blocks (n : ℕ) (l : List α) : List (List α) := (List.range (l.length / n)).map fun i => (l.drop (n * i)).take n

/-- What the whole blocks leave. -/
def rest (n : ℕ) (l : List α) : List α := l.drop (n * (l.length / n))

variable {n : ℕ} {l m : List α}

theorem length_rest : (rest n l).length = l.length % n := by
  rw [rest, List.length_drop, Nat.mod_eq_sub]

theorem blocks_of_lt (h : l.length < n) : blocks n l = [] := by
  rw [blocks, Nat.div_eq_of_lt h]
  rfl

theorem rest_of_lt (h : l.length < n) : rest n l = l := by
  rw [rest, Nat.div_eq_of_lt h, Nat.mul_zero, List.drop_zero]

theorem blocks_cons (hn : 0 < n) (h : n ≤ l.length) : blocks n l = l.take n :: blocks n (l.drop n) := by
  have hdiv : l.length / n = (l.length - n) / n + 1 := by
    rw [Nat.div_eq l.length n, if_pos ⟨hn, h⟩]
  rw [blocks, blocks, List.length_drop, hdiv, List.range_succ_eq_map, List.map_cons, List.map_map, Nat.mul_zero,
    List.drop_zero]
  congr 2
  funext i
  rw [Function.comp_apply, List.drop_drop, Nat.mul_succ, Nat.add_comm]

theorem blocks_single (hn : 0 < n) (h : l.length = n) : blocks n l = [l] := by
  rw [blocks_cons hn h.ge, ← h, List.take_length, List.drop_length, blocks_of_lt (h ▸ hn)]

theorem blocks_append_of_dvd (hn : 0 < n) (h : n ∣ l.length) (m : List α) : blocks n (l ++ m) = blocks n l ++ blocks n m := by
  obtain ⟨k, hk⟩ := h
  induction k generalizing l with
  | zero =>
    rw [Nat.mul_zero, List.length_eq_zero_iff] at hk
    rw [hk, blocks_of_lt (l := []) hn]
    rfl
  | succ k ih =>
    have hle : n ≤ l.length := by
      rw [hk, Nat.mul_succ]
      omega
    rw [blocks_cons (l := l ++ m) hn (by rw [List.length_append]; omega), blocks_cons (l := l) hn hle,
      List.take_append_of_le_length hle, List.drop_append_of_le_length hle, ih, List.cons_append]
    rw [List.length_drop, hk, Nat.mul_succ, Nat.add_sub_cancel]

theorem exists_eq_append_rest (n : ℕ) (l : List α) : ∃ l', l = l' ++ rest n l ∧ n ∣ l'.length ∧ blocks n l = blocks n l' := by
  refine ⟨l.take (n * (l.length / n)), (List.take_append_drop _ l).symm, ?_, ?_⟩
  · rw [List.length_take, Nat.min_eq_left (Nat.mul_div_le _ _)]
    exact Nat.dvd_mul_right _ _
  · rcases Nat.eq_zero_or_pos n with rfl | hn
    · simp [blocks]
    · rw [blocks, blocks, List.length_take, Nat.min_eq_left (Nat.mul_div_le _ _), Nat.mul_div_cancel_left _ hn]
      refine List.map_congr_left fun i hi => ?_
      have hi : n * (i + 1) ≤ n * (l.length / n) := Nat.mul_le_mul_left n (List.mem_range.mp hi)
      rw [Nat.mul_succ] at hi
      rw [List.drop_take, List.take_take, Nat.min_eq_left (by omega)]

theorem blocks_append (hn : 0 < n) (l m : List α) : blocks n (l ++ m) = blocks n l ++ blocks n (rest n l ++ m) := by
  obtain ⟨l', hl, hdvd, hb⟩ := exists_eq_append_rest n l
  conv_lhs => rw [hl]
  rw [List.append_assoc, blocks_append_of_dvd hn hdvd, hb]

theorem rest_append_of_dvd (hn : 0 < n) (h : n ∣ l.length) (m : List α) : rest n (l ++ m) = rest n m := by
  obtain ⟨k, hk⟩ := h
  rw [rest, rest, List.length_append, hk, Nat.mul_add_div hn, Nat.mul_add, ← hk, List.drop_append,
    List.drop_eq_nil_of_le (Nat.le_add_right _ _), Nat.add_sub_cancel_left, List.nil_append]

theorem rest_append (hn : 0 < n) (l m : List α) : rest n (l ++ m) = rest n (rest n l ++ m) := by
  obtain ⟨l', hl, hdvd, -⟩ := exists_eq_append_rest n l
  conv_lhs => rw [hl]
  rw [List.append_assoc, rest_append_of_dvd hn hdvd]

/-- **More elements later**: the fold goes on with what was left. -/
theorem foldl_blocks_append (hn : 0 < n) (f : σ → List α → σ) (s : σ) (l m : List α) :
    (blocks n (l ++ m)).foldl f s = (blocks n (rest n l ++ m)).foldl f ((blocks n l).foldl f s) := by
  rw [blocks_append hn, List.foldl_append]

theorem flatten_blocks (hn : 0 < n) (h : n ∣ l.length) : (blocks n l).flatten = l := by
  obtain ⟨k, hk⟩ := h
  induction k generalizing l with
  | zero =>
    rw [Nat.mul_zero, List.length_eq_zero_iff] at hk
    rw [hk, blocks_of_lt (l := []) hn]
    rfl
  | succ k ih =>
    have hle : n ≤ l.length := by
      rw [hk, Nat.mul_succ]
      omega
    rw [blocks_cons hn hle, List.flatten_cons, ih, List.take_append_drop]
    rw [List.length_drop, hk, Nat.mul_succ, Nat.add_sub_cancel]

theorem length_of_mem_blocks {b : List α} (h : b ∈ blocks n l) : b.length = n := by
  obtain ⟨i, hi, rfl⟩ := List.mem_map.mp h
  have hle : n * (i + 1) ≤ n * (l.length / n) := Nat.mul_le_mul_left n (List.mem_range.mp hi)
  have := Nat.mul_div_le l.length n
  rw [Nat.mul_succ] at hle
  rw [List.length_take, List.length_drop]
  omega

/-! ## Collisions -/

theorem suffix_concat {X Y : List β} (h : X <:+ Y) (b : β) : X ++ [b] <:+ Y ++ [b] := by
  obtain ⟨t, rfl⟩ := h
  exact ⟨t, (List.append_assoc t X [b]).symm⟩

/-- **Two lists of blocks with the same result**: if none of them is a suffix of the other one, there is a state and a
block of each, not the same, that the function takes to one state. -/
theorem exists_collision {f : σ → β → σ} {s : σ} {X Y : List β} (h : X.foldl f s = Y.foldl f s) (hXY : ¬ X <:+ Y)
    (hYX : ¬ Y <:+ X) : ∃ X₁ b X₂ Y₁ c Y₂, X = X₁ ++ b :: X₂ ∧ Y = Y₁ ++ c :: Y₂ ∧
      (X₁.foldl f s, b) ≠ (Y₁.foldl f s, c) ∧ f (X₁.foldl f s) b = f (Y₁.foldl f s) c := by
  induction X using List.reverseRecOn generalizing Y with
  | nil => exact absurd List.nil_suffix hXY
  | append_singleton X b ih =>
    rcases List.eq_nil_or_concat Y with rfl | ⟨Y, c, rfl⟩
    · exact absurd List.nil_suffix hYX
    · rw [List.concat_eq_append] at h hXY hYX ⊢
      rw [List.foldl_concat, List.foldl_concat] at h
      by_cases heq : (X.foldl f s, b) = (Y.foldl f s, c)
      · obtain ⟨hs, rfl⟩ := Prod.mk.inj heq
        obtain ⟨X₁, b', X₂, Y₁, c', Y₂, rfl, rfl, hne, he⟩ := ih hs
          (fun hX => hXY (suffix_concat hX b)) (fun hY => hYX (suffix_concat hY b))
        exact ⟨X₁, b', X₂ ++ [b], Y₁, c', Y₂ ++ [b], by simp, by simp, hne, he⟩
      · exact ⟨X, b, [], Y, c, [], rfl, rfl, heq, h⟩

end Backend
