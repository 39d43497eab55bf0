import Backend.BitMap.Model
import Mathlib.Data.List.Induction

/-!
# `BitMap` is an exact bit array (`base/dsalgo/bitmap.cc`)

* `BitMap.bitAt`: the bit of an index; `BitMap.Sized`: `m_size` after `Init(size)`;
* **`BitMap.Sized.rejects_eq_false_iff`**: the guard, whose product wraps around for the largest sizes;
* `BitMap.Sized.set`, `BitMap.Sized.clear`, `BitMap.Sized.get`, `BitMap.bitAt_reset`: the calls;
* `lastSet`, **`bitMap_exact`**: every sequence of calls.
-/

set_option autoImplicit false

namespace Backend.Bits

open Function

/-! ## Words and bits -/

theorem toNat_shift (index : Word) : (index >>> 5).toNat = index.toNat / 32 := by
  rw [BitVec.toNat_ushiftRight, Nat.shiftRight_eq_div_pow]

theorem toNat_mask (index : Word) : (index &&& 0x1F).toNat = index.toNat % 32 := by
  rw [BitVec.toNat_and]
  exact Nat.and_two_pow_sub_one_eq_mod index.toNat 5

theorem bit_eq (index : Word) : bit index = BitVec.twoPow 32 (index.toNat % 32) := by
  rw [bit, BitVec.shiftLeft_eq', toNat_mask]
  rfl

theorem and_bit_shift (w index : Word) :
    (w &&& bit index) >>> (index &&& 0x1F) = if w.getLsbD (index.toNat % 32) then 1 else 0 := by
  rw [bit_eq, BitVec.and_twoPow, BitVec.ushiftRight_eq', toNat_mask]
  split_ifs with h
  · apply BitVec.eq_of_getLsbD_eq
    intro i hi
    have hlt : index.toNat % 32 < 32 := Nat.mod_lt _ (by decide)
    rw [BitVec.getLsbD_ushiftRight, BitVec.getLsbD_twoPow]
    by_cases h0 : i = 0
    · subst h0
      simp [hlt]
    · simp [BitVec.getLsbD_one, h0]
  · exact BitVec.zero_ushiftRight

theorem index_ext {i j : Word} (hd : i.toNat / 32 = j.toNat / 32) (hm : i.toNat % 32 = j.toNat % 32) : i = j := by
  apply BitVec.eq_of_toNat_eq
  omega

/-- The bit of an index. -/
def BitMap.bitAt (b : BitMap) (index : Word) : Bool := (b.buffer (index.toNat / 32)).getLsbD (index.toNat % 32)

/-- `m_size` after `Init(size)`. -/
def BitMap.Sized (size : Word) (b : BitMap) : Prop := b.size = size / 32 + 1

theorem BitMap.sized_init (buffer : ℕ → Word) (size : Word) : (BitMap.init buffer size).Sized size := rfl

theorem toNat_size (size : Word) : (size / 32 + 1).toNat = size.toNat / 32 + 1 := by
  have := size.isLt
  rw [BitVec.toNat_add, BitVec.toNat_udiv]
  exact Nat.mod_eq_of_lt (by simp; omega)

/-- The product of the guard wraps around to `0` when every index is in range. -/
theorem toNat_last (size : Word) : ((size / 32 + 1) * 32 - 1 : Word).toNat = 32 * (size.toNat / 32 + 1) - 1 := by
  have := size.isLt
  have hs := toNat_size size
  rw [BitVec.toNat_sub, BitVec.toNat_mul, hs]
  simp
  omega

section Calls

variable {b : BitMap} {size index : Word}

/-- **The guard lets through the indices of the words.** -/
theorem BitMap.Sized.rejects_eq_false_iff (h : b.Sized size) :
    b.rejects index = false ↔ index.toNat < 32 * (size.toNat / 32 + 1) := by
  rw [BitMap.rejects, h, decide_eq_false_iff_not, gt_iff_lt, BitVec.lt_def, toNat_last]
  omega

theorem BitMap.Sized.word_lt (h : b.Sized size) (hr : b.rejects index = false) :
    (index >>> 5).toNat < b.size.toNat := by
  rw [h.rejects_eq_false_iff] at hr
  rw [h, toNat_size, toNat_shift]
  omega

theorem BitMap.Sized.word (h : b.Sized size) (hr : b.rejects index = false) :
    b.word index = some (b.buffer (index.toNat / 32)) := by
  rw [BitMap.word, if_pos (h.word_lt hr), toNat_shift]

theorem BitMap.bitAt_write (b : BitMap) (index : Word) {w : Word} {v : Bool}
    (hw : ∀ k, k < 32 → w.getLsbD k = if k = index.toNat % 32 then v else
      (b.buffer (index.toNat / 32)).getLsbD k) (j : Word) :
    (b.write index w).bitAt j = if j = index then v else b.bitAt j := by
  simp only [BitMap.bitAt, BitMap.write, toNat_shift]
  by_cases hd : j.toNat / 32 = index.toNat / 32
  · rw [hd, update_self, hw _ (Nat.mod_lt _ (by decide))]
    by_cases hm : j.toNat % 32 = index.toNat % 32
    · rw [if_pos hm, if_pos (index_ext hd hm)]
    · rw [if_neg hm, if_neg (fun h => hm (by rw [h]))]
  · rw [update_of_ne hd, if_neg (fun h => hd (by rw [h]))]

theorem BitMap.Sized.set (h : b.Sized size) (hr : b.rejects index = false) :
    ∃ b', b.set index = some (true, b') ∧ b'.Sized size ∧
      ∀ j, b'.bitAt j = if j = index then true else b.bitAt j := by
  refine ⟨b.write index (b.buffer (index.toNat / 32) ||| bit index), ?_, h, b.bitAt_write index ?_⟩
  · rw [BitMap.set, hr, h.word hr]
    rfl
  · intro k hk
    rw [bit_eq, BitVec.getLsbD_or, BitVec.getLsbD_twoPow]
    by_cases hki : k = index.toNat % 32
    · simp [hki, Nat.mod_lt]
    · simp [hki, Ne.symm hki]

theorem BitMap.Sized.clear (h : b.Sized size) (hr : b.rejects index = false) :
    ∃ b', b.clear index = some (true, b') ∧ b'.Sized size ∧
      ∀ j, b'.bitAt j = if j = index then false else b.bitAt j := by
  refine ⟨b.write index (b.buffer (index.toNat / 32) &&& ~~~ bit index), ?_, h, b.bitAt_write index ?_⟩
  · rw [BitMap.clear, hr, h.word hr]
    rfl
  · intro k hk
    rw [bit_eq, BitVec.getLsbD_and, BitVec.getLsbD_not, BitVec.getLsbD_twoPow]
    by_cases hki : k = index.toNat % 32
    · simp [hki, Nat.mod_lt]
    · simp [hki, Ne.symm hki, hk]

theorem BitMap.Sized.get (h : b.Sized size) (hr : b.rejects index = false) :
    b.get index = some (if b.bitAt index then 1 else 0) := by
  rw [BitMap.get, hr, h.word hr]
  simp only [Bool.false_eq_true, if_false, Option.bind_eq_bind, Option.bind_some, and_bit_shift]
  rw [BitMap.bitAt]
  split_ifs <;> rfl

theorem BitMap.rejected (hr : b.rejects index = true) :
    b.set index = some (false, b) ∧ b.clear index = some (false, b) ∧ b.get index = some (-1) := by
  refine ⟨?_, ?_, ?_⟩
  · rw [BitMap.set, if_pos hr]
  · rw [BitMap.clear, if_pos hr]
  · rw [BitMap.get, if_pos hr]

theorem BitMap.Sized.put (h : b.Sized size) (index : Word) (v : Bool) :
    ∃ b', (if v then b.set index else b.clear index) = some (!b.rejects index, b') ∧ b'.Sized size ∧
      (b.rejects index = true → b' = b) ∧
      ∀ j, b.rejects j = false → b'.bitAt j = if j = index then v else b.bitAt j := by
  cases hr : b.rejects index with
  | true =>
    refine ⟨b, ?_, h, fun _ => rfl, fun j hj => ?_⟩
    · cases v
      · exact (rejected hr).2.1
      · exact (rejected hr).1
    · have hne : j ≠ index := fun he => by
        rw [he, hr] at hj
        cases hj
      rw [if_neg hne]
  | false =>
    cases v with
    | true =>
      obtain ⟨b', he, hs, hb⟩ := h.set hr
      exact ⟨b', he, hs, Bool.noConfusion, fun j _ => hb j⟩
    | false =>
      obtain ⟨b', he, hs, hb⟩ := h.clear hr
      exact ⟨b', he, hs, Bool.noConfusion, fun j _ => hb j⟩

theorem BitMap.Sized.bitAt_reset (h : b.Sized size) (hr : b.rejects index = false) :
    b.reset.bitAt index = false := by
  have hlt := h.word_lt hr
  rw [toNat_shift] at hlt
  simp [BitMap.bitAt, BitMap.reset, hlt]

theorem BitMap.bitAt_init {buffer : ℕ → Word} (hr : (BitMap.init buffer size).rejects index = false) :
    (BitMap.init buffer size).bitAt index = false :=
  BitMap.Sized.bitAt_reset (b := ⟨buffer, size / 32 + 1⟩) rfl hr

end Calls

/-! ## Sequences of calls -/

/-- The call writes the bit of `index`. -/
def BitMap.Op.affects (index : Word) : BitMap.Op → Bool
  | .set i => index == i
  | .clear i => index == i
  | .reset => true
  | .get _ => false

/-- The call is a `Set`. -/
def BitMap.Op.isSet : BitMap.Op → Bool
  | .set _ => true
  | _ => false

/-- The last call that affects the bit of `index` is a `Set`. -/
def lastSet (ops : List BitMap.Op) (index : Word) : Bool :=
  match (ops.filter (BitMap.Op.affects index)).getLast? with
  | some op => op.isSet
  | none => false

theorem lastSet_append (ops : List BitMap.Op) (op : BitMap.Op) (index : Word) :
    lastSet (ops ++ [op]) index = if op.affects index then op.isSet else lastSet ops index := by
  rw [lastSet, List.filter_append]
  split_ifs with h
  · simp [h]
  · simp [h, lastSet]

theorem BitMap.exec_append (b : BitMap) (ops : List BitMap.Op) (op : BitMap.Op) :
    b.exec (ops ++ [op]) = (b.exec ops).bind fun b => b.step op := by
  induction ops generalizing b with
  | nil => simp [BitMap.exec]
  | cons o ops ih =>
    rw [List.cons_append, BitMap.exec, BitMap.exec, Option.bind_assoc]
    congr 1
    funext b'
    exact ih b'

theorem BitMap.Sized.step {b : BitMap} {size : Word} (h : b.Sized size) (op : BitMap.Op) :
    ∃ b', b.step op = some b' ∧ b'.Sized size ∧ ∀ index, b.rejects index = false →
      b'.bitAt index = if op.affects index then op.isSet else b.bitAt index := by
  cases op with
  | set i =>
    obtain ⟨b', he, hs, -, hb⟩ := h.put i true
    refine ⟨b', ?_, hs, fun index hi => ?_⟩
    · rw [if_pos rfl] at he
      rw [BitMap.step, he]
      rfl
    · simp [hb index hi, BitMap.Op.affects, BitMap.Op.isSet]
  | clear i =>
    obtain ⟨b', he, hs, -, hb⟩ := h.put i false
    refine ⟨b', ?_, hs, fun index hi => ?_⟩
    · rw [if_neg Bool.false_ne_true] at he
      rw [BitMap.step, he]
      rfl
    · simp [hb index hi, BitMap.Op.affects, BitMap.Op.isSet]
  | reset => exact ⟨b.reset, rfl, h, fun index hi => h.bitAt_reset hi⟩
  | get i =>
    refine ⟨b, ?_, h, fun index _ => rfl⟩
    cases hr : b.rejects i with
    | true =>
      rw [BitMap.step, (rejected hr).2.2]
      rfl
    | false =>
      rw [BitMap.step, h.get hr]
      rfl

theorem BitMap.Sized.rejects_eq {b b' : BitMap} {size : Word} (h : b.Sized size) (h' : b'.Sized size) :
    b'.rejects = b.rejects := by
  funext index
  rw [BitMap.rejects, BitMap.rejects, h, h']

theorem exec_spec (buffer : ℕ → Word) (size : Word) (ops : List BitMap.Op) :
    ∃ b, (BitMap.init buffer size).exec ops = some b ∧ b.Sized size ∧
      ∀ index, b.rejects index = false → b.bitAt index = lastSet ops index := by
  induction ops using List.reverseRecOn with
  | nil => exact ⟨_, rfl, BitMap.sized_init buffer size, fun index hi => BitMap.bitAt_init hi⟩
  | append_singleton ops op ih =>
    obtain ⟨b, he, hs, hb⟩ := ih
    obtain ⟨b', he', hs', hb'⟩ := hs.step op
    refine ⟨b', ?_, hs', fun index hi => ?_⟩
    · rw [BitMap.exec_append, he]
      exact he'
    · rw [hs.rejects_eq hs'] at hi
      rw [hb' index hi, lastSet_append, hb index hi]

/-- **`BitMap` is an exact bit array for every size**: no call accesses a word outside `m_buffer`, an index is accepted
exactly when it is below `32 * (size / 32 + 1)`, a rejected call changes nothing, and `Get` tells what the last call
that affects the index was. -/
theorem bitMap_exact (buffer : ℕ → Word) (size : Word) (ops : List BitMap.Op) :
    ∃ b, (BitMap.init buffer size).exec ops = some b ∧ ∀ index : Word,
      (b.rejects index = false ↔ index.toNat < 32 * (size.toNat / 32 + 1)) ∧
      (b.rejects index = false → (index >>> 5).toNat < b.size.toNat ∧
        (∃ b', b.set index = some (true, b')) ∧ (∃ b', b.clear index = some (true, b')) ∧
        b.get index = some (if lastSet ops index then 1 else 0)) ∧
      (b.rejects index = true →
        b.set index = some (false, b) ∧ b.clear index = some (false, b) ∧ b.get index = some (-1)) := by
  obtain ⟨b, he, hs, hb⟩ := exec_spec buffer size ops
  refine ⟨b, he, fun index => ⟨hs.rejects_eq_false_iff, fun hr => ⟨hs.word_lt hr, ?_, ?_, ?_⟩, BitMap.rejected⟩⟩
  · obtain ⟨b', hset, -⟩ := hs.set hr
    exact ⟨b', hset⟩
  · obtain ⟨b', hclear, -⟩ := hs.clear hr
    exact ⟨b', hclear⟩
  · rw [hs.get hr, hb index hr]

end Backend.Bits
