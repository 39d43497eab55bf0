import Mathlib.Data.Int.Notation
import Mathlib.Data.Nat.Notation
import Mathlib.Logic.Function.Basic

/-!
# `BitMap` and `NBitMap` (`base/dsalgo/bitmap.cc`, `base/dsalgo/nbitmap.cc`)

* `BitMap`, `BitMap.init`, `BitMap.reset`, `BitMap.set`, `BitMap.clear`, `BitMap.get`;
* `BitMap.Op`, `BitMap.exec`: calls after `Init`;
* `NBitMap`, `NBitMap.init`, `NBitMap.set`, `NBitMap.clear`, `NBitMap.get`: `bit_num` bit maps, one for each bit of
  a value;
* `NBitMap.Op`, `NBitMap.exec`: calls after `Init`, with what they return.

A `uint32_t` is a `BitVec 32`. `none` as the result of an operation is an access outside `m_buffer`.
-/

set_option autoImplicit false

namespace Backend.Bits

open Function

/-- A `uint32_t`. -/
abbrev Word := BitVec 32

/-! ## `BitMap` -/

/-- The fields of the object; the words in use are those below `m_size`. -/
structure BitMap where
  buffer : ℕ → Word
  size : Word

/-- `memset(m_buffer, 0x0, m_size * sizeof(uint32_t))`; the product is a `size_t`. -/
def BitMap.reset (b : BitMap) : BitMap :=
  { b with buffer := fun i => if i < b.size.toNat then 0 else b.buffer i }

/-- `Init(size)`; the new `m_buffer` holds any words. -/
def BitMap.init (buffer : ℕ → Word) (size : Word) : BitMap :=
  BitMap.reset { buffer := buffer, size := size / 32 + 1 }

/-- The guard `index > (m_size * BITSPERWORD - 1)`. -/
def BitMap.rejects (b : BitMap) (index : Word) : Bool := decide (index > b.size * 32 - 1)

/-- `1 << (index & MASK)` as `uint32_t`. -/
def bit (index : Word) : Word := 1#32 <<< (index &&& 0x1F)

/-- The word `m_buffer[index >> SHIFT]`. -/
def BitMap.word (b : BitMap) (index : Word) : Option Word :=
  if (index >>> 5).toNat < b.size.toNat then some (b.buffer (index >>> 5).toNat) else none

/-- An assignment to `m_buffer[index >> SHIFT]`. -/
def BitMap.write (b : BitMap) (index w : Word) : BitMap :=
  { b with buffer := update b.buffer (index >>> 5).toNat w }

/-- `Set(index)`. -/
def BitMap.set (b : BitMap) (index : Word) : Option (Bool × BitMap) :=
  if b.rejects index then some (false, b)
  else do
    let w ← b.word index
    some (true, b.write index (w ||| bit index))

/-- `Clear(index)`. -/
def BitMap.clear (b : BitMap) (index : Word) : Option (Bool × BitMap) :=
  if b.rejects index then some (false, b)
  else do
    let w ← b.word index
    some (true, b.write index (w &&& ~~~ bit index))

/-- `Get(index)`. -/
def BitMap.get (b : BitMap) (index : Word) : Option ℤ :=
  if b.rejects index then some (-1)
  else do
    let w ← b.word index
    some ((w &&& bit index) >>> (index &&& 0x1F)).toInt

/-- The calls. -/
inductive BitMap.Op where
  | set (index : Word)
  | clear (index : Word)
  | reset
  | get (index : Word)

/-- What a call does to the object. -/
def BitMap.step (b : BitMap) : BitMap.Op → Option BitMap
  | .set index => (b.set index).map Prod.snd
  | .clear index => (b.clear index).map Prod.snd
  | .reset => some b.reset
  | .get index => (b.get index).map fun _ => b

/-- Calls one after the other. -/
def BitMap.exec : BitMap → List BitMap.Op → Option BitMap
  | b, [] => some b
  | b, op :: ops => (b.step op).bind fun b => b.exec ops

/-! ## `NBitMap` -/

/-- The fields of the object; the bit maps in use are those below `m_bit_num`. -/
structure NBitMap where
  bitmap : ℕ → BitMap
  bitNum : Word
  maxBitValue : Word

/-- The loop of `Init` from `i` on, with `n` rounds left. -/
def NBitMap.initLoop (buffer : ℕ → ℕ → Word) (size : Word) : ℕ → ℕ → Word → NBitMap → NBitMap
  | 0, _, _, m => m
  | n + 1, i, temp, m =>
    initLoop buffer size n (i + 1) (temp <<< 1)
      { m with bitmap := update m.bitmap i (BitMap.init (buffer i) size)
               maxBitValue := m.maxBitValue + temp }

/-- `Init(size, bit_num)` of a new object; `none` is the return value `false`. -/
def NBitMap.init (bitmap : ℕ → BitMap) (buffer : ℕ → ℕ → Word) (size bitNum : Word) : Option NBitMap :=
  if bitNum ≤ 0 then none
  else some (initLoop buffer size bitNum.toNat 0 1 { bitmap := bitmap, bitNum := bitNum, maxBitValue := 0 })

/-- The loop of `Set` from `i` on, with `n` rounds left; what `BitMap::Set` and `BitMap::Clear` return is dropped. -/
def NBitMap.setLoop (index value : Word) : ℕ → ℕ → Word → NBitMap → Option NBitMap
  | 0, _, _, m => some m
  | n + 1, i, temp, m =>
    (if temp &&& value ≠ 0 then (m.bitmap i).set index else (m.bitmap i).clear index).bind fun r =>
      setLoop index value n (i + 1) (temp <<< 1) { m with bitmap := update m.bitmap i r.2 }

/-- `Set(index, value)`. -/
def NBitMap.set (m : NBitMap) (index value : Word) : Option (Bool × NBitMap) :=
  if value > m.maxBitValue then some (false, m)
  else do
    let m ← setLoop index value m.bitNum.toNat 0 1 m
    some (true, m)

/-- The loop of `Clear` from `i` on, with `n` rounds left. -/
def NBitMap.clearLoop (index : Word) : ℕ → ℕ → NBitMap → Option NBitMap
  | 0, _, m => some m
  | n + 1, i, m => do
    let r ← (m.bitmap i).clear index
    clearLoop index n (i + 1) { m with bitmap := update m.bitmap i r.2 }

/-- `Clear(index)`. -/
def NBitMap.clear (m : NBitMap) (index : Word) : Option (Bool × NBitMap) := do
  let m ← clearLoop index m.bitNum.toNat 0 m
  some (true, m)

/-- The loop of `Get` from `i` on, with `n` rounds left. -/
def NBitMap.getLoop (m : NBitMap) (index : Word) : ℕ → ℕ → Word → Word → Option Word
  | 0, _, _, res => some res
  | n + 1, i, temp, res => do
    let r ← (m.bitmap i).get index
    m.getLoop index n (i + 1) (temp <<< 1) (res + BitVec.ofInt 32 r * temp)

/-- `Get(index)`; the `int32_t` it returns as `uint32_t`. -/
def NBitMap.get (m : NBitMap) (index : Word) : Option Word := m.getLoop index m.bitNum.toNat 0 1 0

/-- The calls. -/
inductive NBitMap.Op where
  | set (index value : Word)
  | clear (index : Word)

/-- The index of a call. -/
def NBitMap.Op.index : NBitMap.Op → Word
  | .set index _ => index
  | .clear index => index

/-- What a call returns and does to the object. -/
def NBitMap.step (m : NBitMap) : NBitMap.Op → Option (Bool × NBitMap)
  | .set index value => m.set index value
  | .clear index => m.clear index

/-- Calls one after the other, with what each one returns. -/
def NBitMap.exec : NBitMap → List NBitMap.Op → Option (List (NBitMap.Op × Bool) × NBitMap)
  | m, [] => some ([], m)
  | m, op :: ops => do
    let (r, m) ← m.step op
    let (log, m) ← m.exec ops
    some ((op, r) :: log, m)

end Backend.Bits
