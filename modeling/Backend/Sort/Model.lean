import Backend.Sort.Memory

/-!
# `QSort`, `HeapSort`, `MergeSort` (`base/dsalgo/sort.cc`)

`data` is a block of elements of `each_element_size` bytes; a comparator is a function of the bytes of two
elements. Indices and products are `uint32_t` or `int32_t` as in the source.

* `scanHigh`, `scanLow`, `partition`, `quickSort`, `qSort`;
* `heapAdjust`, `buildLoop`, `extractLoop`, `heapSort`;
* `mergeLoop`, `copyLoop`, `merge`, `doMergeSort`, `mergeSort`.

`none` as the result of a function is an access outside the array or a buffer, or a loop that does not end.
-/

set_option autoImplicit false

namespace Backend.Sort

variable {size : ℕ} (c : Elem size → Elem size → ℤ)

/-- `memcpy` of an element into a buffer of `cap` bytes. -/
def hold (cap : ℤ) (x : Elem size) : Option (Elem size) := if size ≤ cap then some x else none

/-- The same, with the terminator behind the element. -/
def keep (cap : ℤ) (x : Elem size) : Option (Elem size) := if size < cap then some x else none

/-! ## `QSort` -/

/-- `while (low < high && compare(data[high], pivot) >= 0) high--;`. -/
def scanHigh (m : Block) (data : ℤ) (pivot : Elem size) (low : ℤ) : ℕ → ℤ → Option ℤ
  | 0, _ => none
  | fuel + 1, high =>
    if low < high then do
      let x ← m.load size (addr size data high)
      if c x pivot ≥ 0 then scanHigh m data pivot low fuel (u32 (high - 1)) else some high
    else some high

/-- `while (low < high && compare(data[low], pivot) <= 0) low++;`. -/
def scanLow (m : Block) (data : ℤ) (pivot : Elem size) (high : ℤ) : ℕ → ℤ → Option ℤ
  | 0, _ => none
  | fuel + 1, low =>
    if low < high then do
      let x ← m.load size (addr size data low)
      if c x pivot ≤ 0 then scanLow m data pivot high fuel (u32 (low + 1)) else some low
    else some low

/-- The outer loop of `Partition`: `low`, `high` and the array at its end. -/
def partitionLoop (data : ℤ) (pivot : Elem size) : ℕ → ℤ → ℤ → Block → Option (ℤ × ℤ × Block)
  | 0, _, _, _ => none
  | fuel + 1, low, high, m =>
    if low < high then do
      let high ← scanHigh c m data pivot low (fuel + 1) high
      let m ← m.store (addr size data low) (← m.load size (addr size data high))
      let low ← scanLow c m data pivot high (fuel + 1) low
      let m ← m.store (addr size data high) (← m.load size (addr size data low))
      partitionLoop data pivot fuel low high m
    else some (low, high, m)

/-- `Partition`; `cap` is the size of the buffer for the pivot. -/
def partition (cap data low high : ℤ) (m : Block) : Option (ℤ × Block) := do
  let pivot ← keep cap (← m.load size data)
  let (low, _, m) ← partitionLoop c data pivot ((high - low).toNat + 1) low high m
  let m ← m.store (addr size data low) pivot
  some (low, m)

/-- `QuickSort`; `fuel` bounds the depth of the recursion. -/
def quickSort (cap : ℤ) : ℕ → ℤ → ℤ → Block → Option Block
  | 0, _, _, _ => none
  | fuel + 1, data, elementNum, m =>
    if elementNum ≤ 1 then some m
    else do
      let (pivot, m) ← partition c cap data 0 (u32 (elementNum - 1)) m
      let m ← quickSort cap fuel data pivot m
      quickSort cap fuel (addr size data (u32 (pivot + 1))) (u32 (elementNum - pivot - 1)) m

/-- `QSort`. -/
def qSort (elementNum : ℤ) (m : Block) : Option Block :=
  quickSort c (u32 (size + 1)) (elementNum.toNat + 1) 0 elementNum m

/-! ## `HeapSort` -/

/-- `if (i < end && compare(data[i], data[i + 1]) < 0) i++;`. -/
def largerChild (m : Block) (last i : ℤ) : Option ℤ :=
  if i < last then do
    let x ← m.load size (addr size 0 i)
    let y ← m.load size (addr size 0 (i32 (i + 1)))
    if c x y < 0 then some (i32 (i + 1)) else some i
  else some i

/-- The loop of `HeapAdjust`, with `ele` in the buffer: `begin` and the array at its end. -/
def siftLoop (ele : Elem size) (last : ℤ) : ℕ → ℤ → ℤ → Block → Option (ℤ × Block)
  | 0, _, _, _ => none
  | fuel + 1, first, i, m =>
    if i ≤ last then do
      let i ← largerChild c m last i
      let y ← m.load size (addr size 0 i)
      if c ele y ≥ 0 then some (first, m)
      else
        let m ← m.store (addr size 0 first) y
        siftLoop ele last fuel i (i32 (i32 (i * 2) + 1)) m
    else some (first, m)

/-- `HeapAdjust(data, first, last)`. -/
def heapAdjust (cap first last : ℤ) (m : Block) : Option Block := do
  let ele ← keep cap (← m.load size (addr size 0 first))
  let (hole, m) ← siftLoop c ele last (last.toNat + 2) first (i32 (i32 (first * 2) + 1)) m
  if hole ≠ first then m.store (addr size 0 hole) ele else some m

/-- The first loop of `HeapSort`. -/
def buildLoop (cap maxIdx : ℤ) : ℕ → ℤ → Block → Option Block
  | 0, _, _ => none
  | fuel + 1, i, m =>
    if i ≥ 0 then do
      let m ← heapAdjust c cap i maxIdx m
      buildLoop cap maxIdx fuel (i - 1) m
    else some m

/-- The second loop of `HeapSort`: `data[i]` and `data[0]` are swapped through the buffer. -/
def extractLoop (cap : ℤ) : ℕ → ℤ → Block → Option Block
  | 0, _, _ => none
  | fuel + 1, i, m =>
    if i > 0 then do
      let ele ← hold cap (← m.load size (addr size 0 i))
      let m ← m.store (addr size 0 i) (← m.load size 0)
      let m ← m.store 0 ele
      let m ← heapAdjust c cap 0 (i - 1) m
      extractLoop cap fuel (i - 1) m
    else some m

/-- `HeapSort`. -/
def heapSort (elementNum : ℤ) (m : Block) : Option Block := do
  let maxIdx := i32 (elementNum - 1)
  let m ← buildLoop c (u32 (size + 1)) maxIdx (elementNum.toNat + 1) ((i32 (maxIdx - 1)).tdiv 2) m
  extractLoop c (u32 (size + 1)) (elementNum.toNat + 1) maxIdx m

/-! ## `MergeSort` -/

/-- `while (i <= mid_idx && j <= high_idx)`: `i`, `j`, `k` and the buffer at its end. -/
def mergeLoop (m : Block) (mid high : ℤ) : ℕ → ℤ → ℤ → ℤ → Block → Option (ℤ × ℤ × ℤ × Block)
  | 0, _, _, _, _ => none
  | fuel + 1, i, j, k, buf =>
    if i ≤ mid ∧ j ≤ high then do
      let x ← m.load size (addr size 0 i)
      let y ← m.load size (addr size 0 j)
      if c x y < 0 then
        let buf ← buf.store (addr size 0 k) x
        mergeLoop m mid high fuel (i32 (i + 1)) j (i32 (k + 1)) buf
      else
        let buf ← buf.store (addr size 0 k) y
        mergeLoop m mid high fuel i (i32 (j + 1)) (i32 (k + 1)) buf
    else some (i, j, k, buf)

/-- `while (i <= last)`: the elements up to `last` are copied to the buffer. -/
def copyLoop (size : ℕ) (m : Block) (last : ℤ) : ℕ → ℤ → ℤ → Block → Option (ℤ × Block)
  | 0, _, _, _ => none
  | fuel + 1, i, k, buf =>
    if i ≤ last then do
      let x ← m.load size (addr size 0 i)
      let buf ← buf.store (addr size 0 k) x
      copyLoop size m last fuel (i32 (i + 1)) (i32 (k + 1)) buf
    else some (k, buf)

/-- `Merge`: the array and the buffer. -/
def merge (low mid high : ℤ) (m buf : Block) : Option (Block × Block) := do
  let fuel := (high - low).toNat + 2
  let (i, j, k, buf) ← mergeLoop c m mid high fuel low (i32 (mid + 1)) 0 buf
  let (k, buf) ← copyLoop size m mid fuel i k buf
  let (k, buf) ← copyLoop size m high fuel j k buf
  let m ← m.memcpy (addr size 0 low) buf (u32 (k * size))
  some (m, buf)

/-- `DoMergeSort`; `fuel` bounds the depth of the recursion. -/
def doMergeSort : ℕ → ℤ → ℤ → Block → Block → Option (Block × Block)
  | 0, _, _, _, _ => none
  | fuel + 1, low, high, m, buf =>
    if low < high then do
      let mid := (i32 (low + high)).tdiv 2
      let (m, buf) ← doMergeSort fuel low mid m buf
      let (m, buf) ← doMergeSort fuel (i32 (mid + 1)) high m buf
      merge c low mid high m buf
    else some (m, buf)

/-- `MergeSort`, with what the buffer holds when it is allocated. -/
def mergeSort (elementNum : ℤ) (m : Block) (buf : ℤ → UInt8) : Option Block := do
  let (m, _) ← doMergeSort c (elementNum.toNat + 1) 0 (i32 (elementNum - 1)) m
    ⟨u32 (u32 (elementNum * size) + 1), buf⟩
  some m

end Backend.Sort
