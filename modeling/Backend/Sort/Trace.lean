import Backend.Lib.Logged
import Backend.Sort.Model

/-!
# The offsets and indices that the sorts compute (`base/dsalgo/sort.cc`)

`QSort`, `HeapSort` and `MergeSort` once more, with a log of what they compute: the byte offset of every element that is
read or written, and every index that is computed from another one.

* `Calc`: a number as it is computed, and the number it stands for;
* `loadAt`, `storeAt`, `addrAt`, `index`: the steps that compute one;
* `scanHighLog` … `qSortLog`, `largerChildLog` … `heapSortLog`, `mergeLoopLog` … `mergeSortLog`: the functions;
* **`qSortLog_result`**, **`heapSortLog_result`**, **`mergeSortLog_result`**: without the log they are the functions of
  the model.
-/

set_option autoImplicit false

namespace Backend.Sort

/-- A number that is computed in 32 bits, and the number without a bound. -/
structure Calc where
  computed : ℤ
  ideal : ℤ

/-- The two are the same. -/
def Calc.Exact (k : Calc) : Prop := k.computed = k.ideal

/-- A run with what it computes. -/
abbrev Log := Logged Calc

open Logged

section Steps

variable {size : ℕ}

/-- `i * each_element_size`. -/
def offset (size : ℕ) (i : ℤ) : Calc := ⟨u32 (size * i), size * i⟩

/-- The element with index `i` is read. -/
def loadAt (m : Block) (size : ℕ) (data i : ℤ) : Log (Elem size) := write (offset size i) (m.load size (addr size data i))

/-- The element with index `i` is written. -/
def storeAt (m : Block) (data i : ℤ) (x : Elem size) : Log Block := write (offset size i) (m.store (addr size data i) x)

/-- The address of the element with index `i`. -/
def addrAt (size : ℕ) (data i : ℤ) : Log ℤ := write (offset size i) (some (addr size data i))

/-- An index is computed. -/
def index (computed ideal : ℤ) : Log ℤ := write ⟨computed, ideal⟩ (some computed)

end Steps

variable {size : ℕ} (c : Elem size → Elem size → ℤ)

/-! ## `QSort` -/

/-- The first loop in `Partition`. -/
def scanHighLog (m : Block) (data : ℤ) (pivot : Elem size) (low : ℤ) : ℕ → ℤ → Log ℤ
  | 0, _ => ofOption none
  | fuel + 1, high =>
    if low < high then do
      let x ← loadAt m size data high
      if c x pivot ≥ 0 then scanHighLog m data pivot low fuel (u32 (high - 1)) else pure high
    else pure high

/-- The second loop in `Partition`. -/
def scanLowLog (m : Block) (data : ℤ) (pivot : Elem size) (high : ℤ) : ℕ → ℤ → Log ℤ
  | 0, _ => ofOption none
  | fuel + 1, low =>
    if low < high then do
      let x ← loadAt m size data low
      if c x pivot ≤ 0 then scanLowLog m data pivot high fuel (u32 (low + 1)) else pure low
    else pure low

/-- The outer loop of `Partition`. -/
def partitionLoopLog (data : ℤ) (pivot : Elem size) : ℕ → ℤ → ℤ → Block → Log (ℤ × ℤ × Block)
  | 0, _, _, _ => ofOption none
  | fuel + 1, low, high, m =>
    if low < high then do
      let high ← scanHighLog c m data pivot low (fuel + 1) high
      let x ← loadAt m size data high
      let m ← storeAt m data low x
      let low ← scanLowLog c m data pivot high (fuel + 1) low
      let y ← loadAt m size data low
      let m ← storeAt m data high y
      partitionLoopLog data pivot fuel low high m
    else pure (low, high, m)

/-- `Partition`. -/
def partitionLog (cap data low high : ℤ) (m : Block) : Log (ℤ × Block) := do
  let x ← ofOption (m.load size data)
  let pivot ← ofOption (keep cap x)
  let r ← partitionLoopLog c data pivot ((high - low).toNat + 1) low high m
  let m ← storeAt r.2.2 data r.1 pivot
  pure (r.1, m)

/-- `QuickSort`. -/
def quickSortLog (cap : ℤ) : ℕ → ℤ → ℤ → Block → Log Block
  | 0, _, _, _ => ofOption none
  | fuel + 1, data, elementNum, m =>
    if elementNum ≤ 1 then pure m
    else do
      let r ← partitionLog c cap data 0 (u32 (elementNum - 1)) m
      let m ← quickSortLog cap fuel data r.1 r.2
      let next ← index (u32 (r.1 + 1)) (r.1 + 1)
      let data ← addrAt size data next
      quickSortLog cap fuel data (u32 (elementNum - r.1 - 1)) m

/-- `QSort`. -/
def qSortLog (elementNum : ℤ) (m : Block) : Log Block :=
  quickSortLog c (u32 (size + 1)) (elementNum.toNat + 1) 0 elementNum m

/-! ## `HeapSort` -/

/-- The larger one of two children. -/
def largerChildLog (m : Block) (last i : ℤ) : Log ℤ :=
  if i < last then do
    let x ← loadAt m size 0 i
    let j ← index (i32 (i + 1)) (i + 1)
    let y ← loadAt m size 0 j
    if c x y < 0 then pure j else pure i
  else pure i

/-- The loop of `HeapAdjust`. -/
def siftLoopLog (ele : Elem size) (last : ℤ) : ℕ → ℤ → ℤ → Block → Log (ℤ × Block)
  | 0, _, _, _ => ofOption none
  | fuel + 1, first, i, m =>
    if i ≤ last then do
      let i ← largerChildLog c m last i
      let y ← loadAt m size 0 i
      if c ele y ≥ 0 then pure (first, m)
      else do
        let m ← storeAt m 0 first y
        let child ← index (i32 (i32 (i * 2) + 1)) (2 * i + 1)
        siftLoopLog ele last fuel i child m
    else pure (first, m)

/-- `HeapAdjust`. -/
def heapAdjustLog (cap first last : ℤ) (m : Block) : Log Block := do
  let x ← loadAt m size 0 first
  let ele ← ofOption (keep cap x)
  let child ← index (i32 (i32 (first * 2) + 1)) (2 * first + 1)
  let r ← siftLoopLog c ele last (last.toNat + 2) first child m
  if r.1 ≠ first then storeAt r.2 0 r.1 ele else pure r.2

/-- The first loop of `HeapSort`. -/
def buildLoopLog (cap maxIdx : ℤ) : ℕ → ℤ → Block → Log Block
  | 0, _, _ => ofOption none
  | fuel + 1, i, m =>
    if i ≥ 0 then do
      let m ← heapAdjustLog c cap i maxIdx m
      buildLoopLog cap maxIdx fuel (i - 1) m
    else pure m

/-- The second loop of `HeapSort`. -/
def extractLoopLog (cap : ℤ) : ℕ → ℤ → Block → Log Block
  | 0, _, _ => ofOption none
  | fuel + 1, i, m =>
    if i > 0 then do
      let x ← loadAt m size 0 i
      let ele ← ofOption (hold cap x)
      let y ← ofOption (m.load size 0)
      let m ← storeAt m 0 i y
      let m ← ofOption (m.store 0 ele)
      let m ← heapAdjustLog c cap 0 (i - 1) m
      extractLoopLog cap fuel (i - 1) m
    else pure m

/-- `HeapSort`. -/
def heapSortLog (elementNum : ℤ) (m : Block) : Log Block := do
  let maxIdx ← index (i32 (elementNum - 1)) (elementNum - 1)
  let i ← index ((i32 (maxIdx - 1)).tdiv 2) ((elementNum - 2).tdiv 2)
  let m ← buildLoopLog c (u32 (size + 1)) maxIdx (elementNum.toNat + 1) i m
  extractLoopLog c (u32 (size + 1)) (elementNum.toNat + 1) maxIdx m

/-! ## `MergeSort` -/

/-- The first loop of `Merge`. -/
def mergeLoopLog (m : Block) (mid high : ℤ) : ℕ → ℤ → ℤ → ℤ → Block → Log (ℤ × ℤ × ℤ × Block)
  | 0, _, _, _, _ => ofOption none
  | fuel + 1, i, j, k, buf =>
    if i ≤ mid ∧ j ≤ high then do
      let x ← loadAt m size 0 i
      let y ← loadAt m size 0 j
      if c x y < 0 then do
        let buf ← storeAt buf 0 k x
        let i ← index (i32 (i + 1)) (i + 1)
        let k ← index (i32 (k + 1)) (k + 1)
        mergeLoopLog m mid high fuel i j k buf
      else do
        let buf ← storeAt buf 0 k y
        let j ← index (i32 (j + 1)) (j + 1)
        let k ← index (i32 (k + 1)) (k + 1)
        mergeLoopLog m mid high fuel i j k buf
    else pure (i, j, k, buf)

/-- The other loops of `Merge`. -/
def copyLoopLog (size : ℕ) (m : Block) (last : ℤ) : ℕ → ℤ → ℤ → Block → Log (ℤ × Block)
  | 0, _, _, _ => ofOption none
  | fuel + 1, i, k, buf =>
    if i ≤ last then do
      let x ← loadAt m size 0 i
      let buf ← storeAt buf 0 k x
      let i ← index (i32 (i + 1)) (i + 1)
      let k ← index (i32 (k + 1)) (k + 1)
      copyLoopLog size m last fuel i k buf
    else pure (k, buf)

/-- `Merge`. -/
def mergeLog (low mid high : ℤ) (m buf : Block) : Log (Block × Block) := do
  let fuel := (high - low).toNat + 2
  let j ← index (i32 (mid + 1)) (mid + 1)
  let r ← mergeLoopLog c m mid high fuel low j 0 buf
  let s ← copyLoopLog size m mid fuel r.1 r.2.2.1 r.2.2.2
  let t ← copyLoopLog size m high fuel r.2.1 s.1 s.2
  let first ← addrAt size 0 low
  let bytes ← index (u32 (t.1 * size)) (t.1 * size)
  let m ← ofOption (m.memcpy first t.2 bytes)
  pure (m, t.2)

/-- `DoMergeSort`. -/
def doMergeSortLog : ℕ → ℤ → ℤ → Block → Block → Log (Block × Block)
  | 0, _, _, _, _ => ofOption none
  | fuel + 1, low, high, m, buf =>
    if low < high then do
      let mid ← index ((i32 (low + high)).tdiv 2) ((low + high).tdiv 2)
      let r ← doMergeSortLog fuel low mid m buf
      let next ← index (i32 (mid + 1)) (mid + 1)
      let r ← doMergeSortLog fuel next high r.1 r.2
      mergeLog c low mid high r.1 r.2
    else pure (m, buf)

/-- `MergeSort`. -/
def mergeSortLog (elementNum : ℤ) (m : Block) (buf : ℤ → UInt8) : Log Block := do
  let high ← index (i32 (elementNum - 1)) (elementNum - 1)
  let r ← doMergeSortLog c (elementNum.toNat + 1) 0 high m ⟨u32 (u32 (elementNum * size) + 1), buf⟩
  pure r.1

/-! ## Without the log -/

section Results

variable {c}

@[simp] theorem result_loadAt (m : Block) (data i : ℤ) :
    (loadAt m size data i).result = m.load size (addr size data i) := rfl

@[simp] theorem result_storeAt (m : Block) (data i : ℤ) (x : Elem size) :
    (storeAt m data i x).result = m.store (addr size data i) x := rfl

@[simp] theorem result_addrAt (data i : ℤ) : (addrAt size data i).result = some (addr size data i) := rfl

@[simp] theorem result_index (computed ideal : ℤ) : (index computed ideal).result = some computed := rfl

@[simp] theorem scanHighLog_result (m : Block) (data : ℤ) (pivot : Elem size) (low : ℤ) (fuel : ℕ) (high : ℤ) :
    (scanHighLog c m data pivot low fuel high).result = scanHigh c m data pivot low fuel high := by
  induction fuel generalizing high with
  | zero => rfl
  | succ fuel ih => simp [scanHighLog, scanHigh, ih]

@[simp] theorem scanLowLog_result (m : Block) (data : ℤ) (pivot : Elem size) (high : ℤ) (fuel : ℕ) (low : ℤ) :
    (scanLowLog c m data pivot high fuel low).result = scanLow c m data pivot high fuel low := by
  induction fuel generalizing low with
  | zero => rfl
  | succ fuel ih => simp [scanLowLog, scanLow, ih]

@[simp] theorem partitionLoopLog_result (data : ℤ) (pivot : Elem size) (fuel : ℕ) (low high : ℤ) (m : Block) :
    (partitionLoopLog c data pivot fuel low high m).result = partitionLoop c data pivot fuel low high m := by
  induction fuel generalizing low high m with
  | zero => rfl
  | succ fuel ih => simp [partitionLoopLog, partitionLoop, ih]

@[simp] theorem partitionLog_result (cap data low high : ℤ) (m : Block) :
    (partitionLog c cap data low high m).result = partition c cap data low high m := by
  simp [partitionLog, partition]

theorem quickSortLog_result (cap : ℤ) (fuel : ℕ) (data elementNum : ℤ) (m : Block) :
    (quickSortLog c cap fuel data elementNum m).result = quickSort c cap fuel data elementNum m := by
  induction fuel generalizing data elementNum m with
  | zero => rfl
  | succ fuel ih => simp [quickSortLog, quickSort, ih]

/-- **`QSort`.** -/
theorem qSortLog_result (elementNum : ℤ) (m : Block) : (qSortLog c elementNum m).result = qSort c elementNum m :=
  quickSortLog_result _ _ _ _ _

@[simp] theorem largerChildLog_result (m : Block) (last i : ℤ) :
    (largerChildLog c m last i).result = largerChild c m last i := by
  simp [largerChildLog, largerChild]

@[simp] theorem siftLoopLog_result (ele : Elem size) (last : ℤ) (fuel : ℕ) (first i : ℤ) (m : Block) :
    (siftLoopLog c ele last fuel first i m).result = siftLoop c ele last fuel first i m := by
  induction fuel generalizing first i m with
  | zero => rfl
  | succ fuel ih => simp [siftLoopLog, siftLoop, ih]

@[simp] theorem heapAdjustLog_result (cap first last : ℤ) (m : Block) :
    (heapAdjustLog c cap first last m).result = heapAdjust c cap first last m := by
  simp [heapAdjustLog, heapAdjust]

@[simp] theorem buildLoopLog_result (cap maxIdx : ℤ) (fuel : ℕ) (i : ℤ) (m : Block) :
    (buildLoopLog c cap maxIdx fuel i m).result = buildLoop c cap maxIdx fuel i m := by
  induction fuel generalizing i m with
  | zero => rfl
  | succ fuel ih => simp [buildLoopLog, buildLoop, ih]

@[simp] theorem extractLoopLog_result (cap : ℤ) (fuel : ℕ) (i : ℤ) (m : Block) :
    (extractLoopLog c cap fuel i m).result = extractLoop c cap fuel i m := by
  induction fuel generalizing i m with
  | zero => rfl
  | succ fuel ih => simp [extractLoopLog, extractLoop, ih]

/-- **`HeapSort`.** -/
theorem heapSortLog_result (elementNum : ℤ) (m : Block) :
    (heapSortLog c elementNum m).result = heapSort c elementNum m := by
  simp [heapSortLog, heapSort]

@[simp] theorem mergeLoopLog_result (m : Block) (mid high : ℤ) (fuel : ℕ) (i j k : ℤ) (buf : Block) :
    (mergeLoopLog c m mid high fuel i j k buf).result = mergeLoop c m mid high fuel i j k buf := by
  induction fuel generalizing i j k buf with
  | zero => rfl
  | succ fuel ih => simp [mergeLoopLog, mergeLoop, ih]

@[simp] theorem copyLoopLog_result (m : Block) (last : ℤ) (fuel : ℕ) (i k : ℤ) (buf : Block) :
    (copyLoopLog size m last fuel i k buf).result = copyLoop size m last fuel i k buf := by
  induction fuel generalizing i k buf with
  | zero => rfl
  | succ fuel ih => simp [copyLoopLog, copyLoop, ih]

@[simp] theorem mergeLog_result (low mid high : ℤ) (m buf : Block) :
    (mergeLog c low mid high m buf).result = merge c low mid high m buf := by
  simp [mergeLog, merge]

@[simp] theorem doMergeSortLog_result (fuel : ℕ) (low high : ℤ) (m buf : Block) :
    (doMergeSortLog c fuel low high m buf).result = doMergeSort c fuel low high m buf := by
  induction fuel generalizing low high m buf with
  | zero => rfl
  | succ fuel ih => simp [doMergeSortLog, doMergeSort, ih]

/-- **`MergeSort`.** -/
theorem mergeSortLog_result (elementNum : ℤ) (m : Block) (buf : ℤ → UInt8) :
    (mergeSortLog c elementNum m buf).result = mergeSort c elementNum m buf := by
  simp [mergeSortLog, mergeSort]

end Results

end Backend.Sort
