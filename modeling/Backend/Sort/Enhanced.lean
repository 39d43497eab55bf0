import Backend.Sort.Memory

/-!
# `EQSort` (`base/dsalgo/sort.cc`, `sort.h`)

Quicksort with an explicit stack, followed by an insertion sort. Pointers are offsets from `base_ptr`; elements
are exchanged and rotated byte by byte.

* `swap`: the macro `SWAP`;
* `medianOfThree`, `scanLeft`, `scanRight`, `collapse`: one partition;
* `push`, `pop`, `nextPart`, `quickLoop`: the stack and the first phase;
* `minLoop`, `findPlace`, `rotateLoop`, `insertLoop`, `insertionSort`: the second phase;
* `eqSort`: the array and the list of `Visit`s of the first phase.

`none` as the result of a function is an access outside the array or the stack, an access through `NULL`, or a
loop that does not end.
-/

set_option autoImplicit false

namespace Backend.Sort

/-! ## Bytes -/

/-- The byte at `p`. -/
def Block.get (m : Block) (p : ℤ) : Option UInt8 := if m.Has p 1 then some (m.byte p) else none

/-- The byte at `p` is written. -/
def Block.set (m : Block) (p : ℤ) (x : UInt8) : Option Block :=
  if m.Has p 1 then some { m with byte := Function.update m.byte p x } else none

/-- The inner loop of `SWAP`, with `__size` bytes left. -/
def swapLoop : ℕ → ℤ → ℤ → ℤ → Block → Option Block
  | 0, _, _, _, _ => none
  | fuel + 1, k, a, b, m => do
    let x ← m.get a
    let m ← m.set a (← m.get b)
    let m ← m.set b x
    if u64 (k - 1) > 0 then swapLoop fuel (u64 (k - 1)) (a + 1) (b + 1) m else some m

/-- `SWAP(a, b, size)`. -/
def swap (size : ℕ) (a b : ℤ) (m : Block) : Option Block := swapLoop size size a b m

/-! ## One partition -/

variable {size : ℕ} (c : Elem size → Elem size → ℤ)

/-- `(*cmp) (p, q)`. -/
def cmpAt (m : Block) (p q : ℤ) : Option ℤ := do
  let x ← m.load size p
  let y ← m.load size q
  some (c x y)

/-- `if ((*cmp) (p, q) < 0) SWAP (p, q, size);`. -/
def swapIf (p q : ℤ) (m : Block) : Option Block := do
  if (← cmpAt c m p q) < 0 then swap size p q m else some m

/-- The elements at `lo`, `mid` and `hi` are sorted. -/
def medianOfThree (lo mid hi : ℤ) (m : Block) : Option Block := do
  let m ← swapIf c mid lo m
  if (← cmpAt c m hi mid) < 0 then do
    let m ← swap size mid hi m
    swapIf c mid lo m
  else some m

/-- `while ((*cmp) (left_ptr, mid) < 0) left_ptr += size;`. -/
def scanLeft (m : Block) (mid : ℤ) : ℕ → ℤ → Option ℤ
  | 0, _ => none
  | fuel + 1, left => do
    if (← cmpAt c m left mid) < 0 then scanLeft m mid fuel (left + size) else some left

/-- `while ((*cmp) (mid, right_ptr) < 0) right_ptr -= size;`. -/
def scanRight (m : Block) (mid : ℤ) : ℕ → ℤ → Option ℤ
  | 0, _ => none
  | fuel + 1, right => do
    if (← cmpAt c m mid right) < 0 then scanRight m mid fuel (right - size) else some right

/-- The loop that collapses the walls: `left_ptr`, `right_ptr` and the array at its end. -/
def collapse : ℕ → ℤ → ℤ → ℤ → Block → Option (ℤ × ℤ × Block)
  | 0, _, _, _, _ => none
  | fuel + 1, mid, left, right, m => do
    let left ← scanLeft c m mid (fuel + 1) left
    let right ← scanRight c m mid (fuel + 1) right
    if left < right then
      let m ← swap size left right m
      let mid := if mid = left then right else if mid = right then left else mid
      if left + size ≤ right - size then collapse fuel mid (left + size) (right - size) m
      else some (left + size, right - size, m)
    else if left = right then some (left + size, right - size, m)
    else some (left, right, m)

/-! ## The stack -/

/-- `MAX_THRESH`. -/
def maxThresh : ℤ := 4

/-- `STACK_SIZE`, which is `CHAR_BIT * sizeof(size_t)`. -/
def stackSize : ℕ := 64

/-- A `stack_node`: the bounds of a part of the array, or `NULL` and `NULL`. -/
abbrev Node := Option (ℤ × ℤ)

/-- `PUSH`. -/
def push (p : Node) (stack : List Node) : Option (List Node) :=
  if stack.length < stackSize then some (p :: stack) else none

/-- `POP`. -/
def pop : List Node → Option (Node × List Node)
  | [] => none
  | p :: stack => some (p, stack)

/-- The bounds for the next iteration, and the stack. -/
def nextPart (thresh lo hi left right : ℤ) (stack : List Node) : Option (Node × List Node) :=
  if u64 (right - lo) ≤ thresh then
    if u64 (hi - left) ≤ thresh then pop stack else some (some (left, hi), stack)
  else if u64 (hi - left) ≤ thresh then some (some (lo, right), stack)
  else if right - lo > hi - left then do
    let stack ← push (some (lo, right)) stack
    some (some (left, hi), stack)
  else do
    let stack ← push (some (left, hi)) stack
    some (some (lo, right), stack)

/-- What is seen of an iteration: its bounds, the entries of the stack at its beginning, and the pointers when the
walls have collapsed. -/
structure Visit where
  lo : ℤ
  hi : ℤ
  depth : ℕ
  left : ℤ
  right : ℤ

/-- `while (STACK_NOT_EMPTY)`. -/
def quickLoop (thresh : ℤ) : ℕ → Node → List Node → Block → Option (Block × List Visit)
  | 0, _, _, _ => none
  | fuel + 1, part, stack, m =>
    if stack.isEmpty then some (m, [])
    else do
      let (lo, hi) ← part
      let mid := lo + u64 (size * (u64 (hi - lo) / size / 2))
      let m ← medianOfThree c lo mid hi m
      let (left, right, m) ← collapse c ((hi - lo).toNat + 1) mid (lo + size) (hi - size) m
      let (part, rest) ← nextPart thresh lo hi left right stack
      let (m, visits) ← quickLoop thresh fuel part rest m
      some (m, ⟨lo, hi, stack.length, left, right⟩ :: visits)

/-! ## The insertion sort -/

/-- The smallest element of the first ones: `tmp_ptr` at the end of the loop. -/
def minLoop (m : Block) (thresh : ℤ) : ℕ → ℤ → ℤ → Option ℤ
  | 0, _, _ => none
  | fuel + 1, run, tmp =>
    if run ≤ thresh then do
      if (← cmpAt c m run tmp) < 0 then minLoop m thresh fuel (run + size) run
      else minLoop m thresh fuel (run + size) tmp
    else some tmp

/-- `while ((*cmp) (run_ptr, tmp_ptr) < 0) tmp_ptr -= size;`, the loop of `scanRight`. -/
def findPlace (m : Block) (run : ℤ) : ℕ → ℤ → Option ℤ := scanRight c m run

/-- `for (hi = lo = trav; (lo -= size) >= tmp_ptr; hi = lo) *hi = *lo;`, then `*hi = c;`. -/
def shiftLoop (size : ℕ) (tmp : ℤ) (x : UInt8) : ℕ → ℤ → Block → Option Block
  | 0, _, _ => none
  | fuel + 1, hi, m =>
    if hi - size ≥ tmp then do
      let m ← m.set hi (← m.get (hi - size))
      shiftLoop size tmp x fuel (hi - size) m
    else m.set hi x

/-- `while (--trav >= run_ptr)`: the bytes of the element at `run_ptr` are moved to `tmp_ptr`. -/
def rotateLoop (size : ℕ) (run tmp : ℤ) : ℕ → ℤ → Block → Option Block
  | 0, _, _ => none
  | fuel + 1, trav, m =>
    if trav - 1 ≥ run then do
      let x ← m.get (trav - 1)
      let m ← shiftLoop size tmp x ((run - tmp).toNat + 1) (trav - 1) m
      rotateLoop size run tmp fuel (trav - 1) m
    else some m

/-- `if (tmp_ptr != run_ptr)`: the element at `run_ptr` is moved to `tmp_ptr`. -/
def moveTo (size : ℕ) (run tmp : ℤ) (m : Block) : Option Block :=
  if tmp ≠ run then rotateLoop size run tmp (size + 1) (run + size) m else some m

/-- `while ((run_ptr += size) <= end_ptr)`. -/
def insertLoop (last : ℤ) : ℕ → ℤ → Block → Option Block
  | 0, _, _ => none
  | fuel + 1, run, m =>
    if run + size ≤ last then do
      let tmp ← findPlace c m (run + size) (run.toNat + 1) run
      let m ← moveTo size (run + size) (tmp + size) m
      insertLoop last fuel (run + size) m
    else some m

/-- `if (tmp_ptr != base_ptr) SWAP (tmp_ptr, base_ptr, size);`. -/
def toFront (size : ℕ) (tmp : ℤ) (m : Block) : Option Block :=
  if tmp ≠ 0 then swap size tmp 0 m else some m

/-- The second phase of `EQSort`. -/
def insertionSort (thresh elems : ℤ) (m : Block) : Option Block := do
  let last := u64 (size * u64 (elems - 1))
  let tmp ← minLoop c m (min last thresh) (maxThresh.toNat + 1) size 0
  let m ← toFront size tmp m
  insertLoop c last (elems.toNat + 1) size m

/-! ## `EQSort` -/

/-- The first phase of `EQSort`. -/
def quickSortPhase (thresh elems : ℤ) (m : Block) : Option (Block × List Visit) :=
  if elems > maxThresh then do
    let stack ← push none []
    quickLoop c thresh elems.toNat (some (0, u64 (size * u64 (elems - 1)))) stack m
  else some (m, [])

/-- `EQSort`. -/
def eqSort (elems : ℤ) (m : Block) : Option (Block × List Visit) :=
  if elems = 0 then some (m, [])
  else do
    let thresh := u64 (maxThresh * size)
    let (m, visits) ← quickSortPhase c thresh elems m
    let m ← insertionSort c thresh elems m
    some (m, visits)

end Backend.Sort
