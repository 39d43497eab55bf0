import Backend.Word
import Mathlib.Logic.Function.Basic

/-!
# `UnionSearchSet` (`base/dsalgo/union_search_set.cc`)

* `UnionSearchSet`, `UnionSearchSet.init`: the arrays `m_father` and `m_rank`;
* `climbLoop`, `compressLoop`, `UnionSearchSet.search`: `Search` with its two loops;
* `UnionSearchSet.union`: `Union`;
* `Op`, `UnionSearchSet.step`, `UnionSearchSet.exec`: calls and what they return.

An index is a natural number: a negative `int32_t` is not one. `none` as the result of an operation is a loop
that does not end.
-/

set_option autoImplicit false

namespace Backend.UnionSearch

open Function

/-- The fields of the object; the elements in use are those below `size`. -/
structure UnionSearchSet where
  father : ℕ → ℕ
  rank : ℕ → ℤ
  size : ℕ

/-- `Init(size)`; `none` is the return value `false`. -/
def UnionSearchSet.init (size : ℤ) : Option UnionSearchSet :=
  if size ≤ 0 then none else some { father := id, rank := fun _ => 1, size := size.toNat }

/-- `while (m_father[idx] != idx) idx = m_father[idx];`. -/
def climbLoop (father : ℕ → ℕ) : ℕ → ℕ → Option ℕ
  | 0, _ => none
  | fuel + 1, idx => if father idx ≠ idx then climbLoop father fuel (father idx) else some idx

/-- The second loop of `Search`: every node on the way is hung below the root `idx`. -/
def compressLoop (idx : ℕ) : ℕ → ℕ → UnionSearchSet → Option UnionSearchSet
  | 0, _, _ => none
  | fuel + 1, a, s =>
    if s.father a ≠ idx then
      compressLoop idx fuel (s.father a)
        { s with father := update s.father a idx, rank := update s.rank a 1 }
    else some s

/-- `Search`. A way up has at most `size` nodes. -/
def UnionSearchSet.search (s : UnionSearchSet) (idx : ℕ) : Option (ℤ × UnionSearchSet) :=
  if idx ≥ s.size then some (-1, s)
  else do
    let root ← climbLoop s.father (s.size + 1) idx
    let s ← compressLoop root (s.size + 1) idx s
    some (root, s)

/-- The end of `Union`: the root of smaller rank is hung below the other one. -/
def UnionSearchSet.link (s : UnionSearchSet) (a b : ℕ) : UnionSearchSet :=
  if s.rank a < s.rank b then
    { s with father := update s.father a b
             rank := update s.rank b (max (i32 (s.rank a + 1)) (s.rank b)) }
  else
    { s with father := update s.father b a
             rank := update s.rank a (max (i32 (s.rank b + 1)) (s.rank a)) }

/-- `Union`. -/
def UnionSearchSet.union (s : UnionSearchSet) (a b : ℕ) : Option (Bool × UnionSearchSet) := do
  let (ta, s) ← s.search a
  if ta < 0 then return (false, s)
  let (tb, s) ← s.search b
  if tb < 0 then return (false, s)
  if ta = tb then return (true, s)
  return (true, s.link ta.toNat tb.toNat)

/-- The calls. -/
inductive Op
  | search (idx : ℕ)
  | union (a b : ℕ)

/-- What a call returns. -/
inductive Res
  | idx (i : ℤ)
  | bool (b : Bool)
  deriving DecidableEq

/-- One call. -/
def UnionSearchSet.step (s : UnionSearchSet) : Op → Option (Res × UnionSearchSet)
  | .search idx => (s.search idx).map fun r => (.idx r.1, r.2)
  | .union a b => (s.union a b).map fun r => (.bool r.1, r.2)

/-- A sequence of calls: what they return, and the set after them. -/
def UnionSearchSet.exec : UnionSearchSet → List Op → Option (List Res × UnionSearchSet)
  | s, [] => some ([], s)
  | s, op :: ops => do
    let r ← s.step op
    let t ← UnionSearchSet.exec r.2 ops
    some (r.1 :: t.1, t.2)

end Backend.UnionSearch
