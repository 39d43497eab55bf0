import Backend.Word
import Mathlib.Logic.Function.Basic
import Mathlib.Order.Defs.LinearOrder

/-!
# `SkipList` (`base/dsalgo/skiplist.cc`)

A node has a key, a value, a level and a pointer `forward[i]` for each level `i`. A node is an address;
`live` are the nodes that are allocated. `none` as the result of an operation is the use of a node that
is not, or a loop that does not end.

* `SkipList`, `SkipList.init`: the nodes, `m_head` and `m_size`;
* `advance`, `search`, `locate`: the search that `Insert`, `Find` and `Delete` begin with;
* `getLevel`, `linkLevel`, `insert`; `find`; `unlinkLoop`, `delete`; `getSize`;
* `Op`, `Res`, `SkipList.step`, `SkipList.exec`: calls and what they return.
-/

set_option autoImplicit false

namespace Backend.Skip

open Function

/-- `MAX_SKIP_LEVEL`. -/
def maxSkipLevel : ℕ := 6

/-- `LEVEL_WT`. -/
def levelWt : ℕ := 6

/-- `SkipList`, with the nodes by their fields: `forward i a` is `forward[i]` of node `a`. Memory below
`top` has been used. -/
structure SkipList (K V : Type) where
  key : ℕ → K
  value : ℕ → V
  level : ℕ → ℕ
  forward : ℕ → ℕ → Option ℕ
  live : ℕ → Bool
  top : ℕ
  head : Option ℕ
  size : ℤ

variable {K V : Type}

/-- `Init` on a new list, with the keys and values that memory holds before they are written. -/
def SkipList.init (key : ℕ → K) (value : ℕ → V) : SkipList K V :=
  { key := key, value := value, level := update (fun _ => 0) 0 (maxSkipLevel - 1)
    forward := fun _ _ => none, live := update (fun _ => false) 0 true, top := 1, head := some 0
    size := 0 }

/-- `a->forward[i]`. -/
def SkipList.forward? (s : SkipList K V) (i a : ℕ) : Option (Option ℕ) :=
  if s.live a then some (s.forward i a) else none

/-- `a->key`. -/
def SkipList.key? (s : SkipList K V) (a : ℕ) : Option K := if s.live a then some (s.key a) else none

/-- `GetLevel`, for the values that `rand()` returns. -/
def getLevel (rand : ℕ → ℕ) : ℕ :=
  (List.range (maxSkipLevel - 1)).foldl
    (fun level i => level + if rand i % 10 > levelWt then 1 else 0) 0

/-- `GetSize`. -/
def SkipList.getSize (s : SkipList K V) : ℤ := s.size

/-- The body of the loop of `Insert` over the levels. -/
def SkipList.linkLevel (new level : ℕ) (upd : ℕ → ℕ) (s : SkipList K V) (i : ℕ) :
    Option (SkipList K V) :=
  if i ≤ level then
    (s.forward? i (upd i)).map fun p =>
      { s with forward := update s.forward i (update (update (s.forward i) new p) (upd i) (some new)) }
  else some { s with forward := update s.forward i (update (s.forward i) new none) }

/-- The loop of `Delete` over the levels, for `k` more levels from level `i` on. -/
def SkipList.unlinkLoop (cur : ℕ) (upd : ℕ → ℕ) : ℕ → ℕ → SkipList K V → Option (SkipList K V)
  | 0, _, s => some s
  | k + 1, i, s => do
    if (← s.forward? i (upd i)) ≠ some cur then some s
    else
      let p ← s.forward? i cur
      SkipList.unlinkLoop cur upd k (i + 1)
        { s with forward := update s.forward i (update (s.forward i) (upd i) p) }

variable [LinearOrder K]

/-- The inner loop of the search, on level `i`. -/
def SkipList.advance (s : SkipList K V) (key : K) (i : ℕ) : ℕ → ℕ → Option ℕ
  | 0, _ => none
  | fuel + 1, cur => do
    match ← s.forward? i cur with
    | none => some cur
    | some a => if key > (← s.key? a) then s.advance key i fuel a else some cur

/-- The outer loop, from level `i - 1` down to `0`: the last node and the array `update`. -/
def SkipList.search (s : SkipList K V) (key : K) : ℕ → ℕ → (ℕ → ℕ) → Option (ℕ × (ℕ → ℕ))
  | 0, cur, upd => some (cur, upd)
  | i + 1, cur, upd => do
    let cur ← s.advance key i (s.top + 1) cur
    s.search key i cur (update upd i cur)

/-- The search from `m_head`, with the step along `forward[0]` after it. -/
def SkipList.locate (s : SkipList K V) (key : K) (head : ℕ) : Option (ℕ × (ℕ → ℕ)) := do
  let (cur, upd) ← s.search key (s.level head + 1) head fun _ => head
  match ← s.forward? 0 cur with
  | none => some (cur, upd)
  | some a => some (a, upd)

/-- `Insert`. -/
def SkipList.insert (s : SkipList K V) (key : K) (value : V) (rand : ℕ → ℕ) :
    Option (Bool × SkipList K V) :=
  match s.head with
  | none => some (false, s)
  | some head => do
    let (cur, upd) ← s.locate key head
    if cur ≠ head ∧ key = (← s.key? cur) then some (true, { s with value := update s.value cur value })
    else
      let new := s.top
      let level := getLevel rand
      let s := { s with key := update s.key new key, value := update s.value new value
                        level := update s.level new level, live := update s.live new true
                        top := new + 1 }
      let s ← (List.range maxSkipLevel).foldlM (SkipList.linkLevel new level upd) s
      some (true, { s with size := i32 (s.size + 1) })

/-- `Find`: the value that is copied, `some none` when it returns `false`. -/
def SkipList.find (s : SkipList K V) (key : K) : Option (Option V) := do
  let head ← s.head
  let (cur, _) ← s.locate key head
  if cur ≠ head ∧ key = (← s.key? cur) then some (some (s.value cur)) else some none

/-- `Delete`. -/
def SkipList.delete (s : SkipList K V) (key : K) : Option (Bool × SkipList K V) :=
  match s.head with
  | none => some (false, s)
  | some head => do
    let (cur, upd) ← s.locate key head
    if cur ≠ head ∧ key = (← s.key? cur) then
      let s ← SkipList.unlinkLoop cur upd (s.level head + 1) 0 s
      some (true, { s with live := update s.live cur false, size := i32 (s.size - 1) })
    else some (false, s)

/-! ## Calls -/

/-- The calls. -/
inductive Op (K V : Type)
  | insert (key : K) (value : V)
  | delete (key : K)
  | find (key : K)
  | getSize

/-- What a call returns; `value` is `none` when `Find` returns `false`. -/
inductive Res (V : Type)
  | bool (b : Bool)
  | value (v : Option V)
  | size (k : ℤ)
  deriving DecidableEq

/-- One call; `rand` are the values that `rand()` returns in it. -/
def SkipList.step (s : SkipList K V) (rand : ℕ → ℕ) : Op K V → Option (Res V × SkipList K V)
  | .insert k v => (s.insert k v rand).map fun r => (.bool r.1, r.2)
  | .delete k => (s.delete k).map fun r => (.bool r.1, r.2)
  | .find k => (s.find k).map fun v => (.value v, s)
  | .getSize => some (.size s.getSize, s)

/-- A sequence of calls, each with the values that `rand()` returns in it. -/
def SkipList.exec : SkipList K V → List (Op K V × (ℕ → ℕ)) → Option (List (Res V) × SkipList K V)
  | s, [] => some ([], s)
  | s, c :: cs => do
    let r ← s.step c.2 c.1
    let t ← SkipList.exec r.2 cs
    some (r.1 :: t.1, t.2)

end Backend.Skip
