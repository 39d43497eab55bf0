import Backend.Word
import Mathlib.Logic.Function.Basic

/-!
# `HashMap` (`base/dsalgo/hashmap.cc`, `base/dsalgo/linkedlist.cc`)

A node is an address; `live` are the nodes that are allocated. `none` as the result of an operation is the
use of a node that is not, an access outside `m_array`, or a loop that does not end.

* `Nodes`: the nodes by their fields; `searchLoop`, `Nodes.find`, `Nodes.findRef`, `Nodes.insert`,
  `deleteLoop`, `Nodes.delete`, `Nodes.releaseLoop`: `LinkedList`, for the list that begins at a given
  `head`;
* `HashMap`, `HashMap.new`, `HashMap.init`, `HashMap.release`: the constructor, `Init` and `Release`;
* `getBucketIndex`, `HashMap.find`, `HashMap.findRef`, `HashMap.insert`, `HashMap.delete`;
* `Op`, `Res`, `HashMap.step`, `HashMap.exec`: calls and what they return.
-/

set_option autoImplicit false

namespace Backend.Hash

open Function

/-! ## `LinkedList` -/

/-- The nodes of all lists. Memory below `top` has been used. -/
structure Nodes (K V : Type) where
  key : ℕ → K
  value : ℕ → V
  next : ℕ → Option ℕ
  live : ℕ → Bool
  top : ℕ

variable {K V : Type}

/-- `a->key`. -/
def Nodes.key? (m : Nodes K V) (a : ℕ) : Option K := if m.live a then some (m.key a) else none

/-- `a->next`. -/
def Nodes.next? (m : Nodes K V) (a : ℕ) : Option (Option ℕ) :=
  if m.live a then some (m.next a) else none

/-- `new Node`, with its fields written. -/
def Nodes.alloc (m : Nodes K V) (key : K) (value : V) (next : Option ℕ) : Nodes K V :=
  { key := update m.key m.top key, value := update m.value m.top value
    next := update m.next m.top next, live := update m.live m.top true, top := m.top + 1 }

/-- `delete a`. -/
def Nodes.free (m : Nodes K V) (a : ℕ) : Nodes K V := { m with live := update m.live a false }

/-- The loop of `LinkedList::Release`. -/
def Nodes.releaseLoop : ℕ → Option ℕ → Nodes K V → Option (Nodes K V)
  | 0, _, _ => none
  | _ + 1, none, m => some m
  | fuel + 1, some pre, m => do
    let next ← m.next? pre
    Nodes.releaseLoop fuel next (m.free pre)

section

variable [DecidableEq K]

/-- The loop that both `Find` and `Insert` make: the node with the key. -/
def Nodes.searchLoop (m : Nodes K V) (key : K) : ℕ → Option ℕ → Option (Option ℕ)
  | 0, _ => none
  | _ + 1, none => some none
  | fuel + 1, some cur => do
    if (← m.key? cur) = key then some (some cur) else m.searchLoop key fuel (← m.next? cur)

/-- `LinkedList::Find(key, Value &value)`: what it returns, and the variable `value` after the call. -/
def Nodes.find (m : Nodes K V) (head : Option ℕ) (key : K) (value : V) : Option (Bool × V) :=
  (m.searchLoop key (m.top + 1) head).map fun
    | none => (false, value)
    | some cur => (true, m.value cur)

/-- `LinkedList::Find(key, Value* &value)`: what it returns, and the node whose value is pointed to. -/
def Nodes.findRef (m : Nodes K V) (head : Option ℕ) (key : K) : Option (Bool × Option ℕ) :=
  (m.searchLoop key (m.top + 1) head).map fun
    | none => (false, none)
    | some cur => (true, some cur)

/-- `LinkedList::Insert`: what it returns, and the new `head`. -/
def Nodes.insert (m : Nodes K V) (head : Option ℕ) (key : K) (value : V) :
    Option (ℤ × Option ℕ × Nodes K V) :=
  match head with
  | none => some (1, some m.top, m.alloc key value none)
  | some h => do
    match ← m.searchLoop key (m.top + 1) (some h) with
    | some cur => some (2, some h, { m with value := update m.value cur value })
    | none => some (1, some m.top, m.alloc key value (some h))

/-- The loop of `LinkedList::Delete`. -/
def Nodes.deleteLoop (key : K) : ℕ → Option ℕ → Option ℕ → Nodes K V → Option (Bool × Nodes K V)
  | 0, _, _, _ => none
  | _ + 1, _, none, m => some (false, m)
  | fuel + 1, pre, some cur, m => do
    let p ← pre
    if (← m.key? cur) = key then
      let next ← m.next? cur
      let _ ← m.next? p
      some (true, ({ m with next := update m.next p next }).free cur)
    else
      let pre ← m.next? p
      let next ← m.next? cur
      Nodes.deleteLoop key fuel pre next m

/-- `LinkedList::Delete`: what it returns, and the new `head`. -/
def Nodes.delete (m : Nodes K V) (head : Option ℕ) (key : K) : Option (Bool × Option ℕ × Nodes K V) :=
  match head with
  | none => some (false, none, m)
  | some h => do
    if (← m.key? h) = key then
      let next ← m.next? h
      some (true, next, m.free h)
    else
      let next ← m.next? h
      let r ← Nodes.deleteLoop key (m.top + 1) (some h) next m
      some (r.1, some h, r.2)

end

/-! ## `HashMap` -/

/-- The fields of the object: `array` is `m_array` with the `head` of each list, `none` for `NULL`. -/
structure HashMap (K V : Type) where
  nodes : Nodes K V
  array : Option (ℤ → Option ℕ)
  bucketNum : ℤ
  size : ℤ

/-- `kMaxBucketNum`. -/
def kMaxBucketNum : ℤ := 2 ^ 30

/-- The constructor, with what memory holds. -/
def HashMap.new (m : Nodes K V) : HashMap K V :=
  { nodes := m, array := none, bucketNum := 0, size := 0 }

/-- `Init`. It does not set `m_size`. -/
def HashMap.init (s : HashMap K V) (bucketNum : ℤ) : Option (Bool × HashMap K V) :=
  if bucketNum ≤ 0 then some (false, s)
  else
    let bucketNum := if bucketNum > kMaxBucketNum then kMaxBucketNum else bucketNum
    (doubleLoop i32 33 1 bucketNum).map fun tempNum =>
      (true, { s with bucketNum := tempNum, array := some fun _ => none })

/-- `m_array[i]`: the `head` of the list. -/
def HashMap.list? (s : HashMap K V) (i : ℤ) : Option (Option ℕ) :=
  if 0 ≤ i ∧ i < s.bucketNum then s.array.map fun a => a i else none

/-- The `head` of the list `m_array[i]` is written, and its nodes are. -/
def HashMap.setList (s : HashMap K V) (i : ℤ) (head : Option ℕ) (m : Nodes K V) : HashMap K V :=
  { s with nodes := m, array := s.array.map fun a => update a i head }

/-- `Release`. It sets neither `m_size` nor `m_bucket_num`. -/
def HashMap.release (s : HashMap K V) : Option (HashMap K V) := do
  let m ← (List.range s.bucketNum.toNat).foldlM (fun (m : Nodes K V) (i : ℕ) => do
    let head ← s.list? i
    Nodes.releaseLoop (m.top + 1) head m) s.nodes
  some { s with nodes := m, array := none }

/-- `GetBucketIndex`. -/
def getBucketIndex (bucketNum : ℤ) (hascode : BitVec 32) : ℤ :=
  let hascode := hascode ^^^ ((hascode >>> 20) ^^^ (hascode >>> 12))
  let temp := hascode ^^^ (hascode >>> 7) ^^^ (hascode >>> 4)
  (temp &&& BitVec.ofInt 32 (i32 (bucketNum - 1))).toInt

/-- `GetSize`. -/
def HashMap.getSize (s : HashMap K V) : ℤ := s.size

-- `GetHashCode`, the conversion of a key to `uint32_t`.
variable [DecidableEq K] (code : K → BitVec 32)

/-- `Find(key, Value &value)`. -/
def HashMap.find (s : HashMap K V) (key : K) (value : V) : Option (Bool × V) := do
  let head ← s.list? (getBucketIndex s.bucketNum (code key))
  s.nodes.find head key value

/-- `Find(key, Value* &value)`: what it returns, and what `value` points to after the call. -/
def HashMap.findRef (s : HashMap K V) (key : K) : Option (Bool × Option V) := do
  let head ← s.list? (getBucketIndex s.bucketNum (code key))
  let r ← s.nodes.findRef head key
  some (r.1, r.2.map s.nodes.value)

/-- `Insert`. -/
def HashMap.insert (s : HashMap K V) (key : K) (value : V) : Option (ℤ × HashMap K V) := do
  let i := getBucketIndex s.bucketNum (code key)
  let (ret, head, m) ← s.nodes.insert (← s.list? i) key value
  let s := s.setList i head m
  if 1 = ret then some (ret, { s with size := u32 (s.size + 1) }) else some (ret, s)

/-- `Delete`. -/
def HashMap.delete (s : HashMap K V) (key : K) : Option (Bool × HashMap K V) := do
  let i := getBucketIndex s.bucketNum (code key)
  let (ret, head, m) ← s.nodes.delete (← s.list? i) key
  let s := s.setList i head m
  if !ret then some (false, s) else some (true, { s with size := u32 (s.size - 1) })

/-- The calls; `value` is the variable that `find` writes. -/
inductive Op (K V : Type)
  | find (key : K) (value : V)
  | findRef (key : K)
  | insert (key : K) (value : V)
  | delete (key : K)
  | getSize

/-- What a call returns. -/
inductive Res (V : Type)
  | find (ret : Bool) (value : V)
  | findRef (ret : Bool) (value : Option V)
  | insert (ret : ℤ)
  | delete (ret : Bool)
  | size (n : ℤ)
  deriving DecidableEq

/-- One call. -/
def HashMap.step (s : HashMap K V) : Op K V → Option (Res V × HashMap K V)
  | .find key value => (s.find code key value).map fun r => (.find r.1 r.2, s)
  | .findRef key => (s.findRef code key).map fun r => (.findRef r.1 r.2, s)
  | .insert key value => (s.insert code key value).map fun r => (.insert r.1, r.2)
  | .delete key => (s.delete code key).map fun r => (.delete r.1, r.2)
  | .getSize => some (.size s.getSize, s)

/-- A sequence of calls: what they return, and the map after them. -/
def HashMap.exec : HashMap K V → List (Op K V) → Option (List (Res V) × HashMap K V)
  | s, [] => some ([], s)
  | s, op :: ops => do
    let r ← s.step code op
    let t ← HashMap.exec r.2 ops
    some (r.1 :: t.1, t.2)

end Backend.Hash
