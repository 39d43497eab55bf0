import Mathlib.Algebra.Group.Nat.Defs
import Mathlib.Data.Fin.Basic
import Mathlib.Data.List.FinRange
import Mathlib.Logic.Function.Basic

/-!
# `LruHashMap` (`base/dsalgo/lru_hashmap.cc`, `base/dsalgo/entry.h`)

The entries are the elements of an array. Their indices are links of three structures over the same
array: the bucket chains (`next`), the circular access list (`before`, `after`) and the ring of free
indices `EntryQueue`.

* `EntryQueue`: `init`, `push`, `pop`, `reset`;
* `LruHashMap`: `init`, `reset`, `accessAddBefore`, `accessRemove`, `recordAccess`;
* `getSize`, `isFull`, `getFutureRemoveKey`, `getLatestNodeKey`, `getLatestNodeValue`,
  `getLatestNKeyValue`: the queries;
* `find`, `get`, `getRef`, `remove`, `addEntry`, `put`: lookup, removal and insertion;
* `Op`, `Res`, `LruHashMap.step`, `LruHashMap.exec`: calls and what they return.

`none` as the result of an operation is the use of an index `-1` or a loop that does not end.
-/

set_option autoImplicit false

namespace Backend.Lru

open Function

/-! ## The ring of free indices -/

/-- `EntryQueue`. As `m_size < 2 ^ 31`, the increments of `m_tail` and `m_head` do not wrap. -/
structure EntryQueue (T : Type) where
  data : ℕ → T
  tail : ℕ
  head : ℕ
  size : ℕ

section EntryQueue

variable {T : Type}

/-- `EntryQueue::Init`; `zero` is the value that `memset` writes. -/
def EntryQueue.init (zero : T) (size : ℕ) : EntryQueue T :=
  { data := fun _ => zero, tail := 0, head := 0, size := size }

/-- `EntryQueue::Push`. -/
def EntryQueue.push (q : EntryQueue T) (node : T) : EntryQueue T :=
  { q with data := update q.data q.tail node, tail := (q.tail + 1) % q.size }

/-- `EntryQueue::Pop`. -/
def EntryQueue.pop (q : EntryQueue T) : T × EntryQueue T :=
  (q.data q.head, { q with head := (q.head + 1) % q.size })

/-- `EntryQueue::Reset`. -/
def EntryQueue.reset (q : EntryQueue T) : EntryQueue T := { q with tail := 0, head := 0 }

end EntryQueue

/-! ## The map -/

/-- The elements of `m_entry_array`, when `m_max_entries` is `n`. -/
abbrev Slot (n : ℕ) := Fin (n + 2)

/-- An `int32_t` index; `none` is `-1`. -/
abbrev Idx (n : ℕ) := Option (Slot n)

/-- `LruHashMap`, with `m_max_entries = n` and `m_entry_array` by its fields. -/
structure LruHashMap (n : ℕ) (K V : Type) where
  key : Slot n → K
  value : Slot n → V
  next : Slot n → Idx n
  before : Slot n → Idx n
  after : Slot n → Idx n
  index : Slot n → Idx n
  queue : EntryQueue (Idx n)
  table : ℕ → Idx n
  nodeNum : ℤ
  header : Slot n

/-- `m_table_size`; `kMaxTableSize` is `1 << 30`. -/
def tableSize (n : ℕ) : ℕ := if n > 2 ^ 30 then 2 ^ 30 else n

/-- `GetBucketIndex`. -/
def getBucketIndex (n : ℕ) (hascode : UInt32) : ℕ :=
  let hascode := hascode ^^^ ((hascode >>> 20) ^^^ (hascode >>> 12))
  let temp := hascode ^^^ (hascode >>> 7) ^^^ (hascode >>> 4)
  temp.toNat % tableSize n

variable {n : ℕ} {K V : Type}

/-- The loop of `Init` and `Reset` that pushes all indices. -/
def pushAll (q : EntryQueue (Idx n)) : EntryQueue (Idx n) :=
  (List.finRange (n + 2)).foldl (fun q i => q.push (some i)) q

/-- `Init(n)` on a new map, with the keys and values that the array holds before they are written.
`none` when it returns `false` or when `m_max_entries + 2` is not an `int32_t`. -/
def LruHashMap.init (n : ℕ) (key : Slot n → K) (value : Slot n → V) : Option (LruHashMap n K V) :=
  if n = 0 ∨ 2 ^ 31 ≤ n + 2 then none
  else
    let (idx, q) := (pushAll (EntryQueue.init (some 0) (n + 2))).pop
    idx.map fun idx =>
      { key := key, value := value, next := fun _ => none
        before := update (fun _ => none) idx (some idx)
        after := update (fun _ => none) idx (some idx)
        index := update (fun _ => none) idx (some idx)
        queue := q, table := fun _ => none, nodeNum := 0, header := idx }

/-- `Reset`. -/
def LruHashMap.reset (m : LruHashMap n K V) : Bool × LruHashMap n K V :=
  let (idx, q) := (pushAll m.queue.reset).pop
  let m := { m with next := fun _ => none, before := fun _ => none, after := fun _ => none
                    index := fun _ => none, queue := q, table := fun _ => none }
  match idx with
  | none => (false, m)
  | some idx => (true,
      { m with before := update m.before idx (some idx), after := update m.after idx (some idx)
               index := update m.index idx (some idx), header := idx, nodeNum := 0 })

/-! ## The access list -/

/-- `AccessAddBefore`. -/
def LruHashMap.accessAddBefore (m : LruHashMap n K V) (e : Slot n) : Option (LruHashMap n K V) := do
  let m := { m with after := update m.after e (m.index m.header) }
  let m := { m with before := update m.before e (m.before m.header) }
  let b ← m.before e
  let m := { m with after := update m.after b (m.index e) }
  let a ← m.after e
  some { m with before := update m.before a (m.index e) }

/-- `AccessRemove`. -/
def LruHashMap.accessRemove (m : LruHashMap n K V) (e : Slot n) : Option (LruHashMap n K V) := do
  let b ← m.before e
  let m := { m with after := update m.after b (m.after e) }
  let a ← m.after e
  some { m with before := update m.before a (m.before e) }

/-- `RecordAccess`. -/
def LruHashMap.recordAccess (m : LruHashMap n K V) (e : Slot n) (isLru : Bool) :
    Option (LruHashMap n K V) :=
  if isLru then m.accessRemove e >>= fun m => m.accessAddBefore e else some m

/-- `if (pre == cur) m_table[idx] = next; else m_entry_array[pre].next = next;` in `Remove`. -/
def LruHashMap.unlink (m : LruHashMap n K V) (idx : ℕ) (pre : Idx n) (cur : Slot n) :
    Option (LruHashMap n K V) :=
  if pre = some cur then some { m with table := update m.table idx (m.next cur) }
  else pre.map fun p => { m with next := update m.next p (m.next cur) }

/-- The assignments of `AddEntry` to the new entry and to the table. -/
def LruHashMap.linkEntry (m : LruHashMap n K V) (e : Slot n) (key : K) (value : V) (idx : ℕ) :
    LruHashMap n K V :=
  { m with key := update m.key e key, value := update m.value e value
           index := update m.index e (some e), next := update m.next e (m.table idx)
           table := update m.table idx (some e) }

/-! ## Queries -/

/-- `GetSize`. -/
def LruHashMap.getSize (m : LruHashMap n K V) : ℤ := m.nodeNum

/-- `IsFull`. -/
def LruHashMap.isFull (m : LruHashMap n K V) : Bool := decide (m.nodeNum ≥ (n : ℤ))

/-- `GetFutureRemoveKey`, which always returns `true`. -/
def LruHashMap.getFutureRemoveKey (m : LruHashMap n K V) : Option (K × V) :=
  (m.after m.header).map fun eldest => (m.key eldest, m.value eldest)

/-- `GetLatestNodeKey` and `GetLatestNodeValue` for a field of the entries; `some none` is the return
value `false`. -/
def LruHashMap.getLatestNode {T : Type} (m : LruHashMap n K V) (field : Slot n → T) :
    Option (Option T) :=
  if 0 = m.nodeNum then some none else (m.before m.header).map fun e => some (field e)

/-- `GetLatestNodeKey`. -/
def LruHashMap.getLatestNodeKey (m : LruHashMap n K V) : Option (Option K) := m.getLatestNode m.key

/-- `GetLatestNodeValue`. -/
def LruHashMap.getLatestNodeValue (m : LruHashMap n K V) : Option (Option V) :=
  m.getLatestNode m.value

/-- The loop of `GetLatestNKeyValue`: the entries that are written out. -/
def LruHashMap.latestLoop (m : LruHashMap n K V) : ℕ → Idx n → Option (List (Slot n))
  | 0, _ => some []
  | _ + 1, none => none
  | k + 1, some e => (m.latestLoop k (m.before e)).map fun l => e :: l

/-- `GetLatestNKeyValue`: the return value, `*num` and the pairs. -/
def LruHashMap.getLatestNKeyValue (m : LruHashMap n K V) (num : ℤ) :
    Option (Bool × ℤ × List (K × V)) :=
  if 0 = m.nodeNum then some (false, num, [])
  else
    let num := if num > m.nodeNum then m.nodeNum else num
    (m.latestLoop num.toNat (m.before m.header)).map fun l =>
      (true, num, l.map fun e => (m.key e, m.value e))

/-! ## Lookup -/

variable [DecidableEq K] (code : K → UInt32)

/-- The bucket of a key; `code` is the cast of `GetHashCode`. -/
def bucket (n : ℕ) (key : K) : ℕ := getBucketIndex n (code key)

/-- The loop over a bucket chain. -/
def LruHashMap.findLoop (m : LruHashMap n K V) (key : K) : ℕ → Idx n → Option (Idx n)
  | 0, _ => none
  | _ + 1, none => some none
  | fuel + 1, some e =>
    if m.key e = key then some (some e) else m.findLoop key fuel (m.next e)

/-- The entry of `key`; a chain has at most `n + 2` entries. -/
def LruHashMap.find (m : LruHashMap n K V) (key : K) : Option (Idx n) :=
  m.findLoop key (n + 3) (m.table (bucket code n key))

/-- `Get(key, V* &value, is_lru)`: the entry whose value the pointer points to. -/
def LruHashMap.getRef (m : LruHashMap n K V) (key : K) (isLru : Bool) :
    Option (Idx n × LruHashMap n K V) := do
  match ← m.find code key with
  | none => some (none, m)
  | some e =>
    let m ← m.recordAccess e isLru
    some (some e, m)

/-- `Get(key, V &value, is_lru)`: the value that is copied. -/
def LruHashMap.get (m : LruHashMap n K V) (key : K) (isLru : Bool) :
    Option (Option V × LruHashMap n K V) := do
  match ← m.find code key with
  | none => some (none, m)
  | some e =>
    let value := m.value e
    let m ← m.recordAccess e isLru
    some (some value, m)

/-! ## Removal and insertion -/

/-- The loop of `Remove`. -/
def LruHashMap.removeLoop (key : K) (idx : ℕ) :
    ℕ → Idx n → Idx n → LruHashMap n K V → Option (Bool × LruHashMap n K V)
  | 0, _, _, _ => none
  | _ + 1, _, none, m => some (false, m)
  | fuel + 1, pre, some cur, m =>
    if m.key cur = key then do
      let m ← { m with nodeNum := m.nodeNum - 1 }.unlink idx pre cur
      let m ← m.accessRemove cur
      some (true, { m with queue := m.queue.push (some cur) })
    else LruHashMap.removeLoop key idx fuel (some cur) (m.next cur) m

/-- `Remove`. -/
def LruHashMap.remove (m : LruHashMap n K V) (key : K) : Option (Bool × LruHashMap n K V) :=
  let idx := bucket code n key
  LruHashMap.removeLoop key idx (n + 3) (m.table idx) (m.table idx) m

/-- The end of `AddEntry`: the oldest entry is removed when there are more than `m_max_entries`. -/
def LruHashMap.evict (m : LruHashMap n K V) : Option (Bool × LruHashMap n K V) :=
  if m.nodeNum > (n : ℤ) then do
    let eldest ← m.after m.header
    let r ← m.remove code (m.key eldest)
    some (true, r.2)
  else some (true, m)

/-- `AddEntry`. -/
def LruHashMap.addEntry (m : LruHashMap n K V) (key : K) (value : V) (idx : ℕ) :
    Option (Bool × LruHashMap n K V) :=
  let (new, q) := m.queue.pop
  let m := { m with queue := q }
  match new with
  | none => some (false, m)
  | some e => do
    let m ← (m.linkEntry e key value idx).accessAddBefore e
    { m with nodeNum := m.nodeNum + 1 }.evict code

/-- `Put`. -/
def LruHashMap.put (m : LruHashMap n K V) (key : K) (value : V) (isLru : Bool) :
    Option (Bool × LruHashMap n K V) := do
  match ← m.find code key with
  | some e =>
    let m ← { m with value := update m.value e value }.recordAccess e isLru
    some (true, m)
  | none => m.addEntry code key value (bucket code n key)

/-! ## Calls -/

/-- The calls. -/
inductive Op (K V : Type)
  | put (key : K) (value : V) (isLru : Bool)
  | get (key : K) (isLru : Bool)
  | getRef (key : K) (isLru : Bool)
  | remove (key : K)
  | reset
  | getSize
  | isFull
  | getLatestNodeKey
  | getLatestNodeValue
  | getLatestNKeyValue (num : ℕ)
  | getFutureRemoveKey

/-- What a call returns; an optional key or value is `none` when the call returns `false`. -/
inductive Res (K V : Type)
  | bool (b : Bool)
  | size (k : ℤ)
  | key (k : Option K)
  | value (v : Option V)
  | pair (p : K × V)
  | pairs (b : Bool) (num : ℤ) (l : List (K × V))
  deriving DecidableEq

/-- One call. -/
def LruHashMap.step (m : LruHashMap n K V) : Op K V → Option (Res K V × LruHashMap n K V)
  | .put k v lru => (m.put code k v lru).map fun r => (.bool r.1, r.2)
  | .get k lru => (m.get code k lru).map fun r => (.value r.1, r.2)
  | .getRef k lru => (m.getRef code k lru).map fun r => (.value (r.1.map r.2.value), r.2)
  | .remove k => (m.remove code k).map fun r => (.bool r.1, r.2)
  | .reset => some (.bool m.reset.1, m.reset.2)
  | .getSize => some (.size m.getSize, m)
  | .isFull => some (.bool m.isFull, m)
  | .getLatestNodeKey => m.getLatestNodeKey.map fun k => (.key k, m)
  | .getLatestNodeValue => m.getLatestNodeValue.map fun v => (.value v, m)
  | .getLatestNKeyValue num => (m.getLatestNKeyValue num).map fun r => (.pairs r.1 r.2.1 r.2.2, m)
  | .getFutureRemoveKey => m.getFutureRemoveKey.map fun p => (.pair p, m)

/-- A sequence of calls: what they return, and the map after them. -/
def LruHashMap.exec : LruHashMap n K V → List (Op K V) → Option (List (Res K V) × LruHashMap n K V)
  | m, [] => some ([], m)
  | m, op :: ops => do
    let r ← m.step code op
    let t ← LruHashMap.exec r.2 ops
    some (r.1 :: t.1, t.2)

end Backend.Lru
