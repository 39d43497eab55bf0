import Backend.Lib.Run
import Mathlib.Data.Fin.Basic
import Mathlib.Logic.Function.Basic

/-!
# `XServer`: connection slots (`base/longconn/xserver.cc`)

The accept thread takes a `CONN` from the free list of a worker and sends its index through the
worker's pipe; the worker enables its bufferevent, reads from it, and puts it back when it closes the
connection. Each callback is one step.

* `Conn`, `Worker`, `State`: a slot, a worker with its list and its pipe, the server;
* `initConnList`, `getFreeConn`, `putFreeConn`, `closeConn`: the free list;
* `fillLoop`, `readLoop`, `onConnRead`: the read callback with its two loops;
* `acceptLoop`, `Act`, `next`: the callbacks as steps.

A worker has the slots `0, …, n`. Accepted descriptors are numbered; `out`, `assigned`, `closed` and
`stale` are monitors.
-/

set_option autoImplicit false

namespace Backend.XServer

open Function

/-- `kConnBufLen`. -/
def kConnBufLen : ℕ := 2048

/-- A slot: `m_next`, `m_fd` (`none` is `-1`), the bytes `m_in_buf[0 .. m_in_buf_len)`, the input
buffer of `m_bufev` and whether it is enabled; `out`: handed out and not closed since. -/
structure Conn (n : ℕ) where
  next : Option (Fin (n + 1))
  fd : Option ℕ
  inBuf : List UInt8
  input : List UInt8
  enabled : Bool
  out : Bool

/-- A worker: its list `m_conn_list` and its pipe. Monitors: the descriptors assigned to its slots,
those closed by `close_conn`, and whether `CheckValid` or `Process` was called on a closed slot. -/
structure Worker (n : ℕ) where
  head : Option (Fin (n + 1))
  tail : Fin (n + 1)
  conn : Fin (n + 1) → Conn n
  pipe : List (Fin (n + 1))
  assigned : List ℕ
  closed : List (Option ℕ)
  stale : Bool

/-- The server; `accepted` is the number of accepted descriptors. -/
structure State (m n : ℕ) where
  worker : Fin m → Worker n
  workIdx : Fin m
  accepted : ℕ

variable {m n : ℕ}

/-- `m_next` after `init_conn_list`: the next element of the array. -/
def succ? (i : Fin (n + 1)) : Option (Fin (n + 1)) :=
  if h : i.val + 1 < n + 1 then some ⟨i.val + 1, h⟩ else none

/-- `init_conn_list(n)`. -/
def initConnList (n : ℕ) : Worker n :=
  { head := some 0, tail := Fin.last n, pipe := [], assigned := [], closed := [], stale := false,
    conn := fun i => { next := succ? i, fd := none, inBuf := [], input := [], enabled := false,
                       out := false } }

/-- `Init` with `m` workers. -/
def State.init (m n : ℕ) (h : 0 < m) : State m n :=
  { worker := fun _ => initConnList n, workIdx := ⟨0, h⟩, accepted := 0 }

/-- Change slot `i`. -/
def Worker.set (w : Worker n) (i : Fin (n + 1)) (c : Conn n) : Worker n :=
  { w with conn := update w.conn i c }

/-! ## The free list -/

/-- `get_free_conn`: `some none` is the return value `NULL`; `none` is a `NULL` head, which the code
dereferences. -/
def Worker.getFreeConn (w : Worker n) : Option (Option (Fin (n + 1) × Worker n)) :=
  if w.head ≠ some w.tail then
    w.head.map fun i =>
      some (i, { w.set i { w.conn i with out := true } with head := (w.conn i).next })
  else some none

/-- `put_free_conn`. -/
def Worker.putFreeConn (w : Worker n) (i : Fin (n + 1)) : Worker n :=
  { w.set w.tail { w.conn w.tail with next := some i } with tail := i }

/-- `close_conn`. -/
def Worker.closeConn (w : Worker n) (i : Fin (n + 1)) : Worker n :=
  { w.set i { w.conn i with inBuf := [], enabled := false, out := false } with
      closed := w.closed ++ [(w.conn i).fd] }.putFreeConn i

/-! ## The read callback -/

/-- The inner loop: read until the buffer is full or there is no data. It returns the buffer, the
rest of the input and the last `free_size`. The terminator that is written after it changes nothing:
behind a full buffer lies the low byte of `m_in_buf_len`, which is `0` then. -/
def fillLoop : ℕ → List UInt8 → List UInt8 → Option (List UInt8 × List UInt8 × ℕ)
  | 0, _, _ => none
  | fuel + 1, buf, input =>
    let free := kConnBufLen - buf.length
    if 0 = free then some (buf, input, free)
    else
      let got := input.take free
      if got.length = 0 then some (buf, input, free) else fillLoop fuel (buf ++ got) (input.drop free)

/-- `CheckValid` or `Process` is called on slot `i`. -/
def Worker.use (w : Worker n) (i : Fin (n + 1)) : Worker n :=
  { w with stale := w.stale || !(w.conn i).out }

/-- What the outer loop does with the data it has read; `ok` is the result of `CheckValid`. -/
def Worker.handle (w : Worker n) (i : Fin (n + 1)) (ok : Bool) : Worker n :=
  let w := w.use i
  if ok then
    let w := w.use i
    w.set i { w.conn i with inBuf := [] }
  else w.closeConn i

/-- The outer loop; `ok k` is the result of the `k`-th call of `CheckValid` in this callback. -/
def readLoop (ok : ℕ → Bool) (i : Fin (n + 1)) : ℕ → ℕ → Worker n → Option (Worker n)
  | 0, _, _ => none
  | fuel + 1, k, w =>
    match fillLoop 3 (w.conn i).inBuf (w.conn i).input with
    | none => none
    | some (buf, input, free) =>
      let w := w.set i { w.conn i with inBuf := buf, input := input }
      let w' := if buf.length > 0 then w.handle i (ok k) else w
      if 0 ≠ free then some w' else readLoop ok i fuel (if buf.length > 0 then k + 1 else k) w'

/-- `on_conn_read` after `data` has arrived. -/
def Worker.onConnRead (w : Worker n) (i : Fin (n + 1)) (data : List UInt8) (ok : ℕ → Bool) :
    Option (Worker n) :=
  let w := w.set i { w.conn i with input := (w.conn i).input ++ data }
  readLoop ok i ((w.conn i).input.length + 2) 0 w

/-! ## The steps -/

/-- `m_work_idx++` reduced modulo `m_work_num`. -/
def nextIdx (i : Fin m) : Fin m := ⟨(i.val + 1) % m, Nat.mod_lt _ (Nat.zero_lt_of_lt i.isLt)⟩

/-- Change worker `w`. -/
def State.setWorker (s : State m n) (w : Fin m) (x : Worker n) : State m n :=
  { s with worker := update s.worker w x }

/-- The loop of `accept_action` over the workers, with at most `k` retries; the descriptor is the
last accepted one. -/
def acceptLoop : ℕ → State m n → Option (State m n)
  | k, s =>
    let w := s.workIdx
    let s := { s with workIdx := nextIdx s.workIdx }
    match (s.worker w).getFreeConn with
    | none => none
    | some (some (i, x)) =>
      some (s.setWorker w { x.set i { x.conn i with fd := some (s.accepted - 1) } with
                              pipe := x.pipe ++ [i], assigned := x.assigned ++ [s.accepted - 1] })
    | some none => match k with
      | 0 => some s
      | k + 1 => acceptLoop k s

/-- The steps: a callback of the accept thread or of a worker thread. -/
inductive Act (m n : ℕ)
  /-- `accept_action`, with a descriptor -/
  | accept
  /-- `accept_action`, when `accept_client` returns `-1` -/
  | acceptFail
  /-- `receive_notify_action` -/
  | notify (w : Fin m)
  /-- `on_conn_read` -/
  | read (w : Fin m) (i : Fin (n + 1)) (data : List UInt8) (ok : ℕ → Bool)
  /-- `on_conn_err` -/
  | err (w : Fin m) (i : Fin (n + 1))

/-- One step. `++retry < m_work_num / 2` allows `m_work_num / 2 - 1` retries. -/
def next (s : State m n) : Act m n → Option (State m n)
  | .accept => acceptLoop (m / 2 - 1) { s with accepted := s.accepted + 1 }
  | .acceptFail => some s
  | .notify w => match (s.worker w).pipe with
    | [] => none
    | i :: l =>
      let x := s.worker w
      some (s.setWorker w { x.set i { x.conn i with enabled := true } with pipe := l })
  | .read w i data ok =>
    if ((s.worker w).conn i).enabled then
      ((s.worker w).onConnRead i data ok).map (s.setWorker w)
    else none
  | .err w i =>
    if ((s.worker w).conn i).enabled then some (s.setWorker w ((s.worker w).closeConn i)) else none

end Backend.XServer
