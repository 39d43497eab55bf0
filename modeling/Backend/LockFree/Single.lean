import Backend.LockFree.Model

/-!
# `LockFreeQueue`: one producer and any number of consumers
(`base/dsalgo/gcc_4_1_plus/lock_free_queue.cc`)

One thread is in `Single_Push`, the threads `ι` are in `Single_Pop`; there is one step for each shared
read, slot access and compare-and-swap.

* `PushPc`, `PopPc`, `Act`, `State`, `next`: the threads;
* `Step`, **`step_of_next`**: what one step can do.

Items are numbered in the order in which they are published on `m_write_idx`. The monitors `tag` (the
number of the item in a slot), `accepted` and `returned` are not read by the code.
-/

set_option autoImplicit false

namespace Backend.LockFree.Single

open Function

variable {ι T : Type} [DecidableEq ι]

/-- Where the producer is. -/
inductive PushPc (T : Type)
  /-- no call yet -/
  | idle
  /-- before `cur_read_idx = m_read_idx` -/
  | read (x : T)
  /-- before `cur_write_idx = m_write_idx` and the test for a full queue -/
  | write (x : T) (curRead : ℕ)
  /-- before `m_data[cur_write_idx] = node` -/
  | store (x : T) (curWrite newWrite : ℕ)
  /-- before `m_write_idx` is read for the compare-and-swap -/
  | old (x : T) (newWrite : ℕ)
  /-- before `__sync_val_compare_and_swap(&m_write_idx, old, new_write_idx)` -/
  | cas (x : T) (old newWrite : ℕ)
  /-- `Single_Push` has returned `ret` -/
  | done (ret : Bool)
  deriving DecidableEq

/-- Where a consumer is. -/
inductive PopPc (T : Type)
  /-- no call yet -/
  | idle
  /-- before `cur_read_idx = m_read_idx` -/
  | read
  /-- before `cur_max_read_idx = m_write_idx` and the test for an empty queue -/
  | write (curRead : ℕ)
  /-- before `node = m_data[cur_read_idx]` -/
  | copy (curRead : ℕ)
  /-- before `CAS(&m_read_idx, cur_read_idx, new_read_idx)`; `tag` is the number of the item copied -/
  | cas (curRead : ℕ) (node : T) (tag : Option ℕ)
  /-- `Single_Pop` has returned `ret` -/
  | done (ret : Bool)
  deriving DecidableEq

/-- The object, the threads and the monitors. -/
structure State (ι T : Type) extends LockFreeQueue T where
  prod : PushPc T
  pc : ι → PopPc T
  tag : ℕ → Option ℕ
  accepted : List T
  returned : List (T × Option ℕ)

/-- All threads outside a queue that has just been initialised. -/
def State.ofQueue (q : LockFreeQueue T) : State ι T :=
  { toLockFreeQueue := q, prod := .idle, pc := fun _ => .idle, tag := fun _ => none, accepted := [],
    returned := [] }

/-- What can happen: a call, or a thread goes on. -/
inductive Act (ι T : Type)
  | push (x : T)
  | prod
  | pop (t : ι)
  | cons (t : ι)

/-- No call of `Single_Push` is in progress. -/
def PushPc.outside : PushPc T → Bool
  | .idle | .done _ => true
  | _ => false

/-- No call of `Single_Pop` is in progress. -/
def PopPc.outside : PopPc T → Bool
  | .idle | .done _ => true
  | _ => false

/-- Move the producer to `c`. -/
def State.goProd (s : State ι T) (c : PushPc T) : State ι T := { s with prod := c }

/-- Move consumer `t` to `c`. -/
def State.goto (s : State ι T) (t : ι) (c : PopPc T) : State ι T := { s with pc := update s.pc t c }

/-- The write of the slot. -/
def State.store (s : State ι T) (x : T) (w w' : ℕ) : State ι T :=
  { s with data := update s.data w x, tag := update s.tag w (some s.accepted.length)
           prod := .old x w' }

/-- The compare-and-swap on `m_write_idx` succeeds. -/
def State.publish (s : State ι T) (x : T) (w' : ℕ) : State ι T :=
  { s with writeIdx := w', accepted := s.accepted ++ [x], prod := .done true }

/-- The compare-and-swap on `m_read_idx` succeeds. -/
def State.take (s : State ι T) (t : ι) (r : ℕ) (v : T) (g : Option ℕ) : State ι T :=
  { s with readIdx := getIdx s.size (r + 1), returned := s.returned ++ [(v, g)] }.goto t (.done true)

/-- The producer goes on. What `__sync_val_compare_and_swap` returns is not looked at. -/
def State.goPush (s : State ι T) : Option (State ι T) :=
  match s.prod with
  | .idle | .done _ => none
  | .read x => some (s.goProd (.write x s.readIdx))
  | .write x r =>
    if getIdx s.size (s.writeIdx + 1) = getIdx s.size r then some (s.goProd (.done false))
    else some (s.goProd (.store x s.writeIdx (getIdx s.size (s.writeIdx + 1))))
  | .store x w w' => some (s.store x w w')
  | .old x w' => some (s.goProd (.cas x s.writeIdx w'))
  | .cas x o w' => if s.writeIdx = o then some (s.publish x w') else some (s.goProd (.done true))

/-- Consumer `t` goes on. -/
def State.goPop (s : State ι T) (t : ι) : Option (State ι T) :=
  match s.pc t with
  | .idle | .done _ => none
  | .read => some (s.goto t (.write s.readIdx))
  | .write r => if r = s.writeIdx then some (s.goto t (.done false)) else some (s.goto t (.copy r))
  | .copy r => some (s.goto t (.cas r (s.data r) (s.tag r)))
  | .cas r v g => if s.readIdx = r then some (s.take t r v g) else some (s.goto t .read)

/-- One step. -/
def next (s : State ι T) : Act ι T → Option (State ι T)
  | .push x => if s.prod.outside then some (s.goProd (.read x)) else none
  | .prod => s.goPush
  | .pop t => if (s.pc t).outside then some (s.goto t .read) else none
  | .cons t => s.goPop t

/-- What one step can do: the producer calls, reads, finds the queue full or not, writes the slot, reads
again and publishes; a consumer calls, reads, finds the queue empty or not, copies the slot, and takes it
or begins again. -/
inductive Step (s : State ι T) : Act ι T → State ι T → Prop
  | push (x : T) : s.prod.outside = true → Step s (.push x) (s.goProd (.read x))
  | pushRead (x : T) : s.prod = .read x → Step s .prod (s.goProd (.write x s.readIdx))
  | full (x : T) (r : ℕ) : s.prod = .write x r → getIdx s.size (s.writeIdx + 1) = getIdx s.size r →
      Step s .prod (s.goProd (.done false))
  | room (x : T) (r : ℕ) : s.prod = .write x r → getIdx s.size (s.writeIdx + 1) ≠ getIdx s.size r →
      Step s .prod (s.goProd (.store x s.writeIdx (getIdx s.size (s.writeIdx + 1))))
  | store (x : T) (w w' : ℕ) : s.prod = .store x w w' → Step s .prod (s.store x w w')
  | old (x : T) (w' : ℕ) : s.prod = .old x w' → Step s .prod (s.goProd (.cas x s.writeIdx w'))
  | publish (x : T) (o w' : ℕ) : s.prod = .cas x o w' → s.writeIdx = o → Step s .prod (s.publish x w')
  | lost (x : T) (o w' : ℕ) : s.prod = .cas x o w' → s.writeIdx ≠ o →
      Step s .prod (s.goProd (.done true))
  | pop (t : ι) : (s.pc t).outside = true → Step s (.pop t) (s.goto t .read)
  | popRead (t : ι) : s.pc t = .read → Step s (.cons t) (s.goto t (.write s.readIdx))
  | empty (t : ι) (r : ℕ) : s.pc t = .write r → r = s.writeIdx → Step s (.cons t) (s.goto t (.done false))
  | nonempty (t : ι) (r : ℕ) : s.pc t = .write r → r ≠ s.writeIdx → Step s (.cons t) (s.goto t (.copy r))
  | copy (t : ι) (r : ℕ) : s.pc t = .copy r → Step s (.cons t) (s.goto t (.cas r (s.data r) (s.tag r)))
  | take (t : ι) (r : ℕ) (v : T) (g : Option ℕ) : s.pc t = .cas r v g → s.readIdx = r →
      Step s (.cons t) (s.take t r v g)
  | retry (t : ι) (r : ℕ) (v : T) (g : Option ℕ) : s.pc t = .cas r v g → s.readIdx ≠ r →
      Step s (.cons t) (s.goto t .read)

/-- **What one step can do.** -/
theorem step_of_next {s s' : State ι T} {a : Act ι T} (h : next s a = some s') : Step s a s' := by
  cases a with
  | push x =>
    simp only [next, Option.ite_none_right_eq_some, Option.some.injEq] at h
    obtain ⟨hp, rfl⟩ := h
    exact .push x hp
  | prod =>
    simp only [next, State.goPush] at h
    split at h
    case h_1 => cases h
    case h_2 => cases h
    case h_3 x hp =>
      cases h
      exact .pushRead x hp
    case h_4 x r hp =>
      split at h <;> cases h
      · exact .full x r hp ‹_›
      · exact .room x r hp ‹_›
    case h_5 x w w' hp =>
      cases h
      exact .store x w w' hp
    case h_6 x w' hp =>
      cases h
      exact .old x w' hp
    case h_7 x o w' hp =>
      split at h <;> cases h
      · exact .publish x o w' hp ‹_›
      · exact .lost x o w' hp ‹_›
  | pop t =>
    simp only [next, Option.ite_none_right_eq_some, Option.some.injEq] at h
    obtain ⟨hp, rfl⟩ := h
    exact .pop t hp
  | cons t =>
    simp only [next, State.goPop] at h
    split at h
    case h_1 => cases h
    case h_2 => cases h
    case h_3 hp =>
      cases h
      exact .popRead t hp
    case h_4 r hp =>
      split at h <;> cases h
      · exact .empty t r hp ‹_›
      · exact .nonempty t r hp ‹_›
    case h_5 r hp =>
      cases h
      exact .copy t r hp
    case h_6 r v g hp =>
      split at h <;> cases h
      · exact .take t r v g hp ‹_›
      · exact .retry t r v g hp ‹_›

end Backend.LockFree.Single
