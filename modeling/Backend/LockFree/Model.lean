import Backend.Lib.Run
import Backend.Lib.Ring

/-!
# `LockFreeQueue`: many producers and many consumers
(`base/dsalgo/gcc_4_1_plus/lock_free_queue.cc`)

A ring addressed by three shared indices, advanced by compare-and-swap. The machine interleaves any
number of threads in `Multi_Push` and `Multi_Pop`, one step for each shared read, slot access and
compare-and-swap.

* `LockFreeQueue`, `LockFreeQueue.init`, `getIdx`: the object, its `Init` and `GetIdx`;
* `Copy`, `Pc`, `Act`, `State`, `next`: the threads;
* `Step`, **`step_of_next`**: what one step can do.

Items are numbered in the order in which their compare-and-swap on `m_write_idx` succeeded. The
monitors `tag` (the number of the item in a slot), `committed`, `accepted` and `returned` are not read
by the code.
-/

set_option autoImplicit false

namespace Backend.LockFree

open Function

variable {ι T : Type} [DecidableEq ι]

/-- The fields of the object. -/
structure LockFreeQueue (T : Type) where
  readIdx : ℕ
  writeIdx : ℕ
  maxReadIdx : ℕ
  size : ℕ
  data : ℕ → T

/-- The constructor and `Init(size)`; `none` is the return value `false`. `size + 1` is a
`uint32_t`. -/
def LockFreeQueue.init (data : ℕ → T) (size : ℕ) : Option (LockFreeQueue T) :=
  if size ≤ 0 then none else some ⟨0, 0, 0, (size + 1) % 2 ^ 32, data⟩

/-- `GetIdx(idx)`. -/
def getIdx (size idx : ℕ) : ℕ := idx % 2 ^ 32 % size

theorem getIdx_succ {size n : ℕ} (h : 1 < size ∧ size < 2 ^ 32) :
    getIdx size (n % size + 1) = (n + 1) % size := by
  have : n % size < size := Nat.mod_lt _ (by omega)
  rw [getIdx, Nat.mod_eq_of_lt (show n % size + 1 < 2 ^ 32 by omega), slot_succ]

theorem init_one : LockFreeQueue.init (fun _ => 0) 1 = some ⟨0, 0, 0, 2, fun _ => 0⟩ := by
  simp [LockFreeQueue.init]

/-- What `Multi_Pop` has copied from a slot: the value and, for the monitor, the number of the item,
the number of successful pops and whether `m_read_idx` and `m_max_read_idx` differed at that moment. -/
structure Copy (T : Type) where
  value : T
  tag : Option ℕ
  pops : ℕ
  nonempty : Bool

/-- Where a thread is; `p` is the number of the item that the thread is pushing. -/
inductive Pc (T : Type)
  /-- outside the queue -/
  | idle
  /-- before `cur_read_idx = m_read_idx` -/
  | pushRead (x : T)
  /-- before `cur_write_idx = m_write_idx` and the test for a full queue -/
  | pushWrite (x : T) (curRead : ℕ)
  /-- before `CAS(&m_write_idx, cur_write_idx, new_write_idx)` -/
  | pushCas (x : T) (curWrite : ℕ)
  /-- before `m_data[cur_write_idx] = node` -/
  | pushStore (x : T) (curWrite p : ℕ)
  /-- before `CAS(&m_max_read_idx, cur_write_idx, new_write_idx)` -/
  | pushCommit (curWrite p : ℕ)
  /-- before `cur_read_idx = m_read_idx` -/
  | popRead
  /-- before `cur_max_read_idx = m_max_read_idx` and the test for an empty queue -/
  | popMax (curRead : ℕ)
  /-- before `node = m_data[cur_read_idx]` -/
  | popCopy (curRead : ℕ)
  /-- before `CAS(&m_read_idx, cur_read_idx, new_read_idx)` -/
  | popCas (curRead : ℕ) (c : Copy T)

/-- The object, the threads and the monitors. -/
structure State (ι T : Type) extends LockFreeQueue T where
  pc : ι → Pc T
  tag : ℕ → Option ℕ
  committed : ℕ
  accepted : List T
  returned : List (T × Option ℕ)

/-- All threads outside a queue that has just been initialised. -/
def State.ofQueue (q : LockFreeQueue T) : State ι T :=
  { toLockFreeQueue := q, pc := fun _ => .idle, tag := fun _ => none, committed := 0, accepted := [],
    returned := [] }

/-- What a thread can do: call an operation or go on. -/
inductive Act (T : Type)
  | push (x : T)
  | pop
  | go

/-- Move thread `t` to `c`. -/
def State.goto (s : State ι T) (t : ι) (c : Pc T) : State ι T := { s with pc := update s.pc t c }

theorem goto_pc (s : State ι T) (t : ι) (c : Pc T) : (s.goto t c).pc = update s.pc t c := rfl

/-- The compare-and-swap on `m_write_idx` succeeds. -/
def State.claim (s : State ι T) (t : ι) (x : T) (w : ℕ) : State ι T :=
  { s with writeIdx := getIdx s.size (w + 1), accepted := s.accepted ++ [x] }.goto t
    (.pushStore x w s.accepted.length)

/-- The write of the slot. -/
def State.store (s : State ι T) (t : ι) (x : T) (w p : ℕ) : State ι T :=
  { s with data := update s.data w x, tag := update s.tag w (some p) }.goto t (.pushCommit w p)

/-- The compare-and-swap on `m_max_read_idx` succeeds and `Multi_Push` returns `true`. -/
def State.commit (s : State ι T) (t : ι) (w : ℕ) : State ι T :=
  { s with maxReadIdx := getIdx s.size (w + 1), committed := s.committed + 1 }.goto t .idle

/-- The copy of a slot. -/
def State.copy (s : State ι T) (t : ι) (r : ℕ) : State ι T :=
  s.goto t (.popCas r ⟨s.data r, s.tag r, s.returned.length, s.readIdx != s.maxReadIdx⟩)

/-- The compare-and-swap on `m_read_idx` succeeds and `Multi_Pop` returns `true`. -/
def State.take (s : State ι T) (t : ι) (r : ℕ) (c : Copy T) : State ι T :=
  { s with readIdx := getIdx s.size (r + 1), returned := s.returned ++ [(c.value, c.tag)] }.goto t
    .idle

/-- Thread `t` goes on. -/
def State.go (s : State ι T) (t : ι) : Option (State ι T) :=
  match s.pc t with
  | .idle => none
  | .pushRead x => some (s.goto t (.pushWrite x s.readIdx))
  | .pushWrite x r => if getIdx s.size (s.writeIdx + 1) = getIdx s.size r then some (s.goto t .idle)
      else some (s.goto t (.pushCas x s.writeIdx))
  | .pushCas x w => if s.writeIdx = w then some (s.claim t x w) else some (s.goto t (.pushRead x))
  | .pushStore x w p => some (s.store t x w p)
  | .pushCommit w _ => if s.maxReadIdx = w then some (s.commit t w) else some s
  | .popRead => some (s.goto t (.popMax s.readIdx))
  | .popMax r => if r = s.maxReadIdx then some (s.goto t .idle) else some (s.goto t (.popCopy r))
  | .popCopy r => some (s.copy t r)
  | .popCas r c => if s.readIdx = r then some (s.take t r c) else some (s.goto t .popRead)

/-- One step of thread `a.1`. -/
def next (s : State ι T) (a : ι × Act T) : Option (State ι T) :=
  match a.2 with
  | .push x => match s.pc a.1 with
    | .idle => some (s.goto a.1 (.pushRead x))
    | _ => none
  | .pop => match s.pc a.1 with
    | .idle => some (s.goto a.1 .popRead)
    | _ => none
  | .go => s.go a.1

/-- A point at which a thread has neither claimed nor copied a slot. -/
def Pc.quiet : Pc T → Bool
  | .pushStore _ _ _ | .pushCommit _ _ | .popCas _ _ => false
  | _ => true

/-- What one step of thread `t` can do: a private move, one of the three compare-and-swaps, the write
or the copy of a slot. -/
inductive Step (s : State ι T) (t : ι) : State ι T → Prop
  | move (c : Pc T) : c.quiet = true → Step s t (s.goto t c)
  | spin : Step s t s
  | claim (x : T) (w : ℕ) : s.pc t = .pushCas x w → s.writeIdx = w → Step s t (s.claim t x w)
  | store (x : T) (w p : ℕ) : s.pc t = .pushStore x w p → Step s t (s.store t x w p)
  | commit (w p : ℕ) : s.pc t = .pushCommit w p → s.maxReadIdx = w → Step s t (s.commit t w)
  | copy (r : ℕ) : s.pc t = .popCopy r → Step s t (s.copy t r)
  | take (r : ℕ) (c : Copy T) : s.pc t = .popCas r c → s.readIdx = r → Step s t (s.take t r c)

theorem step_of_go {s s' : State ι T} {t : ι} (h : s.go t = some s') : Step s t s' := by
  unfold State.go at h
  split at h
  case h_1 => cases h
  case h_2 x hp => cases h; exact .move _ rfl
  case h_3 x r hp => split at h <;> cases h <;> exact .move _ rfl
  case h_4 x w hp =>
    split at h <;> cases h
    · exact .claim x w hp ‹_›
    · exact .move _ rfl
  case h_5 x w p hp => cases h; exact .store x w p hp
  case h_6 w p hp =>
    split at h <;> cases h
    · exact .commit w p hp ‹_›
    · exact .spin
  case h_7 hp => cases h; exact .move _ rfl
  case h_8 r hp => split at h <;> cases h <;> exact .move _ rfl
  case h_9 r hp => cases h; exact .copy r hp
  case h_10 r c hp =>
    split at h <;> cases h
    · exact .take r c hp ‹_›
    · exact .move _ rfl

/-- **What one step can do.** -/
theorem step_of_next {s s' : State ι T} {a : ι × Act T} (h : next s a = some s') :
    Step s a.1 s' := by
  obtain ⟨t, a⟩ := a
  cases a with
  | push x =>
    simp only [next] at h
    split at h <;> cases h
    exact .move _ rfl
  | pop =>
    simp only [next] at h
    split at h <;> cases h
    exact .move _ rfl
  | go => exact step_of_go h

end Backend.LockFree
