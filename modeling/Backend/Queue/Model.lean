import Backend.Lib.Run
import Backend.Lib.Tally
import Backend.Lib.Ring
import Backend.Word

/-!
# `CommonQueue`: the bounded queue of `base/dsalgo/common_queue.cc`

Producers and consumers hold different mutexes; only the two semaphores keep them apart. The
machine interleaves any number of threads, one step for each semaphore wait, lock, slot access,
index advance, semaphore post and unlock.

* `CommonQueue`, `CommonQueue.new`, `CommonQueue.init`: the object and its `Init`;
* `Pc`, `Op`, `Act`, `State`, `next`: the threads inside `WaitTillPush`, `WaitTimePush`,
  `WaitTillPop` and `WaitTimePop`;
* `Slot`: a monitor that no code reads, recording which slot is being written or read;
* `Step`, **`step_of_next`**: what one step can do.
-/

set_option autoImplicit false

namespace Backend.Queue

open Function

variable {ι T : Type} [DecidableEq ι]

/-- The largest value of a semaphore. -/
def semValueMax : ℕ := 2 ^ 31 - 1

/-- `sem_post`: `none` is the return value `-1`. -/
def semPost (v : ℕ) : Option ℕ := if v < semValueMax then some (v + 1) else none

/-- `sem_init` with value `v`: `none` is the return value `-1`. -/
def semInit (v : ℕ) : Option ℕ := if v ≤ semValueMax then some v else none

/-- The fields of the object. `m_data` is a total map; the slots in use are those below `size`. -/
structure CommonQueue (T : Type) where
  data : ℕ → T
  tail : ℕ
  head : ℕ
  size : ℕ
  workSem : ℕ
  freeSem : ℕ

/-- The constructor. -/
def CommonQueue.new (data : ℕ → T) : CommonQueue T := ⟨data, 0, 0, 0, 0, 0⟩

/-- `Init(size)`; `zero` is the value `memset` leaves in a slot. `none`: the loop does not end, or
`Init` returns `false`. -/
def CommonQueue.init (zero : T) (q : CommonQueue T) (size : ℕ) : Option (CommonQueue T) := do
  let m ← doubleLoop u32 33 1 size
  let work ← semInit 0
  let free ← semInit m.toNat
  return { q with size := m.toNat, data := fun _ => zero, workSem := work, freeSem := free }

/-- The masked index: `m_tail & (m_size - 1)` on `uint32_t`. -/
def mask (size i : ℕ) : ℕ := i % 2 ^ 32 &&& (size - 1)

/-- `WaitTill…` waits by `sem_wait`, `WaitTime…` by `sem_timedwait`. -/
inductive Wait
  | till
  | time
  deriving DecidableEq

/-- A call of one of the four operations. -/
inductive Op (T : Type)
  | push (w : Wait) (node : T)
  | pop (w : Wait)

/-- Where a thread is. The names give what the thread does next. -/
inductive Pc (T : Type)
  /-- outside the queue -/
  | idle
  /-- in the loop around the wait on `m_free_sem` -/
  | pushWait (w : Wait) (node : T)
  /-- before `pthread_mutex_lock(&m_w_mutex)` -/
  | pushLock (node : T)
  /-- before the access to `m_data[m_tail]` -/
  | pushEnter (node : T)
  /-- writing `m_data[m_tail]`, then advancing `m_tail` -/
  | pushWrite (node : T)
  /-- before `sem_post(&m_work_sem)` -/
  | pushPost
  /-- before the unlock; `ret` is what the call returns -/
  | pushUnlock (ret : Bool)
  /-- in the loop around the wait on `m_work_sem` -/
  | popWait (w : Wait)
  /-- before `pthread_mutex_lock(&m_r_mutex)` -/
  | popLock
  /-- before the access to `m_data[m_head]` -/
  | popEnter
  /-- reading `m_data[m_head]`, then advancing `m_head` -/
  | popRead
  /-- before `sem_post(&m_free_sem)` -/
  | popPost (node : T)
  /-- before the unlock; `ret` is what the call returns -/
  | popUnlock (node : T) (ret : Bool)

/-- The first control point of a call. -/
def Op.entry : Op T → Pc T
  | .push w x => .pushWait w x
  | .pop w => .popWait w

/-- What a thread can do: start a call, be interrupted in a wait (`EINTR`), time out in a
`sem_timedwait`, or go on. -/
inductive Act (T : Type)
  | call (op : Op T)
  | eintr
  | timeout
  | go

/-- The monitored state of a slot. -/
inductive Slot
  | free
  | writing
  | full
  | reading
  deriving DecidableEq

/-- The shared memory, the threads and three monitors: `slot`, the values accepted by pushes in
the order of their critical sections and the values read by pops in the order of theirs. -/
structure State (ι T : Type) extends CommonQueue T where
  wLocked : Bool
  rLocked : Bool
  pc : ι → Pc T
  slot : ℕ → Slot
  accepted : List T
  returned : List T

/-- All threads outside a queue that has just been initialised. -/
def State.ofQueue (q : CommonQueue T) : State ι T :=
  { toCommonQueue := q, wLocked := false, rLocked := false, pc := fun _ => .idle,
    slot := fun _ => .free, accepted := [], returned := [] }

/-- Move thread `t` to `c`. -/
def State.goto (s : State ι T) (t : ι) (c : Pc T) : State ι T := { s with pc := update s.pc t c }

/-- `sem_wait` returned `0`: thread `t` has the token. -/
def State.takeFree (s : State ι T) (t : ι) (x : T) : State ι T :=
  { s with freeSem := s.freeSem - 1 }.goto t (.pushLock x)

/-- The write to `m_data[m_tail]` starts. -/
def State.startWrite (s : State ι T) (t : ι) (x : T) : State ι T :=
  { s with slot := update s.slot s.tail .writing }.goto t (.pushWrite x)

/-- The write is complete; `m_tail` advances. -/
def State.endWrite (s : State ι T) (t : ι) (x : T) : State ι T :=
  { s with data := update s.data s.tail x, slot := update s.slot s.tail .full,
           tail := mask s.size (s.tail + 1), accepted := s.accepted ++ [x] }.goto t .pushPost

/-- `sem_post(&m_work_sem)`. -/
def State.postWork (s : State ι T) (t : ι) : State ι T :=
  match semPost s.workSem with
  | some v => { s with workSem := v }.goto t (.pushUnlock true)
  | none => s.goto t (.pushUnlock false)

/-- `sem_wait` returned `0`: thread `t` has the token. -/
def State.takeWork (s : State ι T) (t : ι) : State ι T :=
  { s with workSem := s.workSem - 1 }.goto t .popLock

/-- The read of `m_data[m_head]` starts. -/
def State.startRead (s : State ι T) (t : ι) : State ι T :=
  { s with slot := update s.slot s.head .reading }.goto t .popRead

/-- The read is complete; `m_head` advances. -/
def State.endRead (s : State ι T) (t : ι) : State ι T :=
  { s with slot := update s.slot s.head .free, head := mask s.size (s.head + 1),
           returned := s.returned ++ [s.data s.head] }.goto t (.popPost (s.data s.head))

/-- `sem_post(&m_free_sem)`. -/
def State.postFree (s : State ι T) (t : ι) (x : T) : State ι T :=
  match semPost s.freeSem with
  | some v => { s with freeSem := v }.goto t (.popUnlock x true)
  | none => s.goto t (.popUnlock x false)

/-- Thread `t` goes on. -/
def State.go (s : State ι T) (t : ι) : Option (State ι T) :=
  match s.pc t with
  | .idle => none
  | .pushWait _ x => if 0 < s.freeSem then some (s.takeFree t x) else none
  | .pushLock x => if s.wLocked then none else some ({ s with wLocked := true }.goto t (.pushEnter x))
  | .pushEnter x => some (s.startWrite t x)
  | .pushWrite x => some (s.endWrite t x)
  | .pushPost => some (s.postWork t)
  | .pushUnlock _ => some ({ s with wLocked := false }.goto t .idle)
  | .popWait _ => if 0 < s.workSem then some (s.takeWork t) else none
  | .popLock => if s.rLocked then none else some ({ s with rLocked := true }.goto t .popEnter)
  | .popEnter => some (s.startRead t)
  | .popRead => some (s.endRead t)
  | .popPost x => some (s.postFree t x)
  | .popUnlock _ _ => some ({ s with rLocked := false }.goto t .idle)

/-- One step of thread `a.1`. -/
def next (s : State ι T) (a : ι × Act T) : Option (State ι T) :=
  match a.2 with
  | .call op => match s.pc a.1 with
    | .idle => some (s.goto a.1 op.entry)
    | _ => none
  | .eintr => match s.pc a.1 with
    | .pushWait _ _ => some s
    | .popWait _ => some s
    | _ => none
  | .timeout => match s.pc a.1 with
    | .pushWait .time _ => some (s.goto a.1 .idle)
    | .popWait .time => some (s.goto a.1 .idle)
    | _ => none
  | .go => s.go a.1

/-- What one step of thread `t` can do. -/
inductive Step (s : State ι T) (t : ι) : Act T → State ι T → Prop
  | call (op : Op T) : s.pc t = .idle → Step s t (.call op) (s.goto t op.entry)
  | eintrPush (w : Wait) (x : T) : s.pc t = .pushWait w x → Step s t .eintr s
  | eintrPop (w : Wait) : s.pc t = .popWait w → Step s t .eintr s
  | timeoutPush (x : T) : s.pc t = .pushWait .time x → Step s t .timeout (s.goto t .idle)
  | timeoutPop : s.pc t = .popWait .time → Step s t .timeout (s.goto t .idle)
  | takeFree (w : Wait) (x : T) : s.pc t = .pushWait w x → 0 < s.freeSem →
      Step s t .go (s.takeFree t x)
  | lockW (x : T) : s.pc t = .pushLock x → s.wLocked = false →
      Step s t .go ({ s with wLocked := true }.goto t (.pushEnter x))
  | startWrite (x : T) : s.pc t = .pushEnter x → Step s t .go (s.startWrite t x)
  | endWrite (x : T) : s.pc t = .pushWrite x → Step s t .go (s.endWrite t x)
  | postWork : s.pc t = .pushPost → Step s t .go (s.postWork t)
  | unlockW (r : Bool) : s.pc t = .pushUnlock r →
      Step s t .go ({ s with wLocked := false }.goto t .idle)
  | takeWork (w : Wait) : s.pc t = .popWait w → 0 < s.workSem → Step s t .go (s.takeWork t)
  | lockR : s.pc t = .popLock → s.rLocked = false →
      Step s t .go ({ s with rLocked := true }.goto t .popEnter)
  | startRead : s.pc t = .popEnter → Step s t .go (s.startRead t)
  | endRead : s.pc t = .popRead → Step s t .go (s.endRead t)
  | postFree (x : T) : s.pc t = .popPost x → Step s t .go (s.postFree t x)
  | unlockR (x : T) (r : Bool) : s.pc t = .popUnlock x r →
      Step s t .go ({ s with rLocked := false }.goto t .idle)

theorem step_of_go {s s' : State ι T} {t : ι} (h : s.go t = some s') : Step s t .go s' := by
  unfold State.go at h
  split at h
  case h_1 => cases h
  case h_2 w x hp => split at h <;> cases h; exact .takeFree w x hp ‹_›
  case h_3 x hp => split at h <;> cases h; exact .lockW x hp (Bool.eq_false_iff.mpr ‹_›)
  case h_4 x hp => cases h; exact .startWrite x hp
  case h_5 x hp => cases h; exact .endWrite x hp
  case h_6 hp => cases h; exact .postWork hp
  case h_7 r hp => cases h; exact .unlockW r hp
  case h_8 w hp => split at h <;> cases h; exact .takeWork w hp ‹_›
  case h_9 hp => split at h <;> cases h; exact .lockR hp (Bool.eq_false_iff.mpr ‹_›)
  case h_10 hp => cases h; exact .startRead hp
  case h_11 hp => cases h; exact .endRead hp
  case h_12 x hp => cases h; exact .postFree x hp
  case h_13 x r hp => cases h; exact .unlockR x r hp

/-- **What one step can do.** -/
theorem step_of_next {s s' : State ι T} {a : ι × Act T} (h : next s a = some s') :
    Step s a.1 a.2 s' := by
  obtain ⟨t, a⟩ := a
  cases a with
  | call op =>
    simp only [next] at h
    split at h <;> cases h
    exact .call op ‹_›
  | eintr =>
    simp only [next] at h
    split at h <;> cases h
    · exact .eintrPush _ _ ‹_›
    · exact .eintrPop _ ‹_›
  | timeout =>
    simp only [next] at h
    split at h <;> cases h
    · exact .timeoutPush _ ‹_›
    · exact .timeoutPop ‹_›
  | go => exact step_of_go h

end Backend.Queue
