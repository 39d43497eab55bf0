import Backend.Queue.Steps
import Mathlib.Data.Fintype.Sum

/-!
# `ThreadPool`: workers over a task queue (`base/os/thread_pool.cc`)

The pool is the machine of `Backend.Queue.Model` with two kinds of threads: callers of `AddTask`
(`Sum.inl`), which push, and the workers in `thread_pool_routine` (`Sum.inr`), which pop.

* `Job`: a call of `AddTask`, with its task;
* `Worker`, `Stopper`, `Act`, `State`, `next`: the workers, the caller of `Stop`, one step;
* `Step`, **`step_of_next`**: what one step can do.

The lists `added`, `early`, `started` and `finished` are monitors that no code reads.
-/

set_option autoImplicit false

namespace Backend.ThreadPool

open Function

/-- `kMaxThreadPoolTaskQueueSize`. -/
def kMaxThreadPoolTaskQueueSize : ℕ := 512

/-- Call number `number` of `AddTask` by thread `adder`. -/
structure Job (A T : Type) where
  adder : A
  number : ℕ
  task : T
  deriving DecidableEq

/-- The call, without its task. -/
def Job.id {A T : Type} (j : Job A T) : A × ℕ := (j.adder, j.number)

/-- Where a worker is. -/
inductive Worker (A T : Type)
  /-- before `tp->m_continue` -/
  | test
  /-- has read `m_continue` as `false`, before `GetNodeNum() > 0` -/
  | count
  /-- in `WaitTimePop` -/
  | pop
  /-- executing a task -/
  | run (j : Job A T)
  /-- `thread_pool_routine` has returned -/
  | exited

/-- Where the caller of `Stop` is. -/
inductive Stopper
  /-- `Stop` is not yet called -/
  | idle
  /-- before `m_continue = false` -/
  | flag
  /-- in `m_threads[i]->Stop()`, a `pthread_join` -/
  | join (i : ℕ)
  /-- `Stop` has returned -/
  | done
  deriving DecidableEq

variable {A T : Type} {n : ℕ} [DecidableEq A]

/-- The pool, its threads and the monitors: per adder the number of its calls and its last call,
the calls of `AddTask` that have returned, those that had returned when `Stop` was entered, and the
jobs whose execution has started or finished. -/
structure State (A : Type) (n : ℕ) (T : Type) where
  queue : Queue.State (A ⊕ Fin n) (Job A T)
  cont : Bool
  worker : Fin n → Worker A T
  stopper : Stopper
  calls : A → ℕ
  job : A → Job A T
  added : List (Job A T)
  early : List (Job A T)
  started : List (Job A T)
  finished : List (Job A T)

/-- `Init(n)` and `Start`; `job` is arbitrary. `none`: `Init` returns `false`. -/
def State.init (n : ℕ) (zero : Job A T) (data : ℕ → Job A T) (job : A → Job A T) :
    Option (State A n T) :=
  if n < 1 then none else do
    let q ← Queue.CommonQueue.init zero (.new data) kMaxThreadPoolTaskQueueSize
    return { queue := .ofQueue q, cont := true, worker := fun _ => .test, stopper := .idle,
             calls := fun _ => 0, job := job, added := [], early := [], started := [],
             finished := [] }

/-- What happens to a thread inside a queue operation. -/
inductive Ev
  | eintr
  | timeout
  | go

/-- The step of the queue. -/
def Ev.act : Ev → Queue.Act (Job A T)
  | .eintr => .eintr
  | .timeout => .timeout
  | .go => .go

/-- The steps. -/
inductive Act (A : Type) (n : ℕ) (T : Type)
  /-- `a` calls `AddTask(task)` -/
  | add (a : A) (task : T)
  /-- `a` goes on inside `AddTask` -/
  | adder (a : A) (e : Ev)
  /-- worker `w` goes on outside the queue -/
  | worker (w : Fin n)
  /-- worker `w` goes on inside `WaitTimePop` -/
  | pop (w : Fin n) (e : Ev)
  /-- `Stop` is called or goes on -/
  | stop

/-- `AddTask(task)` is called. -/
def State.add (s : State A n T) (a : A) (task : T) : State A n T :=
  let j : Job A T := ⟨a, s.calls a, task⟩
  { s with queue := s.queue.goto (.inl a) (Queue.Op.push .till j).entry,
           calls := update s.calls a (s.calls a + 1), job := update s.job a j }

/-- The queue operation of `a` goes on; after the unlock `AddTask` returns. -/
def State.afterAdder (s : State A n T) (a : A) (q : Queue.State (A ⊕ Fin n) (Job A T)) :
    State A n T :=
  match s.queue.pc (.inl a) with
  | .pushUnlock _ => { s with queue := q, added := s.added ++ [s.job a] }
  | _ => { s with queue := q }

/-- Worker `w` calls `WaitTimePop`. -/
def State.enterPop (s : State A n T) (w : Fin n) : State A n T :=
  { s with queue := s.queue.goto (.inr w) (Queue.Op.pop .time).entry,
           worker := update s.worker w .pop }

/-- The queue operation of worker `w` goes on; when it returns `true`, the task is called. -/
def State.afterPop (s : State A n T) (w : Fin n) (e : Ev)
    (q : Queue.State (A ⊕ Fin n) (Job A T)) : State A n T :=
  match e, s.queue.pc (.inr w) with
  | .timeout, _ => { s with queue := q, worker := update s.worker w .test }
  | _, .popUnlock j true =>
    { s with queue := q, worker := update s.worker w (.run j), started := s.started ++ [j] }
  | _, .popUnlock _ false => { s with queue := q, worker := update s.worker w .test }
  | _, _ => { s with queue := q }

/-- Worker `w` goes on outside the queue. -/
def State.goWorker (s : State A n T) (w : Fin n) : Option (State A n T) :=
  match s.worker w with
  | .test => if s.cont then some (s.enterPop w)
      else some { s with worker := update s.worker w .count }
  | .count => if s.queue.workSem > 0 then some (s.enterPop w)
      else some { s with worker := update s.worker w .exited }
  | .run j => some { s with worker := update s.worker w .test, finished := s.finished ++ [j] }
  | .pop | .exited => none

/-- `Stop` is called or goes on. -/
def State.goStop (s : State A n T) : Option (State A n T) :=
  match s.stopper with
  | .idle => some { s with stopper := .flag, early := s.added }
  | .flag => some { s with stopper := .join 0, cont := false }
  | .join i =>
    if h : i < n then
      match s.worker ⟨i, h⟩ with
      | .exited => some { s with stopper := .join (i + 1) }
      | _ => none
    else some { s with stopper := .done }
  | .done => none

/-- One step. -/
def next (s : State A n T) : Act A n T → Option (State A n T)
  | .add a task => match s.queue.pc (.inl a) with
    | .idle => some (s.add a task)
    | _ => none
  | .adder a e => (Queue.next s.queue (.inl a, e.act)).map (s.afterAdder a)
  | .worker w => s.goWorker w
  | .pop w e => match s.worker w with
    | .pop => (Queue.next s.queue (.inr w, e.act)).map (s.afterPop w e)
    | _ => none
  | .stop => s.goStop

/-- What one step can do. -/
inductive Step (s : State A n T) : State A n T → Prop
  | add (a : A) (task : T) : s.queue.pc (.inl a) = .idle → Step s (s.add a task)
  | adder (a : A) (e : Ev) (q : Queue.State (A ⊕ Fin n) (Job A T)) :
      Queue.Step s.queue (.inl a) e.act q → Step s (s.afterAdder a q)
  | loop (w : Fin n) : s.worker w = .test ∨ s.worker w = .count → Step s (s.enterPop w)
  | count (w : Fin n) : s.worker w = .test → s.cont = false →
      Step s { s with worker := update s.worker w .count }
  | exit (w : Fin n) : s.worker w = .count → s.queue.workSem = 0 →
      Step s { s with worker := update s.worker w .exited }
  | finish (w : Fin n) (j : Job A T) : s.worker w = .run j →
      Step s { s with worker := update s.worker w .test, finished := s.finished ++ [j] }
  | pop (w : Fin n) (e : Ev) (q : Queue.State (A ⊕ Fin n) (Job A T)) : s.worker w = .pop →
      Queue.Step s.queue (.inr w) e.act q → Step s (s.afterPop w e q)
  | stop : s.stopper = .idle → Step s { s with stopper := .flag, early := s.added }
  | flag : s.stopper = .flag → Step s { s with stopper := .join 0, cont := false }
  | join (i : Fin n) : s.stopper = .join i → s.worker i = .exited →
      Step s { s with stopper := .join (i + 1) }
  | joined (i : ℕ) : s.stopper = .join i → n ≤ i → Step s { s with stopper := .done }

theorem step_of_goWorker {s s' : State A n T} {w : Fin n} (h : s.goWorker w = some s') :
    Step s s' := by
  unfold State.goWorker at h
  split at h
  case h_1 hw =>
    split at h <;> cases h
    · exact .loop w (Or.inl hw)
    · exact .count w hw (Bool.eq_false_iff.mpr ‹_›)
  case h_2 hw =>
    split at h <;> cases h
    · exact .loop w (Or.inr hw)
    · exact .exit w hw (by omega)
  case h_3 j hw => cases h; exact .finish w j hw
  case h_4 => cases h
  case h_5 => cases h

theorem step_of_goStop {s s' : State A n T} (h : s.goStop = some s') : Step s s' := by
  unfold State.goStop at h
  split at h
  case h_1 hp => cases h; exact .stop hp
  case h_2 hp => cases h; exact .flag hp
  case h_3 i hp =>
    split at h
    case isTrue hi =>
      split at h <;> cases h
      exact .join ⟨i, hi⟩ hp ‹_›
    case isFalse hi => cases h; exact .joined i hp (by omega)
  case h_4 => cases h

/-- **What one step can do.** -/
theorem step_of_next {s s' : State A n T} {a : Act A n T} (h : next s a = some s') : Step s s' := by
  cases a with
  | add a task =>
    simp only [next] at h
    split at h <;> cases h
    exact .add a task ‹_›
  | adder a e =>
    obtain ⟨q, hq, rfl⟩ := Option.map_eq_some_iff.mp h
    exact .adder a e q (Queue.step_of_next hq)
  | worker w => exact step_of_goWorker h
  | pop w e =>
    simp only [next] at h
    split at h
    case h_1 hw =>
      obtain ⟨q, hq, rfl⟩ := Option.map_eq_some_iff.mp h
      exact .pop w e q hw (Queue.step_of_next hq)
    case h_2 => cases h
  | stop => exact step_of_goStop h

end Backend.ThreadPool
