import Backend.Foxea.Session
import Backend.Lib.Run
import Mathlib.Logic.Function.Basic

/-!
# `Handler`: the request pipeline (`service_foxea/src/business/handler.cc`)

`Process` takes a free session of the pool, copies the request into it and pushes it into the
request queue; `Run` pops it, handles it, notifies the caller and returns the session to the pool.

* `Addr`, `RequestSession`: sessions, and where they are; the semaphore `m_work_sem` of a session is
  named by the address of the session;
* `Proc`, `Run`, `Act`, `State`, `next`: the callers of `Process`, the thread in `Run`, one step;
* `Call`, `Event`: a call of `Process`, and the monitor of handled requests and semaphore posts;
* `Step`, **`step_of_next`**: what one step can do.
-/

set_option autoImplicit false

namespace Backend.Foxea

open Function

/-- The address of a session: in `m_session_list` of the pool, or of a caller. -/
inductive Addr (E : Type)
  | pool (i : ℕ)
  | ext (e : E)
  deriving DecidableEq

/-- The fields `m_req` and `m_p_work_sem`; the latter is the address of the session whose
`m_work_sem` it points to. -/
structure RequestSession (E Q : Type) where
  req : Option Q
  sem : Addr E

namespace Handler

variable {ι E Q : Type} [DecidableEq ι] [DecidableEq E]

/-- A call of `Process`: the caller, the number of the call, the argument that was passed to it and the
`m_req` that was copied. -/
structure Call (ι E Q : Type) where
  proc : ι
  number : ℕ
  arg : Addr E
  req : Option Q

/-- Where a caller of `Process` is. -/
inductive Proc (E : Type)
  /-- outside the object -/
  | idle
  /-- in `GetSession` -/
  | get (arg : Addr E)
  /-- before `*request_session = *req` -/
  | fill (arg : Addr E) (i : ℕ)
  /-- in `WaitTillPush` -/
  | push (i : ℕ)
  /-- in `ReleaseSession` after a push that failed -/
  | failed (i : ℕ)
  /-- `assert(0)` after a `GetSession` that failed -/
  | aborted
  deriving DecidableEq

/-- Where the thread in `Run` is. -/
inductive Run
  /-- before `m_continue` -/
  | test
  /-- has read `m_continue` as `false`, before `GetNodeNum() > 0` -/
  | count
  /-- in `WaitTimePop` -/
  | pop
  /-- before `Handle` -/
  | handle (i : ℕ)
  /-- before `NotifyRequestSession` -/
  | notify (i : ℕ)
  /-- in `ReleaseSession` -/
  | release (i : ℕ)
  /-- `Run` has returned -/
  | returned

/-- What `Run` does to the outside: `Handle` on a session filled by a call, with the `m_req` it
finds there, and a post on the semaphore of a session. -/
inductive Event (ι E Q : Type)
  | handle (c : Call ι E Q) (req : Option Q)
  | post (a : Addr E)

/-- The object, the sessions and the threads; monitors: per caller the number of its calls and the
argument of its last one, per session of the pool the call that filled it last, the calls that have
pushed, the events. -/
structure State (ι E Q : Type) where
  pool : Fifo ℕ
  queue : Fifo ℕ
  session : Addr E → RequestSession E Q
  cont : Bool
  proc : ι → Proc E
  run : Run
  calls : ι → ℕ
  arg : ι → Addr E
  owner : ℕ → Call ι E Q
  pushed : List (Call ι E Q)
  events : List (Event ι E Q)

/-- `Init`, with the outer sessions as they are and the constructor run on those of the pool. -/
def State.init (size : ℕ) (ext : E → RequestSession E Q) (owner : ℕ → Call ι E Q) :
    Option (State ι E Q) := do
  let q ← RequestQueue.init size
  let p ← SessionPool.init size
  return { pool := p, queue := q, cont := true, proc := fun _ => .idle, run := .test,
           session := fun
             | .pool i => ⟨none, .pool i⟩
             | .ext e => ext e
           calls := fun _ => 0, arg := fun _ => .pool 0, owner := owner, pushed := [], events := [] }

/-- The steps. -/
inductive Act (ι E Q : Type)
  /-- `t` calls `Process(arg)` -/
  | call (t : ι) (arg : Addr E)
  /-- `t` goes on in `Process` -/
  | proc (t : ι)
  /-- `GetSession` or `WaitTillPush` of `t` returns `false` -/
  | fail (t : ι)
  /-- the thread in `Run` goes on -/
  | run
  /-- `WaitTimePop` times out -/
  | timeout
  /-- `UnRun` -/
  | unRun
  /-- the owner of an outer session writes its `m_req` -/
  | setReq (e : E) (q : Option Q)

/-- `*request_session = *req`. -/
def State.fill (s : State ι E Q) (t : ι) (arg : Addr E) (i : ℕ) : State ι E Q :=
  { s with session := update s.session (.pool i) ⟨(s.session arg).req, arg⟩,
           proc := update s.proc t (.push i), calls := update s.calls t (s.calls t + 1),
           owner := update s.owner i ⟨t, s.calls t, s.arg t, (s.session arg).req⟩ }

/-- Caller `t` goes on. -/
def State.goProc (s : State ι E Q) (t : ι) : Option (State ι E Q) :=
  match s.proc t with
  | .idle | .aborted => none
  | .get arg => s.pool.pop.map fun (i, p) =>
      { s with pool := p, proc := update s.proc t (.fill arg i) }
  | .fill arg i => some (s.fill t arg i)
  | .push i => (s.queue.push i).map fun q =>
      { s with queue := q, proc := update s.proc t .idle, pushed := s.pushed ++ [s.owner i] }
  | .failed i => (s.pool.push i).map fun p => { s with pool := p, proc := update s.proc t .idle }

/-- The thread in `Run` goes on. -/
def State.goRun (s : State ι E Q) : Option (State ι E Q) :=
  match s.run with
  | .test => if s.cont then some { s with run := .pop } else some { s with run := .count }
  | .count => if s.queue.items.length > 0 then some { s with run := .pop }
      else some { s with run := .returned }
  | .pop => s.queue.pop.map fun (i, q) => { s with queue := q, run := .handle i }
  | .handle i => some { s with run := .notify i,
                               events := s.events ++ [.handle (s.owner i) (s.session (.pool i)).req] }
  | .notify i => some { s with run := .release i,
                               events := s.events ++ [.post (s.session (.pool i)).sem] }
  | .release i => (s.pool.push i).map fun p => { s with pool := p, run := .test }
  | .returned => none

/-- One step. -/
def next (s : State ι E Q) : Act ι E Q → Option (State ι E Q)
  | .call t arg => match s.proc t with
    | .idle => some { s with proc := update s.proc t (.get arg), arg := update s.arg t arg }
    | _ => none
  | .proc t => s.goProc t
  | .fail t => match s.proc t with
    | .get _ => some { s with proc := update s.proc t .aborted }
    | .push i => some { s with proc := update s.proc t (.failed i) }
    | _ => none
  | .run => s.goRun
  | .timeout => match s.run with
    | .pop => some { s with run := .test }
    | _ => none
  | .unRun => some { s with cont := false }
  | .setReq e q =>
    some { s with session := update s.session (.ext e) { s.session (.ext e) with req := q } }

/-- What one step can do. -/
inductive Step (s : State ι E Q) : Act ι E Q → State ι E Q → Prop
  | call (t : ι) (arg : Addr E) : s.proc t = .idle →
      Step s (.call t arg) { s with proc := update s.proc t (.get arg), arg := update s.arg t arg }
  | get (t : ι) (arg : Addr E) (i : ℕ) (p : Fifo ℕ) : s.proc t = .get arg →
      s.pool.pop = some (i, p) →
      Step s (.proc t) { s with pool := p, proc := update s.proc t (.fill arg i) }
  | fill (t : ι) (arg : Addr E) (i : ℕ) : s.proc t = .fill arg i →
      Step s (.proc t) (s.fill t arg i)
  | push (t : ι) (i : ℕ) (q : Fifo ℕ) : s.proc t = .push i → s.queue.push i = some q →
      Step s (.proc t)
        { s with queue := q, proc := update s.proc t .idle, pushed := s.pushed ++ [s.owner i] }
  | failed (t : ι) (i : ℕ) (p : Fifo ℕ) : s.proc t = .failed i → s.pool.push i = some p →
      Step s (.proc t) { s with pool := p, proc := update s.proc t .idle }
  | abort (t : ι) (arg : Addr E) : s.proc t = .get arg →
      Step s (.fail t) { s with proc := update s.proc t .aborted }
  | fail (t : ι) (i : ℕ) : s.proc t = .push i →
      Step s (.fail t) { s with proc := update s.proc t (.failed i) }
  | loop : s.run = .test ∨ s.run = .count → Step s .run { s with run := .pop }
  | count : s.run = .test → s.cont = false → Step s .run { s with run := .count }
  | leave : s.run = .count → s.queue.items = [] → Step s .run { s with run := .returned }
  | pop (i : ℕ) (q : Fifo ℕ) : s.run = .pop → s.queue.pop = some (i, q) →
      Step s .run { s with queue := q, run := .handle i }
  | timeout : s.run = .pop → Step s .timeout { s with run := .test }
  | handle (i : ℕ) : s.run = .handle i →
      Step s .run { s with run := .notify i,
                           events := s.events ++ [.handle (s.owner i) (s.session (.pool i)).req] }
  | notify (i : ℕ) : s.run = .notify i →
      Step s .run { s with run := .release i,
                           events := s.events ++ [.post (s.session (.pool i)).sem] }
  | release (i : ℕ) (p : Fifo ℕ) : s.run = .release i → s.pool.push i = some p →
      Step s .run { s with pool := p, run := .test }
  | unRun : Step s .unRun { s with cont := false }
  | setReq (e : E) (q : Option Q) : Step s (.setReq e q)
      { s with session := update s.session (.ext e) { s.session (.ext e) with req := q } }

theorem step_of_goProc {s s' : State ι E Q} {t : ι} (h : s.goProc t = some s') :
    Step s (.proc t) s' := by
  unfold State.goProc at h
  split at h
  case h_1 => cases h
  case h_2 => cases h
  case h_3 arg hp =>
    obtain ⟨⟨i, p⟩, hi, rfl⟩ := Option.map_eq_some_iff.mp h
    exact .get t arg i p hp hi
  case h_4 arg i hp => cases h; exact .fill t arg i hp
  case h_5 i hp =>
    obtain ⟨q, hq, rfl⟩ := Option.map_eq_some_iff.mp h
    exact .push t i q hp hq
  case h_6 i hp =>
    obtain ⟨p, hq, rfl⟩ := Option.map_eq_some_iff.mp h
    exact .failed t i p hp hq

theorem step_of_goRun {s s' : State ι E Q} (h : s.goRun = some s') : Step s .run s' := by
  unfold State.goRun at h
  split at h
  case h_1 hp =>
    split at h <;> cases h
    · exact .loop (Or.inl hp)
    · exact .count hp (Bool.eq_false_iff.mpr ‹_›)
  case h_2 hp =>
    split at h <;> cases h
    · exact .loop (Or.inr hp)
    · exact .leave hp (List.length_eq_zero_iff.mp (by omega))
  case h_3 hp =>
    obtain ⟨⟨i, q⟩, hq, rfl⟩ := Option.map_eq_some_iff.mp h
    exact .pop i q hp hq
  case h_4 i hp => cases h; exact .handle i hp
  case h_5 i hp => cases h; exact .notify i hp
  case h_6 i hp =>
    obtain ⟨p, hq, rfl⟩ := Option.map_eq_some_iff.mp h
    exact .release i p hp hq
  case h_7 => cases h

/-- **What one step can do.** -/
theorem step_of_next {s s' : State ι E Q} {a : Act ι E Q} (h : next s a = some s') :
    Step s a s' := by
  cases a with
  | call t arg =>
    simp only [next] at h
    split at h <;> cases h
    exact .call t arg ‹_›
  | proc t => exact step_of_goProc h
  | fail t =>
    simp only [next] at h
    split at h <;> cases h
    · exact .abort t _ ‹_›
    · exact .fail t _ ‹_›
  | run => exact step_of_goRun h
  | timeout =>
    simp only [next] at h
    split at h <;> cases h
    exact .timeout ‹_›
  | unRun => cases h; exact .unRun
  | setReq e q => cases h; exact .setReq e q

end Handler

end Backend.Foxea
