import Backend.Lib.Run
import Backend.Lib.Tally
import Mathlib.Data.UInt

/-!
# `StartWorkers` and `start_worker` (`base/longconn/xserver.cc`)

`StartWorkers` creates `m_work_num` threads and waits until all of them have counted themselves. It
tests the counter without the lock, so that the last worker can signal between the test and the wait.

* `Main`, `Worker`, `Act`, `State`, `next`: the thread in `StartWorkers` and the threads in
  `start_worker`, one step for each access to the counter, the mutex and the condition variable;
* `Step`, **`step_of_next`**: what one step can do;
* `Missed`: the workers are past their signals and `StartWorkers` is blocked;
* **`not_missed_of_reach`**: runs in which the wait is only entered while a worker is missing;
* **`missed_of_late_wait`**: one worker, which signals between the test and the wait.
-/

set_option autoImplicit false

namespace Backend.XServer.Startup

open Function

/-- Where `StartWorkers` is. -/
inductive Main
  /-- before `pthread_create` number `i`, or at the end of that loop -/
  | create (i : ℕ)
  /-- before `m_server->m_start_worker_num < m_work_num` -/
  | test
  /-- before `pthread_mutex_lock` -/
  | lock
  /-- before `pthread_cond_wait` -/
  | wait
  /-- in `pthread_cond_wait`, no signal delivered -/
  | blocked
  /-- in `pthread_cond_wait`, signalled, before it has the mutex again -/
  | woken
  /-- before `pthread_mutex_unlock` -/
  | unlock
  /-- `StartWorkers` has returned -/
  | returned (ret : Bool)
  deriving DecidableEq

/-- Where a thread of `start_worker` is. -/
inductive Worker
  /-- not yet created -/
  | absent
  /-- before `pthread_mutex_lock` -/
  | lock
  /-- before `++server->m_start_worker_num` -/
  | incr
  /-- before `pthread_cond_signal` -/
  | signal
  /-- before `pthread_mutex_unlock` -/
  | unlock
  /-- in `event_base_loop` -/
  | loop
  deriving DecidableEq

/-- The server and its threads, when `m_work_num` is `n`. -/
structure State (n : UInt16) where
  startWorkerNum : UInt16
  locked : Bool
  main : Main
  worker : Fin n.toNat → Worker

variable {n : UInt16}

/-- `StartWorkers` is called. -/
def State.init (n : UInt16) : State n :=
  { startWorkerNum := 0, locked := false, main := .create 0, worker := fun _ => .absent }

/-- The steps: `StartWorkers` goes on, its `pthread_create` fails, a worker goes on. -/
inductive Act (n : UInt16)
  | main
  | createFail
  | worker (i : Fin n.toNat)

/-- `pthread_cond_signal`: it is lost when nobody waits. -/
def Main.signal : Main → Main
  | .blocked => .woken
  | c => c

/-- `StartWorkers` goes on. -/
def State.goMain (s : State n) : Option (State n) :=
  match s.main with
  | .create i =>
    if h : i < n.toNat then
      some { s with main := .create (i + 1), worker := update s.worker ⟨i, h⟩ .lock }
    else some { s with main := .test }
  | .test => if s.startWorkerNum < n then some { s with main := .lock }
      else some { s with main := .returned true }
  | .lock => if s.locked then none else some { s with locked := true, main := .wait }
  | .wait => some { s with locked := false, main := .blocked }
  | .blocked => none
  | .woken => if s.locked then none else some { s with locked := true, main := .unlock }
  | .unlock => some { s with locked := false, main := .test }
  | .returned _ => none

/-- Worker `i` goes on. -/
def State.goWorker (s : State n) (i : Fin n.toNat) : Option (State n) :=
  match s.worker i with
  | .absent => none
  | .lock => if s.locked then none
      else some { s with locked := true, worker := update s.worker i .incr }
  | .incr => some { s with startWorkerNum := s.startWorkerNum + 1,
                           worker := update s.worker i .signal }
  | .signal => some { s with main := s.main.signal, worker := update s.worker i .unlock }
  | .unlock => some { s with locked := false, worker := update s.worker i .loop }
  | .loop => none

/-- One step. -/
def next (s : State n) : Act n → Option (State n)
  | .main => s.goMain
  | .createFail => match s.main with
    | .create _ => some { s with main := .returned false }
    | _ => none
  | .worker i => s.goWorker i

/-- What one step can do. -/
inductive Step (s : State n) : Act n → State n → Prop
  | create (i : ℕ) (h : i < n.toNat) : s.main = .create i →
      Step s .main { s with main := .create (i + 1), worker := update s.worker ⟨i, h⟩ .lock }
  | created (i : ℕ) : s.main = .create i → ¬ i < n.toNat → Step s .main { s with main := .test }
  | createFail (i : ℕ) : s.main = .create i →
      Step s .createFail { s with main := .returned false }
  | again : s.main = .test → s.startWorkerNum < n → Step s .main { s with main := .lock }
  | finish : s.main = .test → ¬ s.startWorkerNum < n →
      Step s .main { s with main := .returned true }
  | lock : s.main = .lock → s.locked = false →
      Step s .main { s with locked := true, main := .wait }
  | wait : s.main = .wait → Step s .main { s with locked := false, main := .blocked }
  | wake : s.main = .woken → s.locked = false →
      Step s .main { s with locked := true, main := .unlock }
  | unlock : s.main = .unlock → Step s .main { s with locked := false, main := .test }
  | workerLock (i : Fin n.toNat) : s.worker i = .lock → s.locked = false →
      Step s (.worker i) { s with locked := true, worker := update s.worker i .incr }
  | workerIncr (i : Fin n.toNat) : s.worker i = .incr →
      Step s (.worker i) { s with startWorkerNum := s.startWorkerNum + 1,
                                  worker := update s.worker i .signal }
  | workerSignal (i : Fin n.toNat) : s.worker i = .signal →
      Step s (.worker i) { s with main := s.main.signal, worker := update s.worker i .unlock }
  | workerUnlock (i : Fin n.toNat) : s.worker i = .unlock →
      Step s (.worker i) { s with locked := false, worker := update s.worker i .loop }

theorem step_of_goMain {s s' : State n} (h : s.goMain = some s') : Step s .main s' := by
  unfold State.goMain at h
  split at h
  case h_1 i hp =>
    split at h <;> cases h
    · exact .create i ‹_› hp
    · exact .created i hp ‹_›
  case h_2 hp =>
    split at h <;> cases h
    · exact .again hp ‹_›
    · exact .finish hp ‹_›
  case h_3 hp => split at h <;> cases h; exact .lock hp (Bool.eq_false_iff.mpr ‹_›)
  case h_4 hp => cases h; exact .wait hp
  case h_5 => cases h
  case h_6 hp => split at h <;> cases h; exact .wake hp (Bool.eq_false_iff.mpr ‹_›)
  case h_7 hp => cases h; exact .unlock hp
  case h_8 => cases h

theorem step_of_goWorker {s s' : State n} {i : Fin n.toNat} (h : s.goWorker i = some s') :
    Step s (.worker i) s' := by
  unfold State.goWorker at h
  split at h
  case h_1 => cases h
  case h_2 hp => split at h <;> cases h; exact .workerLock i hp (Bool.eq_false_iff.mpr ‹_›)
  case h_3 hp => cases h; exact .workerIncr i hp
  case h_4 hp => cases h; exact .workerSignal i hp
  case h_5 hp => cases h; exact .workerUnlock i hp
  case h_6 => cases h

/-- **What one step can do.** -/
theorem step_of_next {s s' : State n} {a : Act n} (h : next s a = some s') : Step s a s' := by
  cases a with
  | main => exact step_of_goMain h
  | createFail =>
    simp only [next] at h
    split at h <;> cases h
    exact .createFail _ ‹_›
  | worker i => exact step_of_goWorker h

/-! ## The counter and the mutex -/

/-- Has counted itself. -/
def Worker.counted : Worker → ℕ
  | .signal | .unlock | .loop => 1
  | _ => 0

/-- Between its lock and its unlock. -/
def Worker.holds : Worker → ℕ
  | .incr | .signal | .unlock => 1
  | _ => 0

/-- Past its `pthread_cond_signal`. -/
def Worker.past : Worker → Bool
  | .unlock | .loop => true
  | _ => false

/-- Has the mutex. -/
def Main.holds : Main → ℕ
  | .wait | .unlock => 1
  | _ => 0

/-- The counter counts the workers; the mutex is exclusive; workers are created in order. -/
structure Inv (s : State n) : Prop where
  num : s.startWorkerNum.toNat = tally Worker.counted s.worker
  lock : tally Worker.holds s.worker + s.main.holds = s.locked.toNat
  absent : ∀ i, s.main = .create i → ∀ j : Fin n.toNat, i ≤ j.val → s.worker j = .absent

theorem Worker.counted_le (c : Worker) : c.counted ≤ 1 := by cases c <;> decide

theorem Main.signal_holds (c : Main) : c.signal.holds = c.holds := by cases c <;> rfl

theorem Main.signal_create {c : Main} {i : ℕ} (h : c.signal = .create i) : c = .create i := by
  cases c <;> simp_all [Main.signal]

theorem inv_init (n : UInt16) : Inv (State.init n) where
  num := (tally_eq_zero fun _ => rfl).symm
  lock := by
    have h0 : tally Worker.holds (State.init n).worker = 0 := tally_eq_zero fun _ => rfl
    rw [h0]
    rfl
  absent _ _ _ _ := rfl

theorem Inv.main {s : State n} (h : Inv s) {c : Main} {l : Bool}
    (hl : s.locked.toNat + c.holds = l.toNat + s.main.holds) (hc : ∀ i, c ≠ .create i) :
    Inv { s with locked := l, main := c } where
  num := h.num
  lock := by
    have := h.lock
    simp only
    omega
  absent i hi := absurd hi (hc i)

theorem Inv.worker {s : State n} (h : Inv s) {i : Fin n.toNat} {c : Worker} {k : UInt16} {l : Bool}
    (hk : k.toNat + (s.worker i).counted = s.startWorkerNum.toNat + c.counted)
    (hl : l.toNat + (s.worker i).holds = s.locked.toNat + c.holds)
    (ha : s.worker i ≠ .absent) :
    Inv { s with startWorkerNum := k, locked := l, worker := update s.worker i c } where
  num := by
    have h1 := h.num
    have h2 := tally_update Worker.counted s.worker i c
    simp only
    omega
  lock := by
    have h1 := h.lock
    have h2 := tally_update Worker.holds s.worker i c
    simp only
    omega
  absent j hj x hx := by
    have hne : x ≠ i := fun he => ha (he ▸ h.absent j hj x hx)
    simp only [update_of_ne hne]
    exact h.absent j hj x hx

theorem Inv.incr {s : State n} (h : Inv s) {i : Fin n.toNat} (hi : s.worker i = .incr) :
    (s.startWorkerNum + 1).toNat = s.startWorkerNum.toNat + 1 := by
  have hlt : tally Worker.counted (update s.worker i .signal) ≤ Fintype.card (Fin n.toNat) :=
    tally_le_card Worker.counted_le _
  have hu := tally_update Worker.counted s.worker i .signal
  rw [hi] at hu
  have hnum := h.num
  have hn : n.toNat < 2 ^ 16 := n.toNat_lt
  simp only [Worker.counted, Fintype.card_fin] at hlt hu
  rw [UInt16.toNat_add, UInt16.toNat_one, Nat.mod_eq_of_lt]
  omega

/-- **Every step keeps the invariant.** -/
theorem Inv.step {s s' : State n} {a : Act n} (h : Inv s) (hs : Step s a s') : Inv s' := by
  cases hs with
  | create i hi hp =>
    have habs := h.absent i hp ⟨i, hi⟩ le_rfl
    have hlock := h.lock
    refine ⟨?_, ?_, fun j hj x hx => ?_⟩
    · exact h.num.trans (tally_update_eq (by rw [habs]; rfl)).symm
    · rw [hp] at hlock
      rw [tally_update_eq (by rw [habs]; rfl)]
      exact hlock
    · cases hj
      have hne : x ≠ ⟨i, hi⟩ := fun he => by rw [he] at hx; exact absurd hx (by simp)
      simp only [update_of_ne hne]
      exact h.absent i hp x (by omega)
  | created i hp => exact h.main (by rw [hp]; rfl) (by simp)
  | createFail i hp => exact h.main (by rw [hp]; rfl) (by simp)
  | again hp => exact h.main (by rw [hp]; rfl) (by simp)
  | finish hp => exact h.main (by rw [hp]; rfl) (by simp)
  | lock hp hl => exact h.main (by rw [hp, hl]; rfl) (by simp)
  | wait hp =>
    have hlock := h.lock
    rw [hp] at hlock
    refine h.main ?_ (by simp)
    rw [hp]
    simp only [Main.holds] at hlock ⊢
    cases hl : s.locked <;> simp [hl] at hlock ⊢
  | wake hp hl => exact h.main (by rw [hp, hl]; rfl) (by simp)
  | unlock hp =>
    have hlock := h.lock
    rw [hp] at hlock
    refine h.main ?_ (by simp)
    rw [hp]
    simp only [Main.holds] at hlock ⊢
    cases hl : s.locked <;> simp [hl] at hlock ⊢
  | workerLock i hp hl => exact h.worker (by rw [hp]; rfl) (by rw [hp, hl]; rfl) (by simp [hp])
  | workerIncr i hp =>
    exact h.worker (by rw [h.incr hp, hp]; rfl) (by rw [hp]; rfl) (by simp [hp])
  | workerSignal i hp =>
    have hw : Inv { s with worker := update s.worker i .unlock } :=
      h.worker (by rw [hp]; rfl) (by rw [hp]; rfl) (by simp [hp])
    exact ⟨hw.num, by simp only [Main.signal_holds]; exact hw.lock,
      fun j hj => hw.absent j (Main.signal_create hj)⟩
  | workerUnlock i hp =>
    refine h.worker (by rw [hp]; rfl) ?_ (by simp [hp])
    have h1 := le_tally Worker.holds s.worker i
    have h2 := h.lock
    rw [hp] at h1 ⊢
    simp only [Worker.holds] at h1 ⊢
    cases hl : s.locked
    · rw [hl, Bool.toNat_false] at h2
      omega
    · rfl

/-! ## The last wake-up -/

/-- All workers are past their signals while `StartWorkers` is blocked with no signal delivered. -/
def Missed (s : State n) : Prop := (∀ i, (s.worker i).past = true) ∧ s.main = .blocked

/-- `pthread_cond_wait` is entered only while the counter is below `m_work_num`. -/
def InTime (s : State n) : Act n → Prop
  | .main => s.main = .wait → s.startWorkerNum < n
  | _ => True

instance (s : State n) : ∀ a, Decidable (InTime s a)
  | .main => inferInstanceAs (Decidable (s.main = .wait → s.startWorkerNum < n))
  | .createFail | .worker _ => isTrue trivial

/-- While `StartWorkers` is blocked, a worker has its signal still to send. -/
def Pending (s : State n) : Prop := s.main = .blocked → ∃ i, (s.worker i).past = false

theorem Inv.exists_not_past {s : State n} (h : Inv s) (hlt : s.startWorkerNum < n) :
    ∃ i, (s.worker i).past = false := by
  have hlt' : tally Worker.counted s.worker < Fintype.card (Fin n.toNat) := by
    rw [← h.num, Fintype.card_fin]
    exact UInt16.lt_iff_toNat_lt.mp hlt
  obtain ⟨i, hi⟩ := exists_weight_eq_zero hlt'
  refine ⟨i, ?_⟩
  cases hp : s.worker i <;> rw [hp] at hi <;> first | rfl | cases hi

/-- A worker that moves and does not get past its signal. -/
theorem Pending.worker {s : State n} (h : Pending s) {i : Fin n.toNat} {c : Worker} {k : UInt16}
    {l : Bool} (hc : c.past = (s.worker i).past) :
    Pending { s with startWorkerNum := k, locked := l, worker := update s.worker i c } := by
  intro hb
  obtain ⟨j, hj⟩ := h hb
  refine ⟨j, ?_⟩
  by_cases he : j = i
  · subst he
    simpa only [update_self, hc] using hj
  · simpa only [update_of_ne he] using hj

theorem Pending.step {s s' : State n} {a : Act n} (h : Pending s) (hi : Inv s) (ha : InTime s a)
    (hs : Step s a s') : Pending s' := by
  cases hs with
  | wait hp => exact fun _ => hi.exists_not_past (ha hp)
  | workerLock i hp _ => exact h.worker (by rw [hp]; rfl)
  | workerIncr i hp => exact h.worker (by rw [hp]; rfl)
  | workerSignal i hp =>
    -- the signal is delivered to a blocked `StartWorkers`
    intro hb
    cases hm : s.main <;> simp [hm, Main.signal] at hb
  | workerUnlock i hp => exact h.worker (by rw [hp]; rfl)
  | _ => exact fun hb => by cases hb

/-- A wait that is entered too late: the mutex is free of workers, and all of them have counted
themselves. -/
theorem Inv.missed_of_wait {s : State n} (h : Inv s) (hp : s.main = .wait)
    (hn : ¬ s.startWorkerNum < n) : Missed { s with locked := false, main := .blocked } := by
  refine ⟨fun i => ?_, rfl⟩
  have hcard : Fintype.card (Fin n.toNat) ≤ tally Worker.counted s.worker := by
    rw [← h.num, Fintype.card_fin]
    exact not_lt.mp fun hlt => hn (UInt16.lt_iff_toNat_lt.mpr hlt)
  have hcounted := weight_eq_one_of_card_le Worker.counted_le hcard i
  have hlock := h.lock
  rw [hp, Main.holds] at hlock
  have hle := le_tally Worker.holds s.worker i
  have hfree : (s.worker i).holds = 0 := by
    have : s.locked.toNat ≤ 1 := Bool.toNat_le s.locked
    omega
  cases hw : s.worker i <;> rw [hw] at hcounted hfree <;>
    simp_all [Worker.counted, Worker.holds, Worker.past]

/-- **The last wake-up is not missed** in a run whose waits are all entered in time; a wait that is
entered later misses it. -/
theorem not_missed_of_reach (n : UInt16) (s : State n) :
    (ReachIf next InTime (State.init n) s → ¬ Missed s) ∧
      ∀ s', Reach next (State.init n) s → s.main = .wait → ¬ s.startWorkerNum < n →
        next s .main = some s' → Missed s' := by
  constructor
  · intro h hm
    have hp : Inv s ∧ Pending s := ReachIf.inv (I := fun s => Inv s ∧ Pending s) h
      ⟨inv_init n, nofun⟩ fun _ _ _ hi ha hn =>
        ⟨hi.1.step (step_of_next hn), hi.2.step hi.1 ha (step_of_next hn)⟩
    obtain ⟨i, hi⟩ := hp.2 hm.2
    rw [hm.1 i] at hi
    cases hi
  · intro s' h hp hn hs
    have hi : Inv s := Reach.inv h (inv_init n) fun _ _ _ hi hn => hi.step (step_of_next hn)
    rw [next, State.goMain, hp] at hs
    cases hs
    exact hi.missed_of_wait hp hn

/-- `StartWorkers` waits before worker `i` has started. -/
def inTime (i : Fin n.toNat) : List (Act n) :=
  [.main, .main, .main, .main, .main, .worker i, .worker i, .worker i, .worker i]

/-- Worker `i` runs between the test and the lock of `StartWorkers`. -/
def tooLate (i : Fin n.toNat) : List (Act n) :=
  [.main, .main, .main, .worker i, .worker i, .worker i, .worker i, .main, .main]

/-- One worker, which finds `StartWorkers` blocked and wakes it. -/
theorem not_missed_of_reach_one : ∃ s : State 1, ReachIf next InTime (State.init 1) s ∧ s.startWorkerNum = 1 ∧
    s.main = .woken ∧ ¬ Missed s := by
  have hm : Meets next InTime (State.init 1) (inTime ⟨0, by decide⟩) := by decide +kernel
  have hr : (run next (State.init 1) (inTime ⟨0, by decide⟩)).map
      (fun s => (s.startWorkerNum, s.main)) = some (1, .woken) := by decide +kernel
  obtain ⟨s, hs, hv⟩ := ReachIf.of_run_map hm hr
  obtain ⟨hnum, hmain⟩ := Prod.mk.inj hv
  exact ⟨s, hs, hnum, hmain, (not_missed_of_reach 1 s).1 hs⟩

/-- **One worker, which runs between the test and the wait**: its signal is lost. -/
theorem missed_of_late_wait : ∃ s : State 1, Reach next (State.init 1) s ∧ Missed s := by
  have hr : (run next (State.init 1) (tooLate ⟨0, by decide⟩)).map
      (fun s => (decide (∀ i, (s.worker i).past = true), s.main)) = some (true, .blocked) := by
    decide +kernel
  obtain ⟨s, hs, hv⟩ := Reach.of_run_map hr
  obtain ⟨hpast, hmain⟩ := Prod.mk.inj hv
  exact ⟨s, hs, of_decide_eq_true hpast, hmain⟩

end Backend.XServer.Startup
