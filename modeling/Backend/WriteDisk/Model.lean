import Backend.Lib.Run
import Backend.Word
import Mathlib.Logic.Function.Basic

/-!
# `WriteDisk`: a double buffer between a producer and a writer (`base/util/write_disk.cc`)

`WriteToBuf` fills the work buffer and swaps it with the free one when it is full; the thread in
`Run` writes the swapped buffer to the stream. No mutex protects the buffers, only the binary
semaphores `m_work_sem` and `m_free_sem`.

* `Buf`, `memcpy`, `bytes`: the two buffers and their contents;
* `Prod`, `Wri`, `Act`, `State`, `next`: the producer inside `WriteToBuf`, `Flush` and `Stop`, the
  writer inside `Run`;
* `Step`, **`step_of_next`**: what one step can do.

A wait that `EINTR` interrupts is tried again and changes nothing.
-/

set_option autoImplicit false

namespace Backend.WriteDisk

/-- The two buffers `Init` allocates. -/
inductive Buf
  | first
  | second
  deriving DecidableEq

/-- Buffer contents, by offset. -/
abbrev Mem := Buf → ℤ → UInt8

/-- `memcpy(buf + off, d, len)`. -/
def memcpy (m : ℤ → UInt8) (off : ℤ) (d : List UInt8) : ℤ → UInt8 := fun i =>
  if off ≤ i ∧ i < off + d.length then d.getD (i - off).toNat 0 else m i

/-- The first `n` bytes. -/
def bytes (m : ℤ → UInt8) (n : ℤ) : List UInt8 :=
  (List.range n.toNat).map fun i : ℕ => m (i : ℤ)

/-- A call by the producer: `WriteToBuf(d)`, `Flush()` or `Stop()`. -/
inductive Op
  | write (d : List UInt8)
  | flush
  | stop

/-- Where the producer is. -/
inductive Prod
  /-- outside the object -/
  | idle
  /-- before `m_work_buf_size + len >= m_max_size` -/
  | test (d : List UInt8)
  /-- in `WaitTill(&m_free_sem)` -/
  | waitFree (d : List UInt8)
  /-- before the swap of `m_work_buf` and `m_free_buf` -/
  | swapBuf (d : List UInt8)
  /-- before the swap of `m_work_buf_size` and `m_free_buf_size` -/
  | swapSize (d : List UInt8)
  /-- before `PostTill(&m_work_sem)` -/
  | post (d : List UInt8)
  /-- in `memcpy(m_work_buf + m_work_buf_size, buf, len)` -/
  | copy (d : List UInt8)
  /-- before `m_work_buf_size += len` -/
  | grow (d : List UInt8)
  /-- before `m_work_buf_size > 0` in `Flush` -/
  | flushTest
  /-- in the `fwrite` of `Flush` -/
  | flushWrite (b : Buf) (n : ℤ)
  /-- before `m_work_buf_size = 0` in `Flush` -/
  | flushClear
  /-- before `m_continue = false` in `Stop` -/
  | unRun
  /-- in `pthread_join` -/
  | join
  /-- `Stop` has returned -/
  | stopped

/-- Where the writer is. -/
inductive Wri
  /-- before `while (m_continue)` -/
  | test
  /-- in `WaitTime(&m_work_sem, 5000)` -/
  | wait
  /-- before the `fwrite` of the swapped buffer, with `CheckAndSwitch` -/
  | load
  /-- in `fwrite(b, n, 1, fd)` -/
  | write (b : Buf) (n : ℤ)
  /-- before `m_free_buf_size = 0` -/
  | clear
  /-- before `PostTill(&m_free_sem)` -/
  | post
  /-- before `usleep` -/
  | sleep
  /-- after the loop, before `m_work_buf_size > 0` -/
  | finalTest
  /-- in the `fwrite` after the loop -/
  | finalWrite (b : Buf) (n : ℤ)
  /-- before `m_work_buf_size = 0` after the loop -/
  | finalClear
  /-- `Run` has returned -/
  | done
  /-- `assert(0)` after an `fwrite` that did not return `1` -/
  | aborted

/-- The object, the stream behind `CheckAndSwitch`, both threads, and the data of the calls of
`WriteToBuf` that have returned. -/
structure State where
  mem : Mem
  workBuf : Buf
  freeBuf : Buf
  workSize : ℤ
  freeSize : ℤ
  workSem : ℕ
  freeSem : ℕ
  maxSize : ℤ
  cont : Bool
  stream : List UInt8
  prod : Prod
  wri : Wri
  written : List UInt8

/-- `Init(size)` and `Start`. -/
def State.init (mem : Mem) (size : ℤ) : State :=
  { mem := mem, workBuf := .first, freeBuf := .second, workSize := 0, freeSize := 0, workSem := 0,
    freeSem := 1, maxSize := size, cont := true, stream := [], prod := .idle, wri := .test,
    written := [] }

/-- `fwrite(b, n, 1, fd)`: it succeeds for a size above `0`; otherwise it does not return `1`. -/
def State.fwrite (s : State) (b : Buf) (n : ℤ) : Option (List UInt8) :=
  if 0 < n then some (s.stream ++ bytes (s.mem b) n) else none

/-- The producer starts a call. -/
def State.call (s : State) : Op → State
  | .write d => { s with prod := .test d }
  | .flush => { s with prod := .flushTest }
  | .stop => { s with prod := .unRun }

/-- The swap of the buffers. -/
def State.swapBuf (s : State) (d : List UInt8) : State :=
  { s with workBuf := s.freeBuf, freeBuf := s.workBuf, prod := .swapSize d }

/-- The swap of the sizes. -/
def State.swapSize (s : State) (d : List UInt8) : State :=
  { s with workSize := s.freeSize, freeSize := s.workSize, prod := .post d }

/-- The copy into the work buffer. -/
def State.copy (s : State) (d : List UInt8) : State :=
  { s with mem := Function.update s.mem s.workBuf (memcpy (s.mem s.workBuf) s.workSize d),
           prod := .grow d }

/-- `m_work_buf_size += len`, and the return. -/
def State.grow (s : State) (d : List UInt8) : State :=
  { s with workSize := i32 (s.workSize + d.length), prod := .idle, written := s.written ++ d }

/-- The producer goes on. -/
def State.goProd (s : State) : Option State :=
  match s.prod with
  | .idle | .stopped => none
  | .test d => if i32 (s.workSize + d.length) ≥ s.maxSize then some { s with prod := .waitFree d }
      else some { s with prod := .copy d }
  | .waitFree d => if 0 < s.freeSem then
      some { s with freeSem := s.freeSem - 1, prod := .swapBuf d } else none
  | .swapBuf d => some (s.swapBuf d)
  | .swapSize d => some (s.swapSize d)
  | .post d => some { s with workSem := s.workSem + 1, prod := .copy d }
  | .copy d => some (s.copy d)
  | .grow d => some (s.grow d)
  | .flushTest => if s.workSize > 0 then some { s with prod := .flushWrite s.workBuf s.workSize }
      else some { s with prod := .idle }
  | .flushWrite b n => (s.fwrite b n).map fun st => { s with stream := st, prod := .flushClear }
  | .flushClear => some { s with workSize := 0, prod := .idle }
  | .unRun => some { s with cont := false, prod := .join }
  | .join => match s.wri with
    | .done => some { s with prod := .stopped }
    | _ => none

/-- The writer goes on. -/
def State.goWri (s : State) : Option State :=
  match s.wri with
  | .done | .aborted => none
  | .test => if s.cont then some { s with wri := .wait } else some { s with wri := .finalTest }
  | .wait => if 0 < s.workSem then some { s with workSem := s.workSem - 1, wri := .load } else none
  | .load => some { s with wri := .write s.freeBuf s.freeSize }
  | .write b n => match s.fwrite b n with
    | some st => some { s with stream := st, wri := .clear }
    | none => some { s with wri := .aborted }
  | .clear => some { s with freeSize := 0, wri := .post }
  | .post => some { s with freeSem := s.freeSem + 1, wri := .sleep }
  | .sleep => some { s with wri := .test }
  | .finalTest => if s.workSize > 0 then some { s with wri := .finalWrite s.workBuf s.workSize }
      else some { s with wri := .done }
  | .finalWrite b n => match s.fwrite b n with
    | some st => some { s with stream := st, wri := .finalClear }
    | none => some { s with wri := .aborted }
  | .finalClear => some { s with workSize := 0, wri := .done }

/-- The steps: the producer starts a call or goes on; the writer goes on, or its timed wait ends
without a token. -/
inductive Act
  | call (op : Op)
  | prod
  | wri
  | timeout

/-- One step. -/
def next (s : State) (a : Act) : Option State :=
  match a with
  | .call op => match s.prod with
    | .idle => some (s.call op)
    | _ => none
  | .prod => s.goProd
  | .wri => s.goWri
  | .timeout => match s.wri with
    | .wait => some { s with wri := .sleep }
    | _ => none

/-- What one step can do. -/
inductive Step (s : State) : Act → State → Prop
  | call (op : Op) : s.prod = .idle → Step s (.call op) (s.call op)
  | full (d : List UInt8) : s.prod = .test d → i32 (s.workSize + d.length) ≥ s.maxSize →
      Step s .prod { s with prod := .waitFree d }
  | room (d : List UInt8) : s.prod = .test d → ¬ i32 (s.workSize + d.length) ≥ s.maxSize →
      Step s .prod { s with prod := .copy d }
  | waitFree (d : List UInt8) : s.prod = .waitFree d → 0 < s.freeSem →
      Step s .prod { s with freeSem := s.freeSem - 1, prod := .swapBuf d }
  | swapBuf (d : List UInt8) : s.prod = .swapBuf d → Step s .prod (s.swapBuf d)
  | swapSize (d : List UInt8) : s.prod = .swapSize d → Step s .prod (s.swapSize d)
  | post (d : List UInt8) : s.prod = .post d →
      Step s .prod { s with workSem := s.workSem + 1, prod := .copy d }
  | copy (d : List UInt8) : s.prod = .copy d → Step s .prod (s.copy d)
  | grow (d : List UInt8) : s.prod = .grow d → Step s .prod (s.grow d)
  | flushSome : s.prod = .flushTest → s.workSize > 0 →
      Step s .prod { s with prod := .flushWrite s.workBuf s.workSize }
  | flushNone : s.prod = .flushTest → ¬ s.workSize > 0 → Step s .prod { s with prod := .idle }
  | flushWrite (b : Buf) (n : ℤ) : s.prod = .flushWrite b n → 0 < n →
      Step s .prod { s with stream := s.stream ++ bytes (s.mem b) n, prod := .flushClear }
  | flushClear : s.prod = .flushClear → Step s .prod { s with workSize := 0, prod := .idle }
  | unRun : s.prod = .unRun → Step s .prod { s with cont := false, prod := .join }
  | join : s.prod = .join → s.wri = .done → Step s .prod { s with prod := .stopped }
  | loop : s.wri = .test → s.cont = true → Step s .wri { s with wri := .wait }
  | leave : s.wri = .test → s.cont = false → Step s .wri { s with wri := .finalTest }
  | wait : s.wri = .wait → 0 < s.workSem →
      Step s .wri { s with workSem := s.workSem - 1, wri := .load }
  | timeout : s.wri = .wait → Step s .timeout { s with wri := .sleep }
  | load : s.wri = .load → Step s .wri { s with wri := .write s.freeBuf s.freeSize }
  | write (b : Buf) (n : ℤ) : s.wri = .write b n → 0 < n →
      Step s .wri { s with stream := s.stream ++ bytes (s.mem b) n, wri := .clear }
  | writeFail (b : Buf) (n : ℤ) : s.wri = .write b n → ¬ 0 < n →
      Step s .wri { s with wri := .aborted }
  | clear : s.wri = .clear → Step s .wri { s with freeSize := 0, wri := .post }
  | release : s.wri = .post → Step s .wri { s with freeSem := s.freeSem + 1, wri := .sleep }
  | sleep : s.wri = .sleep → Step s .wri { s with wri := .test }
  | finalSome : s.wri = .finalTest → s.workSize > 0 →
      Step s .wri { s with wri := .finalWrite s.workBuf s.workSize }
  | finalNone : s.wri = .finalTest → ¬ s.workSize > 0 → Step s .wri { s with wri := .done }
  | finalWrite (b : Buf) (n : ℤ) : s.wri = .finalWrite b n → 0 < n →
      Step s .wri { s with stream := s.stream ++ bytes (s.mem b) n, wri := .finalClear }
  | finalFail (b : Buf) (n : ℤ) : s.wri = .finalWrite b n → ¬ 0 < n →
      Step s .wri { s with wri := .aborted }
  | finalClear : s.wri = .finalClear → Step s .wri { s with workSize := 0, wri := .done }

theorem step_of_goProd {s s' : State} (h : s.goProd = some s') : Step s .prod s' := by
  unfold State.goProd at h
  split at h
  case h_1 => cases h
  case h_2 => cases h
  case h_3 d hp =>
    split at h <;> cases h
    · exact .full d hp ‹_›
    · exact .room d hp ‹_›
  case h_4 d hp => split at h <;> cases h; exact .waitFree d hp ‹_›
  case h_5 d hp => cases h; exact .swapBuf d hp
  case h_6 d hp => cases h; exact .swapSize d hp
  case h_7 d hp => cases h; exact .post d hp
  case h_8 d hp => cases h; exact .copy d hp
  case h_9 d hp => cases h; exact .grow d hp
  case h_10 hp =>
    split at h <;> cases h
    · exact .flushSome hp ‹_›
    · exact .flushNone hp ‹_›
  case h_11 b n hp =>
    unfold State.fwrite at h
    split at h <;> cases h
    exact .flushWrite b n hp ‹_›
  case h_12 hp => cases h; exact .flushClear hp
  case h_13 hp => cases h; exact .unRun hp
  case h_14 hp => split at h <;> cases h; exact .join hp ‹_›

theorem step_of_goWri {s s' : State} (h : s.goWri = some s') : Step s .wri s' := by
  unfold State.goWri at h
  split at h
  case h_1 => cases h
  case h_2 => cases h
  case h_3 hp =>
    split at h <;> cases h
    · exact .loop hp ‹_›
    · exact .leave hp (Bool.eq_false_iff.mpr ‹_›)
  case h_4 hp => split at h <;> cases h; exact .wait hp ‹_›
  case h_5 hp => cases h; exact .load hp
  case h_6 b n hp =>
    unfold State.fwrite at h
    by_cases hn : 0 < n
    · rw [if_pos hn] at h; cases h; exact .write b n hp hn
    · rw [if_neg hn] at h; cases h; exact .writeFail b n hp hn
  case h_7 hp => cases h; exact .clear hp
  case h_8 hp => cases h; exact .release hp
  case h_9 hp => cases h; exact .sleep hp
  case h_10 hp =>
    split at h <;> cases h
    · exact .finalSome hp ‹_›
    · exact .finalNone hp ‹_›
  case h_11 b n hp =>
    unfold State.fwrite at h
    by_cases hn : 0 < n
    · rw [if_pos hn] at h; cases h; exact .finalWrite b n hp hn
    · rw [if_neg hn] at h; cases h; exact .finalFail b n hp hn
  case h_12 hp => cases h; exact .finalClear hp

/-- **What one step can do.** -/
theorem step_of_next {s s' : State} {a : Act} (h : next s a = some s') : Step s a s' := by
  cases a with
  | call op =>
    simp only [next] at h
    split at h <;> cases h
    exact .call op ‹_›
  | prod => exact step_of_goProd h
  | wri => exact step_of_goWri h
  | timeout =>
    simp only [next] at h
    split at h <;> cases h
    exact .timeout ‹_›

end Backend.WriteDisk
