import Backend.Lib.Run
import Mathlib.Algebra.Group.Nat.Defs

/-!
# `DynamicLoader`: reloading an instance under its readers (`base/util/dynamic_loader.cc`)

Readers take the work instance by `GetWorkInstance` and give it back by `ReleaseWorkInstance`;
one loader thread swaps a new instance in, waits until the counter of the old one is `0`, and
releases the old one. The machine interleaves the locked sections of the readers with the steps
of `LoadInstance`.

* `Pc`, `Act`, `State`, `next`: the loader, its readers and the list of the pointers they hold;
* `Step`, **`step_of_next`**: what one step can do.
-/

set_option autoImplicit false

namespace Backend.Loader

variable {ι P : Type} [DecidableEq ι] [DecidableEq P]

/-- Where the loader thread is. -/
inductive Pc (P : Type)
  /-- outside `LoadInstance` -/
  | idle
  /-- `DoLoadInstance` has returned `true`, before `temp = m_work_instance` -/
  | loaded
  /-- before the locked section -/
  | swap (temp : Option P)
  /-- in the loop on `m_load_instance_num` -/
  | drain
  /-- before the call of `ReleaseInstance` -/
  | release

/-- Between the swap and the end of that `LoadInstance`. -/
def Pc.swapped : Pc P → Bool
  | .drain | .release => true
  | _ => false

/-- The steps: the locked sections of reader `t`, and the steps of `LoadInstance`. A pointer is
`none` when it is `NULL`. -/
inductive Act (ι P : Type)
  /-- `GetWorkInstance` by reader `t` -/
  | get (t : ι)
  /-- `ReleaseWorkInstance(p)` by reader `t` -/
  | put (t : ι) (p : Option P)
  /-- `DoLoadInstance` stores `p` and returns `true` -/
  | load (p : Option P)
  /-- `DoLoadInstance` returns `false` -/
  | loadFail
  /-- `temp = m_work_instance` -/
  | temp
  /-- the locked section of `LoadInstance` -/
  | swap
  /-- a test of `0 != m_load_instance_num` -/
  | test
  /-- the end of `LoadInstance`, with the call of `ReleaseInstance` -/
  | release

/-- The fields of the object, the loader thread, the pointers held by readers, one entry for each
`GetWorkInstance` that has not been answered by its `ReleaseWorkInstance`, and the instances
passed to `ReleaseInstance`. -/
structure State (ι P : Type) where
  work : Option P
  load : Option P
  workNum : ℕ
  loadNum : ℕ
  pc : Pc P
  held : List (ι × Option P)
  freed : List P

/-- The constructor. -/
def State.new : State ι P := ⟨none, none, 0, 0, .idle, [], []⟩

/-- `m_work_instance_num++` on `uint32_t`. -/
def incr (n : ℕ) : ℕ := (n + 1) % 2 ^ 32

/-- `m_work_instance_num--` on `uint32_t`. -/
def decr (n : ℕ) : ℕ := (n + 2 ^ 32 - 1) % 2 ^ 32

/-- `GetWorkInstance`. -/
def State.getWorkInstance (s : State ι P) (t : ι) : State ι P :=
  { s with workNum := incr s.workNum, held := (t, s.work) :: s.held }

/-- `ReleaseWorkInstance(p)`. -/
def State.releaseWorkInstance (s : State ι P) (t : ι) (p : Option P) : State ι P :=
  if p = s.work then { s with workNum := decr s.workNum, held := s.held.erase (t, p) }
  else if p = s.load then { s with loadNum := decr s.loadNum, held := s.held.erase (t, p) }
  else { s with held := s.held.erase (t, p) }

/-- The locked section of `LoadInstance`. -/
def State.swap (s : State ι P) (temp : Option P) : State ι P :=
  { s with work := s.load, load := temp, loadNum := s.workNum, workNum := 0, pc := .drain }

/-- `if (NULL != m_load_instance) ReleaseInstance(&m_load_instance)`, which frees the instance and
stores `NULL`. -/
def State.release (s : State ι P) : State ι P :=
  match s.load with
  | none => { s with pc := .idle }
  | some p => { s with load := none, pc := .idle, freed := s.freed ++ [p] }

/-- One step. `DoLoadInstance` produces a pointer different from the work instance, and a reader
gives back a pointer it holds. -/
def next (s : State ι P) (a : Act ι P) : Option (State ι P) :=
  match a, s.pc with
  | .get t, _ => some (s.getWorkInstance t)
  | .put t p, _ => if (t, p) ∈ s.held then some (s.releaseWorkInstance t p) else none
  | .load p, .idle => if p = s.work then none else some { s with load := p, pc := .loaded }
  | .loadFail, .idle => some s
  | .temp, .loaded => some { s with pc := .swap s.work }
  | .swap, .swap temp => some (s.swap temp)
  | .test, .drain => if s.loadNum = 0 then some { s with pc := .release } else some s
  | .release, .release => some s.release
  | _, _ => none

/-- What one step can do. -/
inductive Step (s : State ι P) : Act ι P → State ι P → Prop
  | get (t : ι) : Step s (.get t) (s.getWorkInstance t)
  | put (t : ι) (p : Option P) : (t, p) ∈ s.held → Step s (.put t p) (s.releaseWorkInstance t p)
  | load (p : Option P) : s.pc = .idle → p ≠ s.work →
      Step s (.load p) { s with load := p, pc := .loaded }
  | loadFail : s.pc = .idle → Step s .loadFail s
  | temp : s.pc = .loaded → Step s .temp { s with pc := .swap s.work }
  | swap (temp : Option P) : s.pc = .swap temp → Step s .swap (s.swap temp)
  | drained : s.pc = .drain → s.loadNum = 0 → Step s .test { s with pc := .release }
  | spin : s.pc = .drain → s.loadNum ≠ 0 → Step s .test s
  | release : s.pc = .release → Step s .release s.release

/-- **What one step can do.** -/
theorem step_of_next {s s' : State ι P} {a : Act ι P} (h : next s a = some s') : Step s a s' := by
  unfold next at h
  split at h
  case h_1 _ t => cases h; exact .get t
  case h_2 _ t p => split at h <;> cases h; exact .put t p ‹_›
  case h_3 p hp => split at h <;> cases h; exact .load p hp ‹_›
  case h_4 hp => cases h; exact .loadFail hp
  case h_5 hp => cases h; exact .temp hp
  case h_6 temp hp => cases h; exact .swap temp hp
  case h_7 hp =>
    split at h <;> cases h
    · exact .drained hp ‹_›
    · exact .spin hp ‹_›
  case h_8 hp => cases h; exact .release hp
  case h_9 => cases h

end Backend.Loader
