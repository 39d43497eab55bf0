import Mathlib.Data.Nat.Log
import Backend.Queue.Fifo

/-!
# `CommonQueue` in one thread

A call that no other thread disturbs runs to its end, waits for ever, or times out.

* `Call`, `Res`, `CommonQueue.push`, `CommonQueue.pop`, `CommonQueue.call`, `exec`: the calls, with the
  bounds of `m_data` checked;
* **`run_push`**, **`run_pop`**: a call is a run of one thread of the machine;
* `Ref.call`, `Content`, **`call_sim`**, **`exec_sim`**: the calls are those of the bounded queue;
* `CommonQueue.release`, `SameAsNew`, **`sameAsNew_iff`**: `Init` sets neither `m_head` nor `m_tail`; the
  second life is that of a new queue if and only if they agree and are in the new array.
-/

set_option autoImplicit false
set_option linter.unusedSectionVars false

namespace Backend.Queue

open Function

variable {ι T : Type}

/-! ## The calls -/

/-- The calls. -/
inductive Call (T : Type)
  | push (w : Wait) (node : T)
  | pop (w : Wait)
  | getSize
  | getNodeNum

/-- What a call returns, or that it times out, waits for ever or accesses `m_data` out of bounds. -/
inductive Res (T : Type)
  | push (ret : Bool)
  | pop (ret : Bool) (node : T)
  | num (n : ℕ)
  | timeout
  | blocked
  | outOfBounds
  deriving DecidableEq

/-- The wait on a semaphore of value `0`. -/
def Wait.fail {σ : Type} (w : Wait) (s : σ) : Res T × Option σ :=
  match w with
  | .till => (.blocked, none)
  | .time => (.timeout, some s)

/-- `WaitTillPush` and `WaitTimePush`; `none` when the thread does not go on. -/
def CommonQueue.push (q : CommonQueue T) (w : Wait) (node : T) : Res T × Option (CommonQueue T) :=
  if q.freeSem = 0 then w.fail q
  else if q.tail < q.size then
    let q := { q with freeSem := q.freeSem - 1, data := update q.data q.tail node
                      tail := mask q.size (q.tail + 1) }
    match semPost q.workSem with
    | some v => (.push true, some { q with workSem := v })
    | none => (.push false, some q)
  else (.outOfBounds, none)

/-- `WaitTillPop` and `WaitTimePop`. -/
def CommonQueue.pop (q : CommonQueue T) (w : Wait) : Res T × Option (CommonQueue T) :=
  if q.workSem = 0 then w.fail q
  else if q.head < q.size then
    let node := q.data q.head
    let q := { q with workSem := q.workSem - 1, head := mask q.size (q.head + 1) }
    match semPost q.freeSem with
    | some v => (.pop true node, some { q with freeSem := v })
    | none => (.pop false node, some q)
  else (.outOfBounds, none)

/-- One call. -/
def CommonQueue.call (q : CommonQueue T) : Call T → Res T × Option (CommonQueue T)
  | .push w node => q.push w node
  | .pop w => q.pop w
  | .getSize => (.num q.size, some q)
  | .getNodeNum => (.num q.workSem, some q)

/-- A sequence of calls, up to the first one after which the thread does not go on. -/
def exec {σ : Type} (call : σ → Call T → Res T × Option σ) : σ → List (Call T) → List (Res T)
  | _, [] => []
  | s, c :: cs => match call s c with
    | (r, none) => [r]
    | (r, some s') => r :: exec call s' cs

theorem push_eq {q : CommonQueue T} (hfree : q.freeSem ≠ 0) (htail : q.tail < q.size)
    (hwork : q.workSem < semValueMax) (w : Wait) (x : T) : q.push w x = (.push true, some
      { q with freeSem := q.freeSem - 1, workSem := q.workSem + 1, data := update q.data q.tail x
               tail := mask q.size (q.tail + 1) }) := by
  have hpost : semPost q.workSem = some (q.workSem + 1) := if_pos hwork
  rw [CommonQueue.push, if_neg hfree, if_pos htail]
  simp only [hpost]

theorem pop_eq {q : CommonQueue T} (hwork : q.workSem ≠ 0) (hhead : q.head < q.size)
    (hfree : q.freeSem < semValueMax) (w : Wait) : q.pop w = (.pop true (q.data q.head), some
      { q with workSem := q.workSem - 1, freeSem := q.freeSem + 1, head := mask q.size (q.head + 1) }) := by
  have hpost : semPost q.freeSem = some (q.freeSem + 1) := if_pos hfree
  rw [CommonQueue.pop, if_neg hwork, if_pos hhead]
  simp only [hpost]

/-! ## The calls as runs of the machine -/

section

variable [DecidableEq ι] {s : State ι T} {t : ι}

theorem run_push_eq (hpc : s.pc t = .idle) (hlock : s.wLocked = false) (hfree : s.freeSem ≠ 0)
    (hwork : s.workSem < semValueMax) (w : Wait) (x : T) :
    run next s ((t, .call (.push w x)) :: List.replicate 6 (t, .go)) = some
      { s with freeSem := s.freeSem - 1, workSem := s.workSem + 1
               slot := update (update s.slot s.tail .writing) s.tail .full
               data := update s.data s.tail x, tail := mask s.size (s.tail + 1)
               accepted := s.accepted ++ [x] } := by
  have hpost : semPost s.workSem = some (s.workSem + 1) := if_pos hwork
  have hpos : 0 < s.freeSem := Nat.pos_of_ne_zero hfree
  have hback : update s.pc t .idle = s.pc := by rw [← hpc, update_eq_self]
  simp only [List.replicate, run, next, hpc, Option.bind_some, Op.entry, State.go, State.goto, update_self,
    if_pos hpos, State.takeFree, hlock, Bool.false_eq_true, if_false, State.startWrite, State.endWrite,
    State.postWork, hpost, update_idem, hback]

theorem run_pop_eq (hpc : s.pc t = .idle) (hlock : s.rLocked = false) (hwork : s.workSem ≠ 0)
    (hfree : s.freeSem < semValueMax) (w : Wait) :
    run next s ((t, .call (.pop w)) :: List.replicate 6 (t, .go)) = some
      { s with workSem := s.workSem - 1, freeSem := s.freeSem + 1
               slot := update (update s.slot s.head .reading) s.head .free
               head := mask s.size (s.head + 1), returned := s.returned ++ [s.data s.head] } := by
  have hpost : semPost s.freeSem = some (s.freeSem + 1) := if_pos hfree
  have hpos : 0 < s.workSem := Nat.pos_of_ne_zero hwork
  have hback : update s.pc t .idle = s.pc := by rw [← hpc, update_eq_self]
  simp only [List.replicate, run, next, hpc, Option.bind_some, Op.entry, State.go, State.goto, update_self,
    if_pos hpos, State.takeWork, hlock, Bool.false_eq_true, if_false, State.startRead, State.endRead,
    State.postFree, hpost, update_idem, hback]

/-- **A push in one thread** is a run of the machine. -/
theorem run_push (hpc : s.pc t = .idle) (hlock : s.wLocked = false) (hfree : s.freeSem ≠ 0)
    (htail : s.tail < s.size) (hwork : s.workSem < semValueMax) (w : Wait) (x : T) :
    ∃ s' : State ι T, run next s ((t, .call (.push w x)) :: List.replicate 6 (t, .go)) = some s' ∧
      s.push w x = (.push true, some s'.toCommonQueue) ∧ s'.accepted = s.accepted ++ [x] ∧
      s'.returned = s.returned :=
  ⟨_, run_push_eq hpc hlock hfree hwork w x, push_eq hfree htail hwork w x, rfl, rfl⟩

/-- **A pop in one thread** is a run of the machine. -/
theorem run_pop (hpc : s.pc t = .idle) (hlock : s.rLocked = false) (hwork : s.workSem ≠ 0)
    (hhead : s.head < s.size) (hfree : s.freeSem < semValueMax) (w : Wait) :
    ∃ s' : State ι T, run next s ((t, .call (.pop w)) :: List.replicate 6 (t, .go)) = some s' ∧
      s.pop w = (.pop true (s.data s.head), some s'.toCommonQueue) ∧ s'.accepted = s.accepted ∧
      s'.returned = s.returned ++ [s.data s.head] :=
  ⟨_, run_pop_eq hpc hlock hwork hfree w, pop_eq hwork hhead hfree w, rfl, rfl⟩

end

/-! ## The bounded queue -/

/-- One call on the bounded queue. -/
def Ref.call (f : Fifo T) : Call T → Res T × Option (Fifo T)
  | .push w x => match f.push x with
    | none => w.fail f
    | some f' => (.push true, some f')
  | .pop w => match f.pop with
    | none => w.fail f
    | some (x, f') => (.pop true x, some f')
  | .getSize => (.num f.cap, some f)
  | .getNodeNum => (.num f.items.length, some f)

/-- The queue is a ring with the items of `f`. -/
structure Content (q : CommonQueue T) (f : Fifo T) : Prop where
  cap : f.cap = q.size
  pow : ∃ k, k ≤ 30 ∧ q.size = 2 ^ k
  ring : ∃ r, Holds q.data q.size r f.items ∧ q.head = r % q.size ∧ q.tail = (r + f.items.length) % q.size
  work : q.workSem = f.items.length
  free : q.freeSem + f.items.length = q.size

variable {q q' : CommonQueue T} {f f' : Fifo T}

theorem Content.size_pos (h : Content q f) : 0 < q.size ∧ q.size ≤ 2 ^ 30 := by
  obtain ⟨k, hk, he⟩ := h.pow
  rw [he]
  exact ⟨by positivity, Nat.pow_le_pow_right (by norm_num) hk⟩

theorem Content.push (h : Content q f) (w : Wait) {x : T} (hf : f.push x = some f') :
    ∃ q', q.push w x = (.push true, some q') ∧ Content q' f' := by
  obtain ⟨hl, rfl⟩ := Fifo.push_eq_some.mp hf
  obtain ⟨hpos, hle⟩ := h.size_pos
  obtain ⟨r, hr, hhead, htail⟩ := h.ring
  have hwork := h.work
  have hfree := h.free
  rw [h.cap] at hl
  have hlt : q.tail < q.size := by
    rw [htail]
    exact Nat.mod_lt _ hpos
  refine ⟨_, push_eq (by omega) hlt (by unfold semValueMax; omega) w x, ?_⟩
  refine ⟨h.cap, h.pow, ⟨r, ?_, hhead, ?_⟩, ?_, ?_⟩
  · simp only [htail]
    exact hr.push (by omega) x
  · simp only [htail, List.length_append, List.length_singleton]
    rw [mask_succ h.pow, Nat.add_assoc]
  · simp only [List.length_append, List.length_singleton, hwork]
  · simp only [List.length_append, List.length_singleton]
    omega

theorem Content.pop (h : Content q f) (w : Wait) {x : T} (hf : f.pop = some (x, f')) :
    ∃ q', q.pop w = (.pop true x, some q') ∧ Content q' f' := by
  obtain ⟨hitems, hcap⟩ := Fifo.pop_eq_some.mp hf
  obtain ⟨hpos, hle⟩ := h.size_pos
  obtain ⟨r, hr, hhead, htail⟩ := h.ring
  have hwork := h.work
  have hfree := h.free
  rw [hitems] at hr
  rw [hitems, List.length_cons] at hwork hfree htail
  have hlt : q.head < q.size := by
    rw [hhead]
    exact Nat.mod_lt _ hpos
  have hx : q.data q.head = x := by
    rw [hhead]
    exact hr.head
  have hpop := pop_eq (show q.workSem ≠ 0 by omega) hlt (by unfold semValueMax; omega) w
  rw [hx] at hpop
  refine ⟨_, hpop, ?_⟩
  refine ⟨hcap.trans h.cap, h.pow, ⟨r + 1, hr.tail, ?_, ?_⟩, ?_, ?_⟩
  · simp only [hhead]
    exact mask_succ h.pow
  · simp only [htail]
    congr 1
    omega
  · simp only
    omega
  · simp only
    omega

theorem Content.fail (h : Content q f) (w : Wait) :
    (w.fail q : Res T × _).1 = (w.fail f : Res T × _).1 ∧
      Option.Rel Content (w.fail q : Res T × _).2 (w.fail f : Res T × _).2 := by
  cases w with
  | till => exact ⟨rfl, .none⟩
  | time => exact ⟨rfl, .some h⟩

/-- **One call.** -/
theorem call_sim (h : Content q f) (c : Call T) :
    (q.call c).1 = (Ref.call f c).1 ∧ Option.Rel Content (q.call c).2 (Ref.call f c).2 := by
  have hwork := h.work
  have hfree := h.free
  cases c with
  | push w x =>
    cases hf : f.push x with
    | none =>
      have hzero : q.freeSem = 0 := by
        have := h.cap
        by_contra hno
        rw [Fifo.push, if_pos (by omega)] at hf
        cases hf
      simp only [CommonQueue.call, CommonQueue.push, Ref.call, hf, if_pos hzero]
      exact h.fail w
    | some f' =>
      obtain ⟨q', hq, h'⟩ := h.push w hf
      simp only [CommonQueue.call, hq, Ref.call, hf]
      exact ⟨trivial, .some h'⟩
  | pop w =>
    cases hf : f.pop with
    | none =>
      have hzero : q.workSem = 0 := by
        rw [hwork]
        by_contra hno
        obtain ⟨x, l, hl⟩ := List.exists_cons_of_ne_nil (List.ne_nil_of_length_pos (Nat.pos_of_ne_zero hno))
        rw [Fifo.pop, hl] at hf
        cases hf
      simp only [CommonQueue.call, CommonQueue.pop, Ref.call, hf, if_pos hzero]
      exact h.fail w
    | some p =>
      obtain ⟨q', hq, h'⟩ := h.pop w hf
      simp only [CommonQueue.call, hq, Ref.call, hf]
      exact ⟨trivial, .some h'⟩
  | getSize => exact ⟨congrArg Res.num h.cap.symm, .some h⟩
  | getNodeNum => exact ⟨congrArg Res.num hwork, .some h⟩

/-- **A sequence of calls.** -/
theorem exec_sim (h : Content q f) (cs : List (Call T)) :
    exec CommonQueue.call q cs = exec Ref.call f cs := by
  induction cs generalizing q f with
  | nil => rfl
  | cons c cs ih =>
    obtain ⟨hres, hrel⟩ := call_sim h c
    rw [exec, exec]
    generalize q.call c = p at hres hrel
    generalize Ref.call f c = p' at hres hrel
    obtain ⟨r, o⟩ := p
    obtain ⟨r', o'⟩ := p'
    obtain rfl : r = r' := hres
    cases hrel with
    | none => rfl
    | some h' => exact congrArg (r :: ·) (ih h')

/-! ## `Release` and a second `Init` -/

/-- `Release`, with what is left in the freed memory and in the destroyed semaphores. It sets neither
`m_head` nor `m_tail`. -/
def CommonQueue.release (q : CommonQueue T) (data : ℕ → T) (work free : ℕ) : CommonQueue T :=
  { q with data := data, workSem := work, freeSem := free }

/-- On `uint32_t` the loop of `Init` and `sem_init` fail for sizes above `2 ^ 30`. -/
theorem size_le_of_init {zero : T} {size : ℕ} (h : CommonQueue.init zero q size = some q') :
    size ≤ 2 ^ 30 := by
  obtain ⟨m, hm, h⟩ := Option.bind_eq_some_iff.mp h
  obtain ⟨work, -, h⟩ := Option.bind_eq_some_iff.mp h
  obtain ⟨free, hfree, -⟩ := Option.bind_eq_some_iff.mp h
  have hle : m.toNat ≤ semValueMax := by
    by_contra hno
    rw [semInit, if_neg hno] at hfree
    cases hfree
  obtain ⟨hm | ⟨j, hj, rfl⟩, hsize⟩ := pow_of_doubleLoop_u32 hm
  · omega
  · have hj : j ≤ 30 := by
      by_contra hno
      have : j = 31 := by omega
      subst this
      unfold semValueMax at hle
      omega
    have hp : (2 : ℤ) ^ j ≤ 2 ^ 30 := pow_le_pow_right₀ (by norm_num) hj
    omega

theorem init_eq_map (zero : T) (q : CommonQueue T) (data : ℕ → T) (size : ℕ) :
    CommonQueue.init zero q size = (CommonQueue.init zero (.new data) size).map fun r =>
      { r with tail := q.tail, head := q.head } := by
  unfold CommonQueue.init
  cases doubleLoop u32 33 1 size with
  | none => rfl
  | some m =>
    cases semInit 0 with
    | none => rfl
    | some work =>
      cases h : semInit m.toNat with
      | none => simp [h]
      | some free => simp [h]

/-- After `Release` and `Init(size)` every sequence of calls returns what it returns on a new queue. -/
def SameAsNew (zero : T) (size : ℕ) (q : CommonQueue T) : Prop :=
  ∀ data work free, ∃ t t₀, CommonQueue.init zero (q.release data work free) size = some t ∧
    CommonQueue.init zero (.new data) size = some t₀ ∧
      ∀ cs, exec CommonQueue.call t cs = exec CommonQueue.call t₀ cs

theorem content_init (zero : T) {k i : ℕ} (hk : k ≤ 30) (hi : i < 2 ^ k) :
    Content (⟨fun _ => zero, i, i, 2 ^ k, 0, 2 ^ k⟩ : CommonQueue T) ⟨2 ^ k, []⟩ where
  cap := rfl
  pow := ⟨k, hk, rfl⟩
  ring := ⟨i, holds_nil _ _ _, (Nat.mod_eq_of_lt hi).symm, (Nat.mod_eq_of_lt hi).symm⟩
  work := rfl
  free := rfl

/-- One item goes through a queue whose indices are left over only if they agree and are in the array. -/
theorem indices_of_exec {zero x : T} (hx : x ≠ zero) {tail head k : ℕ} (hk : k ≤ 30)
    (h : exec CommonQueue.call ⟨fun _ => zero, tail, head, 2 ^ k, 0, 2 ^ k⟩ [.push .till x, .pop .till] =
      [.push true, .pop true x]) : head = tail ∧ tail < 2 ^ k := by
  have hpos : 0 < 2 ^ k := Nat.two_pow_pos k
  have hpow : 2 ^ k ≤ 2 ^ 30 := Nat.pow_le_pow_right (by norm_num) hk
  by_cases htail : tail < 2 ^ k
  case neg => simp [exec, CommonQueue.call, CommonQueue.push, htail] at h
  case pos =>
    rw [exec, CommonQueue.call, push_eq hpos.ne' htail (show 0 < semValueMax by decide)] at h
    by_cases hhead : head < 2 ^ k
    case neg => simp [exec, CommonQueue.call, CommonQueue.pop, hhead] at h
    case pos =>
      have hfree : 2 ^ k - 1 < semValueMax := by
        unfold semValueMax
        omega
      have hpop := pop_eq (q := ⟨update (fun _ => zero) tail x, mask (2 ^ k) (tail + 1), head, 2 ^ k, 0 + 1,
        2 ^ k - 1⟩) (Nat.succ_ne_zero 0) hhead hfree .till
      simp only [exec, CommonQueue.call, hpop, List.cons.injEq, Res.pop.injEq, true_and, and_true] at h
      refine ⟨?_, htail⟩
      by_contra hne
      rw [update_of_ne hne] at h
      exact hx h.symm

theorem init_eq_of_le (zero : T) {size : ℕ} (h : size ≤ 2 ^ 30) (q : CommonQueue T) :
    Nat.clog 2 size ≤ 30 ∧ CommonQueue.init zero q size =
      some ⟨fun _ => zero, q.tail, q.head, 2 ^ Nat.clog 2 size, 0, 2 ^ Nat.clog 2 size⟩ := by
  obtain ⟨k, hk, hle, hmin, h₀⟩ := init_spec zero q.data h
  have hclog : Nat.clog 2 size = k := by
    apply le_antisymm (Nat.clog_le_of_le_pow hle)
    rcases hmin with rfl | hmin
    · exact Nat.zero_le _
    · have hlt : k - 1 < Nat.clog 2 size := (Nat.lt_clog_iff_pow_lt Nat.one_lt_two).mpr (by exact_mod_cast hmin)
      omega
  rw [hclog]
  refine ⟨hk, ?_⟩
  rw [init_eq_map zero q q.data, h₀, Option.map_some]

/-- **The second life of a queue.** -/
theorem sameAsNew_iff {zero : T} (hT : ∃ x, x ≠ zero) (q : CommonQueue T) {size : ℕ}
    (hsize : size ≤ 2 ^ 30) :
    SameAsNew zero size q ↔ q.head = q.tail ∧ q.tail < 2 ^ Nat.clog 2 size := by
  have hk : Nat.clog 2 size ≤ 30 := (init_eq_of_le zero hsize q).1
  have hinit := fun q' : CommonQueue T => (init_eq_of_le zero hsize q').2
  have hpos : 0 < 2 ^ Nat.clog 2 size := Nat.two_pow_pos _
  constructor
  · intro hall
    obtain ⟨x, hx⟩ := hT
    obtain ⟨t, t₁, ht, ht₁, hres⟩ := hall q.data 0 0
    obtain rfl := Option.some.inj ((hinit _).symm.trans ht)
    obtain rfl := Option.some.inj ((hinit _).symm.trans ht₁)
    apply indices_of_exec hx hk
    apply (hres _).trans
    apply (exec_sim (content_init zero hk hpos) _).trans
    simp [exec, Ref.call, Fifo.push, Fifo.pop, hpos]
  · rintro ⟨hht, hlt⟩ data work free
    refine ⟨_, _, hinit _, hinit _, fun cs => ?_⟩
    simp only [CommonQueue.release, CommonQueue.new, hht]
    rw [exec_sim (content_init zero hk hlt), exec_sim (content_init zero hk hpos)]

end Backend.Queue
