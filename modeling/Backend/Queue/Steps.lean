import Backend.Queue.Model

/-!
# `CommonQueue`: the invariant

A thread between its semaphore wait and its semaphore post holds a token. Counting the tokens
held by threads as well as those in the semaphores gives two conservation laws (`Tokens`); the
slots, indices and monitors follow from them (`Ring`, `Slots`).

* `Tokens.step`, `Ring.step`, `Slots.step`: one lemma for each part of the invariant;
* **`inv_of_reach`**: the invariant holds in every reachable state.
-/

set_option autoImplicit false
set_option linter.unusedSectionVars false

namespace Backend.Queue

open Function

variable {ι T : Type} [Fintype ι] [DecidableEq ι]

/-! ## Weights of the control points -/

/-- Has taken a token of `m_free_sem` and has not written yet. -/
def holdFree : Pc T → ℕ
  | .pushLock _ | .pushEnter _ | .pushWrite _ => 1
  | _ => 0

/-- Has written and still owes `m_work_sem` a post. -/
def owesWork : Pc T → ℕ
  | .pushPost => 1
  | _ => 0

/-- Has taken a token of `m_work_sem` and has not read yet. -/
def holdWork : Pc T → ℕ
  | .popLock | .popEnter | .popRead => 1
  | _ => 0

/-- Has read and still owes `m_free_sem` a post. -/
def owesFree : Pc T → ℕ
  | .popPost _ => 1
  | _ => 0

/-- Between lock and unlock of `m_w_mutex`. -/
def inW : Pc T → ℕ
  | .pushEnter _ | .pushWrite _ | .pushPost | .pushUnlock _ => 1
  | _ => 0

/-- Between lock and unlock of `m_r_mutex`. -/
def inR : Pc T → ℕ
  | .popEnter | .popRead | .popPost _ | .popUnlock _ _ => 1
  | _ => 0

/-- Writing a slot. -/
def isWrite : Pc T → ℕ
  | .pushWrite _ => 1
  | _ => 0

/-- Reading a slot. -/
def isRead : Pc T → ℕ
  | .popRead => 1
  | _ => 0

/-- After a semaphore post that failed. -/
def failed : Pc T → ℕ
  | .pushUnlock false | .popUnlock _ false => 1
  | _ => 0

theorem isWrite_le_inW (c : Pc T) : isWrite c ≤ inW c := by cases c <;> simp [isWrite, inW]

theorem isRead_le_inR (c : Pc T) : isRead c ≤ inR c := by cases c <;> simp [isRead, inR]

/-! ## Token conservation -/

/-- **Token conservation**, mutual exclusion, and no semaphore post that failed. -/
structure Tokens (s : State ι T) : Prop where
  size_le : s.size ≤ 2 ^ 30
  work : s.accepted.length =
    s.returned.length + s.workSem + tally holdWork s.pc + tally owesWork s.pc
  free : s.returned.length + s.size =
    s.accepted.length + s.freeSem + tally holdFree s.pc + tally owesFree s.pc
  wmx : tally inW s.pc = s.wLocked.toNat
  rmx : tally inR s.pc = s.rLocked.toNat
  ok : tally failed s.pc = 0

theorem Tokens.move {s s' : State ι T} (h : Tokens s) {t : ι} {c : Pc T}
    (hpc : s'.pc = update s.pc t c) (hsize : s'.size = s.size)
    (hwork : s'.accepted.length + s.returned.length + s.workSem + holdWork (s.pc t) +
        owesWork (s.pc t) =
      s.accepted.length + s'.returned.length + s'.workSem + holdWork c + owesWork c)
    (hfree : s'.returned.length + s.accepted.length + s.freeSem + holdFree (s.pc t) +
        owesFree (s.pc t) =
      s.returned.length + s'.accepted.length + s'.freeSem + holdFree c + owesFree c)
    (hwmx : inW c + s.wLocked.toNat = inW (s.pc t) + s'.wLocked.toNat)
    (hrmx : inR c + s.rLocked.toNat = inR (s.pc t) + s'.rLocked.toNat)
    (hok : failed c = 0) : Tokens s' := by
  have e1 := tally_update holdWork s.pc t c
  have e2 := tally_update owesWork s.pc t c
  have e3 := tally_update holdFree s.pc t c
  have e4 := tally_update owesFree s.pc t c
  have e5 := tally_update inW s.pc t c
  have e6 := tally_update inR s.pc t c
  have e7 := tally_update failed s.pc t c
  have h1 := h.work
  have h2 := h.free
  have h3 := h.wmx
  have h4 := h.rmx
  have h5 := h.ok
  constructor
  · exact hsize ▸ h.size_le
  · rw [hpc]; omega
  · rw [hpc, hsize]; omega
  · rw [hpc]; omega
  · rw [hpc]; omega
  · rw [hpc]; omega

theorem Tokens.workSem_lt {s : State ι T} (h : Tokens s) : s.workSem < semValueMax := by
  have := h.work
  have := h.free
  have := h.size_le
  unfold semValueMax
  omega

theorem Tokens.freeSem_lt {s : State ι T} (h : Tokens s) : s.freeSem < semValueMax := by
  have := h.work
  have := h.free
  have := h.size_le
  unfold semValueMax
  omega

theorem postWork_eq {s : State ι T} (h : s.workSem < semValueMax) (t : ι) :
    s.postWork t = { s with workSem := s.workSem + 1 }.goto t (.pushUnlock true) := by
  rw [State.postWork, semPost, if_pos h]

theorem postFree_eq {s : State ι T} (h : s.freeSem < semValueMax) (t : ι) (x : T) :
    s.postFree t x = { s with freeSem := s.freeSem + 1 }.goto t (.popUnlock x true) := by
  rw [State.postFree, semPost, if_pos h]

theorem Tokens.step {s s' : State ι T} {t : ι} {a : Act T} (h : Tokens s) (hs : Step s t a s') :
    Tokens s' := by
  cases hs with
  | call op hp => cases op <;> refine h.move rfl rfl ?_ ?_ ?_ ?_ rfl <;> rw [hp] <;> rfl
  | eintrPush w x hp => exact h
  | eintrPop w hp => exact h
  | timeoutPush x hp => refine h.move rfl rfl ?_ ?_ ?_ ?_ rfl <;> rw [hp] <;> rfl
  | timeoutPop hp => refine h.move rfl rfl ?_ ?_ ?_ ?_ rfl <;> rw [hp] <;> rfl
  | takeFree w x hp hf =>
    refine h.move rfl rfl ?_ ?_ ?_ ?_ ?_ <;> simp [hp, State.takeFree, State.goto, holdWork, owesWork, holdFree,
      owesFree, inW, inR, failed]
    omega
  | lockW x hp hl =>
    refine h.move rfl rfl ?_ ?_ ?_ ?_ ?_ <;> simp [hp, hl, State.goto, holdWork, owesWork, holdFree, owesFree,
      inW, inR, failed]
  | startWrite x hp => refine h.move rfl rfl ?_ ?_ ?_ ?_ rfl <;> rw [hp] <;> rfl
  | endWrite x hp =>
    refine h.move rfl rfl ?_ ?_ ?_ ?_ ?_ <;> simp [hp, State.endWrite, State.goto, holdWork, owesWork, holdFree,
      owesFree, inW, inR, failed] <;> omega
  | postWork hp =>
    rw [postWork_eq h.workSem_lt]
    refine h.move rfl rfl ?_ ?_ ?_ ?_ ?_ <;> simp [hp, State.goto, holdWork, owesWork, holdFree,
      owesFree, inW, inR, failed]
    omega
  | unlockW r hp =>
    have hl : s.wLocked.toNat = 1 := by
      have h1 := le_tally inW s.pc t
      rw [hp, h.wmx] at h1
      have h2 := Bool.toNat_le s.wLocked
      simp only [inW] at h1
      omega
    refine h.move rfl rfl ?_ ?_ ?_ ?_ ?_ <;> simp [hp, hl, State.goto, holdWork, owesWork,
      holdFree, owesFree, inW, inR, failed]
  | takeWork w hp hf =>
    refine h.move rfl rfl ?_ ?_ ?_ ?_ ?_ <;> simp [hp, State.takeWork, State.goto, holdWork, owesWork, holdFree,
      owesFree, inW, inR, failed]
    omega
  | lockR hp hl =>
    refine h.move rfl rfl ?_ ?_ ?_ ?_ ?_ <;> simp [hp, hl, State.goto, holdWork, owesWork, holdFree, owesFree,
      inW, inR, failed]
  | startRead hp => refine h.move rfl rfl ?_ ?_ ?_ ?_ rfl <;> rw [hp] <;> rfl
  | endRead hp =>
    refine h.move rfl rfl ?_ ?_ ?_ ?_ ?_ <;> simp [hp, State.endRead, State.goto, holdWork, owesWork, holdFree,
      owesFree, inW, inR, failed] <;> omega
  | postFree x hp =>
    rw [postFree_eq h.freeSem_lt]
    refine h.move rfl rfl ?_ ?_ ?_ ?_ ?_ <;> simp [hp, State.goto, holdWork, owesWork, holdFree,
      owesFree, inW, inR, failed]
    omega
  | unlockR x r hp =>
    have hl : s.rLocked.toNat = 1 := by
      have h1 := le_tally inR s.pc t
      rw [hp, h.rmx] at h1
      have h2 := Bool.toNat_le s.rLocked
      simp only [inR] at h1
      omega
    refine h.move rfl rfl ?_ ?_ ?_ ?_ ?_ <;> simp [hp, hl, State.goto, holdWork, owesWork,
      holdFree, owesFree, inW, inR, failed]

/-! ## The ring and its monitor -/

/-- The unconsumed values are in the ring, in order; the indices are the two positions reduced
modulo the size. -/
structure Ring (s : State ι T) : Prop where
  pow : ∃ k, k ≤ 30 ∧ s.size = 2 ^ k
  tail : s.tail = s.accepted.length % s.size
  head : s.head = s.returned.length % s.size
  data : ∃ l, s.accepted = s.returned ++ l ∧ Holds s.data s.size s.returned.length l

theorem mask_eq {size i : ℕ} (hp : ∃ k, k ≤ 30 ∧ size = 2 ^ k) (hi : i < 2 ^ 32) :
    mask size i = i % size := by
  obtain ⟨k, -, rfl⟩ := hp
  rw [mask, Nat.mod_eq_of_lt hi, mask_eq_mod]

theorem mask_succ {size n : ℕ} (hp : ∃ k, k ≤ 30 ∧ size = 2 ^ k) :
    mask size (n % size + 1) = (n + 1) % size := by
  have hlt : n % size < size := by
    obtain ⟨k, -, rfl⟩ := hp
    exact Nat.mod_lt _ (by positivity)
  have hle : size ≤ 2 ^ 30 := by
    obtain ⟨k, hk, rfl⟩ := hp
    exact Nat.pow_le_pow_right (by norm_num) hk
  rw [mask_eq hp (by omega), slot_succ]

theorem Ring.frame {s s' : State ι T} (h : Ring s) (h1 : s'.size = s.size) (h2 : s'.tail = s.tail)
    (h3 : s'.head = s.head) (h4 : s'.accepted = s.accepted) (h5 : s'.returned = s.returned)
    (h6 : s'.data = s.data) : Ring s' := by
  constructor
  · rw [h1]; exact h.pow
  · rw [h2, h4, h1]; exact h.tail
  · rw [h3, h5, h1]; exact h.head
  · rw [h4, h5, h6, h1]; exact h.data

theorem Ring.step {s s' : State ι T} {t : ι} {a : Act T} (h : Ring s) (hT : Tokens s)
    (hs : Step s t a s') : Ring s' := by
  cases hs with
  | endWrite x hp =>
    obtain ⟨l, hl, hd⟩ := h.data
    have hlen : l.length < s.size := by
      have h1 := hT.free
      have h2 := le_tally holdFree s.pc t
      rw [hp] at h2
      have h3 := congrArg List.length hl
      simp only [holdFree, List.length_append] at h2 h3
      omega
    refine ⟨h.pow, ?_, h.head, l ++ [x], ?_, ?_⟩
    · simp only [State.endWrite, State.goto, List.length_append, List.length_singleton]
      rw [h.tail, mask_succ h.pow]
    · simp only [State.endWrite, State.goto, hl, List.append_assoc]
    · simp only [State.endWrite, State.goto]
      rw [h.tail, hl, List.length_append]
      exact hd.push hlen x
  | endRead hp =>
    obtain ⟨l, hl, hd⟩ := h.data
    cases l with
    | nil =>
      have h1 := hT.work
      have h2 := le_tally holdWork s.pc t
      rw [hp] at h2
      simp only [hl, List.append_nil, holdWork] at h1 h2
      omega
    | cons x l =>
      have hx : s.data s.head = x := by rw [h.head]; exact hd.head
      refine ⟨h.pow, h.tail, ?_, l, ?_, ?_⟩
      · simp only [State.endRead, State.goto, List.length_append, List.length_singleton]
        rw [h.head, mask_succ h.pow]
      · simp only [State.endRead, State.goto, hx, hl, List.append_assoc, List.singleton_append]
      · simp only [State.endRead, State.goto, List.length_append, List.length_singleton]
        exact hd.tail
  | postWork hp => rw [postWork_eq hT.workSem_lt]; exact h.frame rfl rfl rfl rfl rfl rfl
  | postFree x hp => rw [postFree_eq hT.freeSem_lt]; exact h.frame rfl rfl rfl rfl rfl rfl
  | _ => exact h.frame rfl rfl rfl rfl rfl rfl

/-- What the monitor of the slot of position `i` shows, for `a` accepted and `r` consumed values
and given numbers of running reads and writes. -/
def expect (a r reads writes i : ℕ) : Slot :=
  if i < a then if i = r ∧ 0 < reads then .reading else .full
  else if i = a ∧ 0 < writes then .writing else .free

/-- **The monitor**: the slots of unconsumed values are full, the others are free, up to the
running accesses. -/
def Slots (s : State ι T) : Prop :=
  ∀ i, s.returned.length ≤ i → i < s.returned.length + s.size → s.slot (i % s.size) =
    expect s.accepted.length s.returned.length (tally isRead s.pc) (tally isWrite s.pc) i

theorem Slots.frame {s s' : State ι T} (h : Slots s) (h1 : s'.size = s.size)
    (h2 : s'.accepted = s.accepted) (h3 : s'.returned = s.returned) (h4 : s'.slot = s.slot)
    {t : ι} {c : Pc T} (h5 : s'.pc = update s.pc t c) (h6 : isRead c = isRead (s.pc t))
    (h7 : isWrite c = isWrite (s.pc t)) : Slots s' := by
  intro i hi hi'
  rw [h3] at hi
  rw [h3, h1] at hi'
  rw [h1, h2, h3, h4, h5, tally_update_eq h6, tally_update_eq h7]
  exact h i hi hi'

theorem Tokens.tally_inW_le {s : State ι T} (h : Tokens s) : tally inW s.pc ≤ 1 :=
  h.wmx ▸ Bool.toNat_le s.wLocked

theorem Tokens.tally_inR_le {s : State ι T} (h : Tokens s) : tally inR s.pc ≤ 1 :=
  h.rmx ▸ Bool.toNat_le s.rLocked

theorem Tokens.room {s : State ι T} (h : Tokens s) {t : ι} (ht : holdFree (s.pc t) = 1) :
    s.accepted.length < s.returned.length + s.size := by
  have h1 := h.free
  have h2 := le_tally holdFree s.pc t
  omega

theorem Tokens.avail {s : State ι T} (h : Tokens s) {t : ι} (ht : holdWork (s.pc t) = 1) :
    s.returned.length < s.accepted.length := by
  have h1 := h.work
  have h2 := le_tally holdWork s.pc t
  omega

theorem Tokens.le {s : State ι T} (h : Tokens s) : s.returned.length ≤ s.accepted.length ∧
    s.accepted.length ≤ s.returned.length + s.size := by
  have h1 := h.work
  have h2 := h.free
  omega

theorem Slots.startWrite {s : State ι T} {t : ι} {x : T} (h : Slots s) (hT : Tokens s)
    (hR : Ring s) (hp : s.pc t = .pushEnter x) : Slots (s.startWrite t x) := by
  have hroom := hT.room (t := t) (by rw [hp]; rfl)
  have hw : tally isWrite s.pc = 0 := tally_eq_zero_of_exclusive hT.tally_inW_le
    (t := t) (by rw [hp]; exact le_rfl) (by rw [hp]; rfl) isWrite_le_inW
  have hw' : tally isWrite (update s.pc t (.pushWrite x)) = 1 := by
    have := tally_update isWrite s.pc t (.pushWrite x)
    simp only [hp, isWrite] at this
    omega
  have hr' : tally isRead (update s.pc t (.pushWrite x)) = tally isRead s.pc :=
    tally_update_eq (by rw [hp]; rfl)
  intro i hi hi'
  simp only [State.startWrite, State.goto] at hi hi' ⊢
  rw [hw', hr', hR.tail]
  have hle := hT.le
  by_cases hia : i = s.accepted.length
  · subst hia
    rw [update_self, expect, if_neg (lt_irrefl _), if_pos ⟨rfl, Nat.one_pos⟩]
  · have hne : i % s.size ≠ s.accepted.length % s.size := fun he =>
      hia (slot_inj hi hi' hle.1 hroom he)
    rw [update_of_ne hne, h i hi hi', hw, expect, expect]
    simp [hia]

theorem Slots.endWrite {s : State ι T} {t : ι} {x : T} (h : Slots s) (hT : Tokens s)
    (hR : Ring s) (hp : s.pc t = .pushWrite x) : Slots (s.endWrite t x) := by
  have hroom := hT.room (t := t) (by rw [hp]; rfl)
  have hw' : tally isWrite (update s.pc t .pushPost) = 0 := by
    have h1 := tally_update isWrite s.pc t .pushPost
    have h2 := tally_mono isWrite_le_inW s.pc
    have h3 := hT.tally_inW_le
    simp only [hp, isWrite] at h1
    omega
  have hr' : tally isRead (update s.pc t .pushPost) = tally isRead s.pc :=
    tally_update_eq (by rw [hp]; rfl)
  have hread : 0 < tally isRead s.pc → s.returned.length < s.accepted.length := by
    intro h0
    have h1 := tally_mono (v := isRead) (w := holdWork) (fun c => by
      cases c <;> simp [isRead, holdWork]) s.pc
    have h2 := hT.work
    omega
  intro i hi hi'
  simp only [State.endWrite, State.goto] at hi hi' ⊢
  rw [hw', hr', hR.tail, List.length_append, List.length_singleton]
  have hle := hT.le
  by_cases hia : i = s.accepted.length
  · subst hia
    rw [update_self, expect, if_pos (Nat.lt_succ_self _), if_neg]
    rintro ⟨h1, h2⟩
    have := hread h2
    omega
  · have hne : i % s.size ≠ s.accepted.length % s.size := fun he =>
      hia (slot_inj hi hi' hle.1 hroom he)
    rw [update_of_ne hne, h i hi hi', expect, expect]
    have hlt : i < s.accepted.length + 1 ↔ i < s.accepted.length := by omega
    simp [hia, hlt]

theorem Slots.startRead {s : State ι T} {t : ι} (h : Slots s) (hT : Tokens s)
    (hR : Ring s) (hp : s.pc t = .popEnter) : Slots (s.startRead t) := by
  have havail := hT.avail (t := t) (by rw [hp]; rfl)
  have hr : tally isRead s.pc = 0 := tally_eq_zero_of_exclusive hT.tally_inR_le
    (t := t) (by rw [hp]; exact le_rfl) (by rw [hp]; rfl) isRead_le_inR
  have hr' : tally isRead (update s.pc t .popRead) = 1 := by
    have := tally_update isRead s.pc t .popRead
    simp only [hp, isRead] at this
    omega
  have hw' : tally isWrite (update s.pc t .popRead) = tally isWrite s.pc :=
    tally_update_eq (by rw [hp]; rfl)
  intro i hi hi'
  simp only [State.startRead, State.goto] at hi hi' ⊢
  rw [hw', hr', hR.head]
  by_cases hir : i = s.returned.length
  · subst hir
    rw [update_self, expect, if_pos havail, if_pos ⟨rfl, Nat.one_pos⟩]
  · have hne : i % s.size ≠ s.returned.length % s.size := fun he =>
      hir (slot_inj hi hi' le_rfl (by omega) he)
    rw [update_of_ne hne, h i hi hi', hr, expect, expect]
    simp [hir]

theorem Slots.endRead {s : State ι T} {t : ι} (h : Slots s) (hT : Tokens s)
    (hR : Ring s) (hp : s.pc t = .popRead) : Slots (s.endRead t) := by
  have havail := hT.avail (t := t) (by rw [hp]; rfl)
  have hr' : tally isRead (update s.pc t (.popPost (s.data s.head))) = 0 := by
    have h1 := tally_update isRead s.pc t (.popPost (s.data s.head))
    have h2 := tally_mono isRead_le_inR s.pc
    have h3 := hT.tally_inR_le
    simp only [hp, isRead] at h1
    omega
  have hw' : tally isWrite (update s.pc t (.popPost (s.data s.head))) = tally isWrite s.pc :=
    tally_update_eq (by rw [hp]; rfl)
  have hwrite : 0 < tally isWrite s.pc → s.accepted.length < s.returned.length + s.size := by
    intro h0
    have h1 := tally_mono (v := isWrite) (w := holdFree) (fun c => by
      cases c <;> simp [isWrite, holdFree]) s.pc
    have h2 := hT.free
    omega
  have hle := hT.le
  intro i hi hi'
  simp only [State.endRead, State.goto, List.length_append, List.length_singleton] at hi hi' ⊢
  rw [hw', hr', hR.head]
  -- the slot just read is the last one of the window that starts one position later
  by_cases hir : i = s.returned.length + s.size
  · subst hir
    rw [Nat.add_mod_right, update_self, expect, if_neg (by omega), if_neg]
    rintro ⟨h1, h2⟩
    have := hwrite h2
    omega
  · have hne : i % s.size ≠ s.returned.length % s.size := by
      intro he
      have := slot_inj (r := s.returned.length) (by omega) (by omega) le_rfl (by omega) he
      omega
    rw [update_of_ne hne, h i (by omega) (by omega), expect, expect]
    have h1 : i ≠ s.returned.length := by omega
    simp [h1]

theorem Slots.step {s s' : State ι T} {t : ι} {a : Act T} (h : Slots s) (hT : Tokens s)
    (hR : Ring s) (hs : Step s t a s') : Slots s' := by
  cases hs with
  | call op hp => cases op <;> exact h.frame rfl rfl rfl rfl rfl (by rw [hp]; rfl) (by rw [hp]; rfl)
  | eintrPush w x hp => exact h
  | eintrPop w hp => exact h
  | startWrite x hp => exact h.startWrite hT hR hp
  | endWrite x hp => exact h.endWrite hT hR hp
  | startRead hp => exact h.startRead hT hR hp
  | endRead hp => exact h.endRead hT hR hp
  | postWork hp =>
    rw [postWork_eq hT.workSem_lt]
    exact h.frame rfl rfl rfl rfl rfl (by rw [hp]; rfl) (by rw [hp]; rfl)
  | postFree x hp =>
    rw [postFree_eq hT.freeSem_lt]
    exact h.frame rfl rfl rfl rfl rfl (by rw [hp]; rfl) (by rw [hp]; rfl)
  | timeoutPush x hp => exact h.frame rfl rfl rfl rfl rfl (by rw [hp]; rfl) (by rw [hp]; rfl)
  | timeoutPop hp => exact h.frame rfl rfl rfl rfl rfl (by rw [hp]; rfl) (by rw [hp]; rfl)
  | takeFree w x hp _ => exact h.frame rfl rfl rfl rfl rfl (by rw [hp]; rfl) (by rw [hp]; rfl)
  | lockW x hp _ => exact h.frame rfl rfl rfl rfl rfl (by rw [hp]; rfl) (by rw [hp]; rfl)
  | unlockW r hp => exact h.frame rfl rfl rfl rfl rfl (by rw [hp]; rfl) (by rw [hp]; rfl)
  | takeWork w hp _ => exact h.frame rfl rfl rfl rfl rfl (by rw [hp]; rfl) (by rw [hp]; rfl)
  | lockR hp _ => exact h.frame rfl rfl rfl rfl rfl (by rw [hp]; rfl) (by rw [hp]; rfl)
  | unlockR x r hp => exact h.frame rfl rfl rfl rfl rfl (by rw [hp]; rfl) (by rw [hp]; rfl)

/-! ## What steps of other threads leave alone -/

theorem goto_pc (s : State ι T) (t : ι) (c : Pc T) : (s.goto t c).pc = update s.pc t c := rfl

theorem Step.pc_of_ne {s s' : State ι T} {t u : ι} {a : Act T} (h : Step s t a s') (hu : u ≠ t) :
    s'.pc u = s.pc u := by
  cases h with
  | eintrPush => rfl
  | eintrPop => rfl
  | postWork =>
    unfold State.postWork
    split <;> exact update_of_ne hu _ _
  | postFree =>
    unfold State.postFree
    split <;> exact update_of_ne hu _ _
  | _ => exact update_of_ne hu _ _

theorem Step.size_eq {s s' : State ι T} {t : ι} {a : Act T} (h : Step s t a s') : s'.size = s.size := by
  cases h with
  | postWork =>
    unfold State.postWork
    split <;> rfl
  | postFree =>
    unfold State.postFree
    split <;> rfl
  | _ => rfl

/-- The number of values read or about to be read by a thread with a work token. -/
def claimed (s : State ι T) : ℕ := s.returned.length + tally holdWork s.pc

/-- The number of values whose post on `m_work_sem` has been made. -/
def settled (s : State ι T) : ℕ := claimed s + s.workSem

theorem Tokens.settled_add {s : State ι T} (h : Tokens s) :
    settled s + tally owesWork s.pc = s.accepted.length := by
  have := h.work
  unfold settled claimed
  omega

theorem progress_of_same {s s' : State ι T} {t : ι} {c : Pc T} (hpc : s'.pc = update s.pc t c)
    (ha : s'.accepted = s.accepted) (hr : s'.returned.length + holdWork c =
      s.returned.length + holdWork (s.pc t)) (hw : s'.workSem = s.workSem) :
    s.accepted <+: s'.accepted ∧ claimed s ≤ claimed s' ∧ settled s ≤ settled s' := by
  have h := tally_update holdWork s.pc t c
  refine ⟨ha ▸ List.prefix_rfl, ?_, ?_⟩
  · unfold claimed; rw [hpc]; omega
  · unfold settled claimed; rw [hpc]; omega

/-- **Progress**: values are only appended, and no value leaves the claimed or the settled ones. -/
theorem Step.progress {s s' : State ι T} {t : ι} {a : Act T} (h : Step s t a s') (hT : Tokens s) :
    s.accepted <+: s'.accepted ∧ claimed s ≤ claimed s' ∧ settled s ≤ settled s' := by
  cases h with
  | call op hp => cases op <;> exact progress_of_same rfl rfl (by rw [hp]; rfl) rfl
  | eintrPush w x hp => exact ⟨List.prefix_rfl, le_rfl, le_rfl⟩
  | eintrPop w hp => exact ⟨List.prefix_rfl, le_rfl, le_rfl⟩
  | endWrite x hp =>
    have h1 : tally holdWork (update s.pc t .pushPost) = tally holdWork s.pc :=
      tally_update_eq (by rw [hp]; rfl)
    refine ⟨⟨[x], rfl⟩, ?_, ?_⟩
    · exact Nat.add_le_add_left h1.ge _
    · exact Nat.add_le_add_right (Nat.add_le_add_left h1.ge _) _
  | takeWork w hp hf =>
    have h1 := tally_update holdWork s.pc t .popLock
    simp only [hp, holdWork] at h1
    refine ⟨List.prefix_rfl, ?_, ?_⟩ <;>
      simp only [settled, claimed, State.takeWork, goto_pc] <;>
      simp only [State.goto] <;> omega
  | postWork hp =>
    rw [postWork_eq hT.workSem_lt]
    have h1 := tally_update holdWork s.pc t (.pushUnlock true)
    simp only [hp, holdWork] at h1
    refine ⟨List.prefix_rfl, ?_, ?_⟩ <;>
      simp only [settled, claimed, goto_pc] <;>
      simp only [State.goto] <;> omega
  | postFree x hp =>
    rw [postFree_eq hT.freeSem_lt]
    exact progress_of_same rfl rfl (by rw [hp]; rfl) rfl
  | endRead hp =>
    refine progress_of_same rfl rfl ?_ rfl
    simp [State.endRead, State.goto, hp, holdWork]
  | timeoutPush x hp => exact progress_of_same rfl rfl (by rw [hp]; rfl) rfl
  | timeoutPop hp => exact progress_of_same rfl rfl (by rw [hp]; rfl) rfl
  | takeFree w x hp _ => exact progress_of_same rfl rfl (by rw [hp]; rfl) rfl
  | lockW x hp _ => exact progress_of_same rfl rfl (by rw [hp]; rfl) rfl
  | startWrite x hp => exact progress_of_same rfl rfl (by rw [hp]; rfl) rfl
  | unlockW r hp => exact progress_of_same rfl rfl (by rw [hp]; rfl) rfl
  | lockR hp _ => exact progress_of_same rfl rfl (by rw [hp]; rfl) rfl
  | startRead hp => exact progress_of_same rfl rfl (by rw [hp]; rfl) rfl
  | unlockR x r hp => exact progress_of_same rfl rfl (by rw [hp]; rfl) rfl

/-! ## The invariant -/

/-- The invariant of the queue. -/
structure Inv (s : State ι T) : Prop where
  tokens : Tokens s
  ring : Ring s
  slots : Slots s

theorem Inv.step {s s' : State ι T} {t : ι} {a : Act T} (h : Inv s) (hs : Step s t a s') : Inv s' :=
  ⟨h.tokens.step hs, h.ring.step h.tokens hs, h.slots.step h.tokens h.ring hs⟩

theorem init_spec (zero : T) (data : ℕ → T) {size : ℕ} (hs : size ≤ 2 ^ 30) :
    ∃ k, k ≤ 30 ∧ size ≤ 2 ^ k ∧ (k = 0 ∨ (2 : ℤ) ^ (k - 1) < size) ∧ CommonQueue.init zero (.new data) size =
      some ⟨fun _ => zero, 0, 0, 2 ^ k, 0, 2 ^ k⟩ := by
  have hs' : (size : ℤ) ≤ 2 ^ 30 := by exact_mod_cast hs
  obtain ⟨k, hk, he, hle, hlt⟩ := doubleLoop_spec (fun x h0 h => u32_of_lt h0 (by omega)) hs'
  refine ⟨k, hk, by exact_mod_cast hle, hlt, ?_⟩
  have hp : (2 : ℕ) ^ k ≤ 2 ^ 30 := Nat.pow_le_pow_right (by norm_num) hk
  have ht : ((2 : ℤ) ^ k).toNat = 2 ^ k := by norm_cast
  have h0 : semInit 0 = some 0 := if_pos (Nat.zero_le _)
  have hf : semInit (2 ^ k) = some (2 ^ k) := if_pos (by unfold semValueMax; omega)
  simp only [CommonQueue.init, CommonQueue.new, he, ht, h0, hf, Option.bind_eq_bind,
    Option.bind_some, Option.pure_def]

theorem inv_init {zero : T} {k : ℕ} (hk : k ≤ 30) :
    Inv (State.ofQueue ⟨fun _ => zero, 0, 0, 2 ^ k, 0, 2 ^ k⟩ : State ι T) := by
  have hz : ∀ w : Pc T → ℕ, w .idle = 0 → tally w (fun _ : ι => Pc.idle) = 0 := fun w hw =>
    tally_eq_zero fun _ => hw
  refine ⟨⟨Nat.pow_le_pow_right (by norm_num) hk, ?_, ?_, hz _ rfl, hz _ rfl, hz _ rfl⟩,
    ⟨⟨k, hk, rfl⟩, by simp [State.ofQueue], by simp [State.ofQueue],
      [], rfl, holds_nil _ _ _⟩, ?_⟩
  · simp [State.ofQueue, hz holdWork rfl, hz owesWork rfl]
  · simp [State.ofQueue, hz holdFree rfl, hz owesFree rfl]
  · intro i _ _
    simp [State.ofQueue, expect, hz isWrite rfl]

/-- **The invariant holds in every reachable state.** -/
theorem inv_of_reach {s₀ s : State ι T} (h₀ : Inv s₀) (h : Reach next s₀ s) : Inv s :=
  h.inv h₀ fun _ _ _ hi hn => hi.step (step_of_next hn)

end Backend.Queue
