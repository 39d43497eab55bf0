import Backend.Queue.Steps
import Backend.Lib.Fifo

/-!
# `CommonQueue` is a loss-free queue

* **`next_refines`**: every step of the machine is a push, a pop or no step of the abstract
  queue `view`; a push takes effect when its write is complete, a pop when its read is;
* `Step.same_of_ne_go`, `not_timeout_of_not_waiting`: an operation that times out only waits;
* **`commonQueue_loss_free`**: order, exclusive slots, indices, semaphores and timeouts in every
  reachable state.
-/

set_option autoImplicit false
set_option linter.unusedSectionVars false

namespace Backend.Queue

open Function

variable {ι T : Type} [Fintype ι] [DecidableEq ι]

/-! ## The abstract queue -/

/-- The abstract queue: the values accepted and not yet read. -/
def view (s : State ι T) : Fifo T := ⟨s.size, s.accepted.drop s.returned.length⟩

theorem view_of_same {s s' : State ι T} (h1 : s'.size = s.size) (h2 : s'.accepted = s.accepted)
    (h3 : s'.returned = s.returned) : view s' = view s := by
  rw [view, view, h1, h2, h3]

theorem Inv.items_endWrite {s : State ι T} (h : Inv s) (t : ι) (x : T) :
    (view (s.endWrite t x)).items = (view s).items ++ [x] := by
  obtain ⟨l, hl, -⟩ := h.ring.data
  simp [view, State.endWrite, State.goto, hl]

theorem Inv.items_endRead {s : State ι T} (h : Inv s) {t : ι} (hp : s.pc t = .popRead) :
    (view s).items = s.data s.head :: (view (s.endRead t)).items := by
  obtain ⟨l, hl, hd⟩ := h.ring.data
  have havail := h.tokens.avail (t := t) (by rw [hp]; rfl)
  cases l with
  | nil =>
    rw [hl, List.append_nil] at havail
    omega
  | cons x l =>
    rw [h.ring.head, hd.head]
    simp [view, State.endRead, State.goto, hl]

/-- **Refinement.** Each step is a push, a pop or no step of the abstract queue. -/
theorem next_refines {s s' : State ι T} {a : ι × Act T} (h : Inv s) (hn : next s a = some s') :
    view s' = view s ∨ (∃ x, (view s).push x = some (view s')) ∨
      ∃ x, (view s).pop = some (x, view s') ∧ s'.returned = s.returned ++ [x] := by
  obtain ⟨t, a⟩ := a
  have hst := step_of_next hn
  cases hst with
  | endWrite x hp =>
    refine Or.inr (Or.inl ⟨x, Fifo.push_eq_some.mpr ⟨?_, ?_⟩⟩)
    · have hroom := h.tokens.room (t := t) (by rw [hp]; rfl)
      have hle := h.tokens.le
      simp only [view, List.length_drop]
      omega
    · rw [← h.items_endWrite t x]
      rfl
  | endRead hp =>
    exact Or.inr (Or.inr ⟨s.data s.head, Fifo.pop_eq_some.mpr ⟨h.items_endRead hp, rfl⟩, rfl⟩)
  | postWork hp =>
    rw [postWork_eq h.tokens.workSem_lt]
    exact Or.inl (view_of_same rfl rfl rfl)
  | postFree x hp =>
    rw [postFree_eq h.tokens.freeSem_lt]
    exact Or.inl (view_of_same rfl rfl rfl)
  | _ => exact Or.inl (view_of_same rfl rfl rfl)

/-! ## Operations that time out -/

/-- The contents are the same: data, indices and the two sequences. -/
def Same (s s' : State ι T) : Prop :=
  s'.data = s.data ∧ s'.tail = s.tail ∧ s'.head = s.head ∧ s'.accepted = s.accepted ∧
    s'.returned = s.returned

/-- In one of the two semaphore waits. -/
def waiting : Pc T → Bool
  | .pushWait _ _ | .popWait _ => true
  | _ => false

theorem Step.same_of_ne_go {s s' : State ι T} {t : ι} {a : Act T} (h : Step s t a s')
    (ha : a ≠ .go) : Same s s' := by
  cases h <;> first | exact absurd rfl ha | exact ⟨rfl, rfl, rfl, rfl, rfl⟩

theorem Step.not_waiting {s s' : State ι T} {t : ι} {a : Act T} (h : Step s t a s')
    (ha : a = .go ∨ a = .timeout) : waiting (s'.pc t) = false := by
  cases h with
  | call => simp at ha
  | eintrPush => simp at ha
  | eintrPop => simp at ha
  | postWork =>
    unfold State.postWork
    split <;> simp [goto_pc, waiting]
  | postFree =>
    unfold State.postFree
    split <;> simp [goto_pc, waiting]
  | _ => simp [State.takeFree, State.startWrite, State.endWrite, State.takeWork, State.startRead,
      State.endRead, goto_pc, waiting]

theorem Step.go_of_not_waiting {s s' : State ι T} {t : ι} {a : Act T} (h : Step s t a s')
    (hw : waiting (s.pc t) = false) (hc : ∀ op, a ≠ .call op) : a = .go := by
  cases h with
  | call op => exact absurd rfl (hc op)
  | eintrPush _ _ hp => rw [hp] at hw; simp [waiting] at hw
  | eintrPop _ hp => rw [hp] at hw; simp [waiting] at hw
  | timeoutPush _ hp => rw [hp] at hw; simp [waiting] at hw
  | timeoutPop hp => rw [hp] at hw; simp [waiting] at hw
  | _ => rfl

theorem not_timeout_of_not_waiting {t : ι} : ∀ (l : List (ι × Act T)) {s s' : State ι T},
    waiting (s.pc t) = false → run next s l = some s' → (∀ op, (t, Act.call op) ∉ l) →
      (t, Act.timeout) ∉ l
  | [], _, _, _, _, _ => List.not_mem_nil
  | (u, a) :: l, s, s', hw, hr, hc => by
    obtain ⟨v, hv, hr'⟩ := Option.bind_eq_some_iff.mp hr
    have hst := step_of_next hv
    have hcl : ∀ op, (t, Act.call op) ∉ l := fun op h => hc op (List.mem_cons_of_mem _ h)
    by_cases hu : t = u
    · subst hu
      have hgo := hst.go_of_not_waiting hw fun op h => hc op (h ▸ List.mem_cons_self)
      have hrest := not_timeout_of_not_waiting l (hst.not_waiting (Or.inl hgo)) hr' hcl
      simp only at hgo
      simp [hgo, hrest]
    · have hw' : waiting (v.pc t) = false := by rw [hst.pc_of_ne hu]; exact hw
      have hrest := not_timeout_of_not_waiting l hw' hr' hcl
      simp [hrest, hu]

/-- **A call that times out changes nothing**: each of its steps leaves data, indices and the two
sequences as they are. -/
theorem same_of_timeout {s s' u u' : State ι T} {t : ι} {op : Op T} {l p q : List (ι × Act T)}
    {a : Act T} (hr : run next s ((t, .call op) :: l ++ [(t, .timeout)]) = some s')
    (hc : ∀ op', (t, Act.call op') ∉ l)
    (hsplit : (t, Act.call op) :: l ++ [(t, .timeout)] = p ++ (t, a) :: q)
    (hp : run next s p = some u) (hn : next u (t, a) = some u') : Same u u' := by
  apply (step_of_next hn).same_of_ne_go
  rintro rfl
  -- after `go` the thread is past its wait, but the timeout is still to come
  rw [hsplit, run_append, hp, Option.bind_some, run_cons _ hn] at hr
  have hw := (step_of_next hn).not_waiting (Or.inl rfl)
  cases p with
  | nil => simp at hsplit
  | cons b p =>
    simp only [List.cons_append, List.cons.injEq] at hsplit
    have hq : (t, Act.timeout) ∈ q := by
      rcases List.eq_nil_or_concat q with rfl | ⟨q, c, rfl⟩
      · have := (List.append_inj' hsplit.2 rfl).2
        simp at this
      · have h := hsplit.2
        rw [List.concat_eq_append, ← List.cons_append, ← List.append_assoc] at h
        have := (List.append_inj' h rfl).2
        simp only [List.cons.injEq, and_true] at this
        simp [this]
    refine not_timeout_of_not_waiting q hw hr (fun op' h => ?_) hq
    have hmem : (t, Act.call op') ∈ l ++ [(t, Act.timeout)] := by
      rw [hsplit.2]; simp [h]
    rcases List.mem_append.mp hmem with h | h
    · exact hc op' h
    · simp at h

/-! ## The value of a pop -/

/-- The value that a pop has read and hands to its caller. -/
def handed : Pc T → Option T
  | .popPost x | .popUnlock x _ => some x
  | _ => none

/-- A pop hands over the value that was read last. -/
def Handed (s : State ι T) : Prop := ∀ t x, handed (s.pc t) = some x → s.returned.getLast? = some x

theorem Handed.move {s s' : State ι T} (h : Handed s) {t : ι} {c : Pc T} (hpc : s'.pc = update s.pc t c)
    (hret : s'.returned = s.returned) (hc : handed c = none ∨ handed c = handed (s.pc t)) : Handed s' := by
  intro u x hu
  rw [hret]
  rw [hpc] at hu
  rcases eq_or_ne u t with rfl | hne
  · rw [update_self] at hu
    rcases hc with hc | hc
    · rw [hc] at hu
      cases hu
    · exact h u x (hc ▸ hu)
  · rw [update_of_ne hne] at hu
    exact h u x hu

theorem Handed.step {s s' : State ι T} {t : ι} {a : Act T} (h : Handed s) (hT : Tokens s) (hs : Step s t a s') :
    Handed s' := by
  cases hs with
  | call op _ => exact h.move rfl rfl (.inl (by cases op <;> rfl))
  | eintrPush | eintrPop => exact h
  | endRead hp =>
    intro u x hu
    have hlast : (s.returned ++ [s.data s.head]).getLast? = some (s.data s.head) := List.getLast?_concat
    rcases eq_or_ne u t with rfl | hne
    · simp only [State.endRead, goto_pc, update_self, handed] at hu
      exact hu ▸ hlast
    · -- only one thread is between the locks
      have h0 := weight_eq_zero_of_ne hT.tally_inR_le (t := t) (by rw [hp]; exact le_rfl) hne
      simp only [State.endRead, goto_pc, update_of_ne hne] at hu
      cases hc : s.pc u <;> simp_all [handed, inR]
  | postWork hp =>
    rw [postWork_eq hT.workSem_lt]
    exact h.move rfl rfl (.inl rfl)
  | postFree x hp =>
    rw [postFree_eq hT.freeSem_lt]
    exact h.move rfl rfl (.inr (by rw [hp]; rfl))
  | timeoutPush | timeoutPop | takeFree | lockW | startWrite | endWrite | unlockW | takeWork | lockR | startRead | unlockR =>
    exact h.move rfl rfl (.inl rfl)

/-! ## The queue is loss-free -/

/-- What holds of the queue in every reachable state. -/
structure LossFree (s : State ι T) : Prop where
  /-- values come out in the order they went in -/
  order : s.returned <+: s.accepted
  /-- a pop hands to its caller the value that it has read -/
  value : ∀ t x, (s.pc t = .popPost x ∨ ∃ r, s.pc t = .popUnlock x r) → s.returned.getLast? = some x
  /-- a producer about to write finds a free slot, and its slot is not touched while it writes -/
  write : ∀ t x, (s.pc t = .pushEnter x → s.slot s.tail = .free) ∧
    (s.pc t = .pushWrite x → s.slot s.tail = .writing)
  /-- a consumer about to read finds a written slot, and its slot is not touched while it reads -/
  read : ∀ t, (s.pc t = .popEnter → s.slot s.head = .full) ∧
    (s.pc t = .popRead → s.slot s.head = .reading)
  /-- the indices are in bounds and masking is reduction modulo the size -/
  index : s.head < s.size ∧ s.tail < s.size ∧ ∀ i < 2 ^ 32, mask s.size i = i % s.size
  sems : s.workSem + s.freeSem ≤ s.size
  /-- no operation that has passed its wait returns `false` -/
  posts : ∀ t, s.pc t ≠ .pushUnlock false ∧ ∀ x, s.pc t ≠ .popUnlock x false
  /-- no step of a call that times out changes the contents -/
  timeout : ∀ (t : ι) (op : Op T) (l : List (ι × Act T)) (s' : State ι T),
    run next s ((t, .call op) :: l ++ [(t, .timeout)]) = some s' →
    (∀ op', (t, Act.call op') ∉ l) → ∀ (p q : List (ι × Act T)) (a : Act T) (u u' : State ι T),
      (t, Act.call op) :: l ++ [(t, .timeout)] = p ++ (t, a) :: q →
      run next s p = some u → next u (t, a) = some u' → Same u u'

theorem Ring.size_pos {s : State ι T} (h : Ring s) : 0 < s.size := by
  obtain ⟨k, -, hk⟩ := h.pow
  rw [hk]
  positivity

theorem Inv.write {s : State ι T} (h : Inv s) {t : ι} {x : T} :
    (s.pc t = .pushEnter x → s.slot s.tail = .free) ∧
      (s.pc t = .pushWrite x → s.slot s.tail = .writing) := by
  have hle := h.tokens.le
  constructor
  · intro hp
    have hroom := h.tokens.room (t := t) (by rw [hp]; rfl)
    have hw : tally isWrite s.pc = 0 := tally_eq_zero_of_exclusive h.tokens.tally_inW_le
      (t := t) (by rw [hp]; exact le_rfl) (by rw [hp]; rfl) isWrite_le_inW
    rw [h.ring.tail, h.slots _ hle.1 hroom, hw]
    simp [expect]
  · intro hp
    have hroom := h.tokens.room (t := t) (by rw [hp]; rfl)
    have hw := le_tally isWrite s.pc t
    rw [hp] at hw
    rw [h.ring.tail, h.slots _ hle.1 hroom, expect, if_neg (lt_irrefl _), if_pos ⟨rfl, hw⟩]

theorem Inv.read {s : State ι T} (h : Inv s) {t : ι} :
    (s.pc t = .popEnter → s.slot s.head = .full) ∧
      (s.pc t = .popRead → s.slot s.head = .reading) := by
  have hpos := h.ring.size_pos
  constructor
  · intro hp
    have havail := h.tokens.avail (t := t) (by rw [hp]; rfl)
    have hr : tally isRead s.pc = 0 := tally_eq_zero_of_exclusive h.tokens.tally_inR_le
      (t := t) (by rw [hp]; exact le_rfl) (by rw [hp]; rfl) isRead_le_inR
    rw [h.ring.head, h.slots _ le_rfl (by omega), hr]
    simp [expect, havail]
  · intro hp
    have havail := h.tokens.avail (t := t) (by rw [hp]; rfl)
    have hr := le_tally isRead s.pc t
    rw [hp] at hr
    rw [h.ring.head, h.slots _ le_rfl (by omega), expect, if_pos havail, if_pos ⟨rfl, hr⟩]

theorem Inv.posts {s : State ι T} (h : Inv s) (t : ι) :
    s.pc t ≠ .pushUnlock false ∧ ∀ x, s.pc t ≠ .popUnlock x false := by
  have h0 := le_tally failed s.pc t
  rw [h.tokens.ok] at h0
  refine ⟨fun hp => ?_, fun x hp => ?_⟩
  · rw [hp] at h0; simp [failed] at h0
  · rw [hp] at h0; simp [failed] at h0

theorem Inv.lossFree {s : State ι T} (h : Inv s) (hd : Handed s) : LossFree s where
  order := by
    obtain ⟨l, hl, -⟩ := h.ring.data
    exact ⟨l, hl.symm⟩
  value t x hp := by
    apply hd t x
    rcases hp with hp | ⟨r, hp⟩
    · rw [hp]
      rfl
    · rw [hp]
      rfl
  write _ _ := h.write
  read _ := h.read
  index := by
    refine ⟨?_, ?_, fun i hi => mask_eq h.ring.pow hi⟩
    · rw [h.ring.head]; exact Nat.mod_lt _ h.ring.size_pos
    · rw [h.ring.tail]; exact Nat.mod_lt _ h.ring.size_pos
  sems := by
    have h1 := h.tokens.work
    have h2 := h.tokens.free
    omega
  posts := h.posts
  timeout _ _ _ _ hr hc _ _ _ _ _ hsplit hp hn := same_of_timeout hr hc hsplit hp hn

/-- **`CommonQueue` is a loss-free queue** for every size up to `2 ^ 30`, any number of threads and
any interleaving of their steps. -/
theorem commonQueue_loss_free (zero : T) (data : ℕ → T) (size : ℕ) (hs : size ≤ 2 ^ 30) :
    ∃ q, CommonQueue.init zero (.new data) size = some q ∧ size ≤ q.size ∧
      ∀ s : State ι T, Reach next (.ofQueue q) s → LossFree s := by
  obtain ⟨k, hk, hle, -, he⟩ := init_spec zero data hs
  refine ⟨_, he, hle, fun s h => ?_⟩
  obtain ⟨hi, hd⟩ := Reach.inv (I := fun s => Inv s ∧ Handed s) h ⟨inv_init hk, fun _ _ hx => by cases hx⟩
    fun _ _ _ hi hn => ⟨hi.1.step (step_of_next hn), hi.2.step hi.1.tokens (step_of_next hn)⟩
  exact hi.lossFree hd

/-- Both threads push, the second pops, the first times out. -/
def pushPop : List (Fin 2 × Act ℕ) :=
  List.flatten [(0, .call (.push .till 7)) :: List.replicate 6 (0, .go),
    (1, .call (.push .till 8)) :: List.replicate 6 (1, .go),
    (1, .call (.pop .time)) :: List.replicate 6 (1, .go),
    [(0, .call (.push .time 9)), (0, .eintr), (0, .timeout)]]

theorem commonQueue_loss_free_two : ∃ q, CommonQueue.init 0 (.new fun _ => 5) 2 = some q ∧
    ∃ s : State (Fin 2) ℕ, Reach next (.ofQueue q) s ∧ s.accepted = [7, 8] ∧ s.returned = [7] ∧ s.freeSem = 1 ∧
      LossFree s := by
  have hr : ((CommonQueue.init 0 (.new fun _ => 5) 2).bind fun q =>
      (run next (.ofQueue q) pushPop).map fun s => (s.accepted, s.returned, s.freeSem)) =
      some ([7, 8], [7], 1) := by decide +kernel
  obtain ⟨q, hq, hall⟩ := commonQueue_loss_free (ι := Fin 2) 0 (fun _ => 5) 2 (by norm_num)
  rw [hq, Option.bind_some] at hr
  obtain ⟨s, hs, hv⟩ := Reach.of_run_map hr
  simp only [Prod.mk.injEq] at hv
  obtain ⟨haccepted, hreturned, hfree⟩ := hv
  exact ⟨q, hq, s, hs, haccepted, hreturned, hfree, hall.2 s hs⟩

end Backend.Queue
