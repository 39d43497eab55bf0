import Backend.ThreadPool.Model

/-!
# `ThreadPool` runs every accepted task once and drains before `Stop` returns

A worker leaves when it has read `m_continue` as `false` and the count as `0`. At that moment every
task with a post on `m_work_sem` is claimed by a worker (`Queue.claimed`), and a claimed task stays
claimed until it is read and run.

* `AdderOk`, `WorkerOk`, `Inv`: the invariant, for each kind of thread and for the monitors;
* `Inv.adder_step`, `Inv.pop_step`, `Inv.stop_step`, `Inv.step`: the steps;
* `Drained`: what holds in every reachable state;
* **`drained_of_reach`**.
-/

set_option autoImplicit false
set_option linter.unusedSectionVars false

namespace Backend.ThreadPool

open Function

variable {A T : Type} {n : ℕ} [Fintype A] [DecidableEq A]

/-- The jobs whose post on `m_work_sem` has been made. -/
def State.settled (s : State A n T) : List (Job A T) :=
  s.queue.accepted.take (Queue.settled s.queue)

/-- The jobs that are read or about to be read by a worker. -/
def State.claimed (s : State A n T) : List (Job A T) :=
  s.queue.accepted.take (Queue.claimed s.queue)

/-- A job that a thread has read and not yet returned from the queue operation with. -/
def popped : Queue.Pc (Job A T) → Option (Job A T)
  | .popPost j | .popUnlock j _ => some j
  | _ => none

/-- Inside a pop. -/
def inPop : Queue.Pc (Job A T) → Bool
  | .popWait _ | .popLock | .popEnter | .popRead | .popPost _ | .popUnlock _ _ => true
  | _ => false

/-- The caller `a` of `AddTask`: before its write its job is new; before its post the job is
accepted; after it the job is settled. -/
def AdderOk (s : State A n T) (a : A) : Prop :=
  match s.queue.pc (.inl a) with
  | .idle => True
  | .pushWait _ j | .pushLock j | .pushEnter j | .pushWrite j => j = s.job a ∧ j.adder = a ∧
      j.number < s.calls a ∧ ∀ i ∈ s.queue.accepted, i.adder = a → i.number < j.number
  | .pushPost => s.job a ∈ s.queue.accepted
  | .pushUnlock _ => s.job a ∈ s.settled
  | _ => False

/-- Worker `w` is inside the queue exactly while it is in `WaitTimePop`. -/
def WorkerOk (s : State A n T) (w : Fin n) : Prop :=
  match s.worker w with
  | .pop => inPop (s.queue.pc (.inr w)) = true
  | _ => s.queue.pc (.inr w) = .idle

/-- `Stop` waits for the workers one after another. -/
def StopOk (s : State A n T) : Prop :=
  match s.stopper with
  | .idle | .flag => s.cont = true
  | .join i => ∀ w : Fin n, w < i → s.worker w = .exited
  | .done => ∀ w, s.worker w = .exited

/-- The invariant. -/
structure Inv (s : State A n T) : Prop where
  queue : Queue.Inv s.queue
  adder : ∀ a, AdderOk s a
  worker : ∀ w, WorkerOk s w
  stop : StopOk s
  number : ∀ j ∈ s.queue.accepted, j.number < s.calls j.adder
  nodup : (s.queue.accepted.map Job.id).Nodup
  returned : (∀ w, popped (s.queue.pc (.inr w)) = none) → s.queue.returned = s.started
  returnedOne : ∀ w j, popped (s.queue.pc (.inr w)) = some j →
    s.queue.returned = s.started ++ [j]
  added : ∀ j ∈ s.added, j ∈ s.settled
  early : ∀ j ∈ s.early, j ∈ s.added
  runs : ∀ j ∈ s.started, j ∈ s.finished ∨ ∃ w, s.worker w = .run j
  leaving : ∀ w, s.worker w = .count ∨ s.worker w = .exited → s.cont = false
  exits : ∀ w, s.worker w = .exited → ∀ j ∈ s.early, j ∈ s.claimed

/-! ## Membership in the settled and the claimed jobs -/

theorem mem_take_of_prefix {α : Type} {l l' : List α} {m m' : ℕ} (h : l <+: l') (hm : m ≤ m') {x : α}
    (hx : x ∈ l.take m) : x ∈ l'.take m' :=
  (List.take_subset_take_left l' hm) ((h.take m).subset hx)

theorem mem_settled {s s' : State A n T} (ha : s.queue.accepted <+: s'.queue.accepted)
    (hm : Queue.settled s.queue ≤ Queue.settled s'.queue) {j : Job A T} (h : j ∈ s.settled) :
    j ∈ s'.settled := mem_take_of_prefix ha hm h

theorem mem_claimed {s s' : State A n T} (ha : s.queue.accepted <+: s'.queue.accepted)
    (hm : Queue.claimed s.queue ≤ Queue.claimed s'.queue) {j : Job A T} (h : j ∈ s.claimed) :
    j ∈ s'.claimed := mem_take_of_prefix ha hm h

/-! ## Steps of the queue -/

/-- A step inside a push: nothing is read, and only the complete write appends. -/
theorem push_frame {q q' : Queue.State (A ⊕ Fin n) (Job A T)} {a : A} {e : Ev}
    (h : Queue.Step q (.inl a) e.act q') (hp : inPop (q.pc (.inl a)) = false)
    (hT : Queue.Tokens q) : q'.returned = q.returned ∧ (q'.accepted = q.accepted ∨
      ∃ j, q.pc (.inl a) = .pushWrite j ∧ q'.accepted = q.accepted ++ [j]) := by
  generalize hx : (e.act : Queue.Act (Job A T)) = x at h
  cases h with
  | endWrite j hp => exact ⟨rfl, Or.inr ⟨j, hp, rfl⟩⟩
  | postWork hp => rw [Queue.postWork_eq hT.workSem_lt]; exact ⟨rfl, Or.inl rfl⟩
  | endRead hp => simp_all [inPop]
  | postFree x hp => simp_all [inPop]
  | _ => exact ⟨rfl, Or.inl rfl⟩

theorem pop_frame {q q' : Queue.State (A ⊕ Fin n) (Job A T)} {w : Fin n} {e : Ev}
    (h : Queue.Step q (.inr w) e.act q') (hp : inPop (q.pc (.inr w)) = true)
    (hT : Queue.Tokens q) : q'.accepted = q.accepted := by
  generalize hx : (e.act : Queue.Act (Job A T)) = x at h
  cases h with
  | endWrite j hp => simp_all [inPop]
  | postWork hp => simp_all [inPop]
  | postFree x hp => rw [Queue.postFree_eq hT.freeSem_lt]; rfl
  | _ => rfl

theorem AdderOk.frame {s s' : State A n T} {a : A} (h : AdderOk s a)
    (hpc : s'.queue.pc (.inl a) = s.queue.pc (.inl a)) (hj : s'.job a = s.job a)
    (hc : s'.calls a = s.calls a) (ha : s.queue.accepted <+: s'.queue.accepted)
    (hs : Queue.settled s.queue ≤ Queue.settled s'.queue)
    (hn : ∀ i ∈ s'.queue.accepted, i.adder = a → i ∈ s.queue.accepted) : AdderOk s' a := by
  unfold AdderOk at h ⊢
  rw [hpc, hj, hc]
  have hnew : ∀ j : Job A T, (∀ i ∈ s.queue.accepted, i.adder = a → i.number < j.number) →
      ∀ i ∈ s'.queue.accepted, i.adder = a → i.number < j.number := fun j h i hi he =>
    h i (hn i hi he) he
  split at h
  case h_1 => trivial
  case h_2 => exact ⟨h.1, h.2.1, h.2.2.1, hnew _ h.2.2.2⟩
  case h_3 => exact ⟨h.1, h.2.1, h.2.2.1, hnew _ h.2.2.2⟩
  case h_4 => exact ⟨h.1, h.2.1, h.2.2.1, hnew _ h.2.2.2⟩
  case h_5 => exact ⟨h.1, h.2.1, h.2.2.1, hnew _ h.2.2.2⟩
  case h_6 => exact ha.subset h
  case h_7 => exact mem_settled ha hs h
  case h_8 => exact h.elim

theorem settled_postWork {q : Queue.State (A ⊕ Fin n) (Job A T)} {t : A ⊕ Fin n}
    (hT : Queue.Tokens q) (hp : q.pc t = .pushPost) :
    Queue.settled (q.postWork t) = q.accepted.length := by
  have h1 := (hT.step (.postWork hp)).settled_add
  have h2 := hT.tally_inW_le
  have h3 := tally_mono (v := Queue.owesWork (T := Job A T)) (w := Queue.inW) (fun c => by
    cases c <;> simp [Queue.owesWork, Queue.inW]) q.pc
  rw [Queue.postWork_eq hT.workSem_lt] at h1 ⊢
  have h4 := tally_update Queue.owesWork q.pc t (.pushUnlock true)
  rw [Queue.goto_pc] at h1
  simp only [hp, Queue.owesWork] at h4
  have h5 : tally Queue.owesWork (update q.pc t (.pushUnlock true)) = 0 := by omega
  simp only at h1
  rw [h5] at h1
  exact h1

theorem AdderOk.own {s : State A n T} {a : A} {e : Ev} {q : Queue.State (A ⊕ Fin n) (Job A T)}
    {l : List (Job A T)} (h : AdderOk s a) (hT : Queue.Tokens s.queue)
    (hs : Queue.Step s.queue (.inl a) e.act q) : AdderOk { s with queue := q, added := l } a := by
  unfold AdderOk at h
  generalize hx : (e.act : Queue.Act (Job A T)) = x at hs
  cases hs with
  | call op hp => cases e <;> cases hx
  | eintrPush w j hp => exact h
  | eintrPop w hp => exact h
  | timeoutPush j hp => simp [AdderOk, Queue.goto_pc]
  | timeoutPop hp => simp [AdderOk, Queue.goto_pc]
  | takeFree w j hp _ =>
    rw [hp] at h
    simpa [AdderOk, Queue.State.takeFree, Queue.State.goto] using h
  | lockW j hp _ => rw [hp] at h; simpa [AdderOk, Queue.State.goto] using h
  | startWrite j hp =>
    rw [hp] at h
    simpa [AdderOk, Queue.State.startWrite, Queue.State.goto] using h
  | endWrite j hp =>
    rw [hp] at h
    simp [AdderOk, Queue.State.endWrite, Queue.State.goto, h.1]
  | postWork hp =>
    rw [hp] at h
    have h1 := settled_postWork hT hp
    rw [Queue.postWork_eq hT.workSem_lt] at h1 ⊢
    simp only [AdderOk, Queue.goto_pc, update_self, State.settled, h1]
    exact (List.take_length (l := s.queue.accepted)).symm ▸ h
  | unlockW r hp => simp [AdderOk, Queue.goto_pc]
  | takeWork w hp _ => rw [hp] at h; exact h.elim
  | lockR hp _ => rw [hp] at h; exact h.elim
  | startRead hp => rw [hp] at h; exact h.elim
  | endRead hp => rw [hp] at h; exact h.elim
  | postFree j hp => rw [hp] at h; exact h.elim
  | unlockR j r hp => rw [hp] at h; exact h.elim

theorem AdderOk.not_inPop {s : State A n T} {a : A} (h : AdderOk s a) :
    inPop (s.queue.pc (.inl a)) = false := by
  unfold AdderOk at h
  cases hp : s.queue.pc (.inl a) <;> simp_all [inPop]

theorem AdderOk.fresh {s : State A n T} {a : A} {j : Job A T} (h : AdderOk s a)
    (hp : s.queue.pc (.inl a) = .pushWrite j) :
    j.adder = a ∧ j.number < s.calls a ∧ j.id ∉ s.queue.accepted.map Job.id := by
  unfold AdderOk at h
  rw [hp] at h
  refine ⟨h.2.1, h.2.2.1, fun hid => ?_⟩
  obtain ⟨k, hk, hke⟩ := List.mem_map.mp hid
  obtain ⟨h1, h2⟩ := Prod.mk.inj hke
  have := h.2.2.2 k hk (h1.trans h.2.1)
  omega

theorem afterAdder_eq (s : State A n T) (a : A) (q : Queue.State (A ⊕ Fin n) (Job A T)) :
    ∃ l, s.afterAdder a q = { s with queue := q, added := l } ∧ (∀ j ∈ s.added, j ∈ l) ∧
      ∀ j ∈ l, j ∈ s.added ∨ (∃ r, s.queue.pc (.inl a) = .pushUnlock r) ∧ j = s.job a := by
  unfold State.afterAdder
  split
  case h_1 r hp =>
    refine ⟨_, rfl, fun j hj => List.mem_append_left _ hj, fun j hj => ?_⟩
    rcases List.mem_append.mp hj with hj | hj
    · exact Or.inl hj
    · exact Or.inr ⟨⟨r, hp⟩, List.mem_singleton.mp hj⟩
  case h_2 => exact ⟨_, rfl, fun j hj => hj, fun j hj => Or.inl hj⟩

/-- **A step inside `AddTask`.** -/
theorem Inv.adder_step {s : State A n T} {a : A} {e : Ev}
    {q : Queue.State (A ⊕ Fin n) (Job A T)} (hi : Inv s)
    (h : Queue.Step s.queue (.inl a) e.act q) : Inv (s.afterAdder a q) := by
  have hT := hi.queue.tokens
  have hown := hi.adder a
  obtain ⟨hret, hacc⟩ := push_frame h hown.not_inPop hT
  obtain ⟨hpre, hcl, hse⟩ := h.progress hT
  obtain ⟨l, hl, hsub, hmem⟩ := afterAdder_eq s a q
  have hpcw : ∀ w, q.pc (.inr w) = s.queue.pc (.inr w) := fun w => h.pc_of_ne (by simp)
  -- the only job that can be new is the one of `a`
  have hnew : ∀ i ∈ q.accepted, i ∈ s.queue.accepted ∨ i.adder = a ∧ i.number < s.calls a := by
    rcases hacc with hacc | ⟨j, hp, hacc⟩
    · exact fun i hi' => Or.inl (hacc ▸ hi')
    · intro i hi'
      rw [hacc] at hi'
      rcases List.mem_append.mp hi' with hi' | hi'
      · exact Or.inl hi'
      · obtain rfl := List.mem_singleton.mp hi'
        exact Or.inr ⟨(hown.fresh hp).1, (hown.fresh hp).2.1⟩
  rw [hl]
  refine ⟨hi.queue.step h, fun b => ?_, fun w => ?_, hi.stop, fun j hj => ?_, ?_, fun hn => ?_,
    fun w j hj => ?_, fun j hj => ?_, fun j hj => hsub j (hi.early j hj), hi.runs, hi.leaving,
    fun w hw j hj => mem_claimed hpre hcl (hi.exits w hw j hj)⟩
  · by_cases hb : b = a
    · subst hb; exact hown.own hT h
    · refine (hi.adder b).frame (h.pc_of_ne (by simpa using hb)) rfl rfl hpre hse fun i hi' he => ?_
      rcases hnew i hi' with h1 | h1
      · exact h1
      · exact absurd (he.symm.trans h1.1) hb
  · have := hi.worker w
    unfold WorkerOk at this ⊢
    rw [hpcw w]
    exact this
  · rcases hnew j hj with h1 | h1
    · exact hi.number j h1
    · rw [h1.1]; exact h1.2
  · rcases hacc with hacc | ⟨j, hp, hacc⟩
    · exact hacc ▸ hi.nodup
    · rw [hacc, List.map_append, List.map_singleton, ← List.concat_eq_append]
      exact List.Nodup.concat (hown.fresh hp).2.2 hi.nodup
  · rw [hret]
    exact hi.returned fun w => hpcw w ▸ hn w
  · rw [hret]
    exact hi.returnedOne w j (hpcw w ▸ hj)
  · rcases hmem j hj with h1 | ⟨⟨r, hr⟩, rfl⟩
    · exact mem_settled hpre hse (hi.added j h1)
    · unfold AdderOk at hown
      rw [hr] at hown
      exact mem_settled hpre hse hown

theorem popped_eq_none {q : Queue.State (A ⊕ Fin n) (Job A T)} (hT : Queue.Tokens q) {w u : Fin n}
    (hw : 1 ≤ Queue.inR (q.pc (.inr w))) (hu : u ≠ w) : popped (q.pc (.inr u)) = none := by
  have h := weight_eq_zero_of_ne hT.tally_inR_le hw (u := .inr u) (by simpa using hu)
  cases hp : q.pc (.inr u) <;> simp_all [popped, Queue.inR]

/-- What a step inside `WaitTimePop` does. -/
inductive PopStep (s : State A n T) (w : Fin n) (q : Queue.State (A ⊕ Fin n) (Job A T)) :
    State A n T → Prop
  /-- `WaitTimePop` returns `false` -/
  | timeout : q.pc (.inr w) = .idle → q.returned = s.queue.returned →
      popped (s.queue.pc (.inr w)) = none →
      PopStep s w q { s with queue := q, worker := update s.worker w .test }
  /-- `WaitTimePop` returns `true` and the task is called -/
  | start (j : Job A T) : q.pc (.inr w) = .idle → q.returned = s.queue.returned →
      popped (s.queue.pc (.inr w)) = some j → 1 ≤ Queue.inR (s.queue.pc (.inr w)) →
      PopStep s w q
        { s with queue := q, worker := update s.worker w (.run j), started := s.started ++ [j] }
  /-- the oldest job is read -/
  | read (j : Job A T) : q.pc (.inr w) = .popPost j → q.returned = s.queue.returned ++ [j] →
      s.queue.pc (.inr w) = .popRead → PopStep s w q { s with queue := q }
  /-- a step before or after the read -/
  | inside : inPop (q.pc (.inr w)) = true → q.returned = s.queue.returned →
      popped (q.pc (.inr w)) = popped (s.queue.pc (.inr w)) → PopStep s w q { s with queue := q }

theorem popStep_of_step {s : State A n T} {w : Fin n} {e : Ev}
    {q : Queue.State (A ⊕ Fin n) (Job A T)} (hT : Queue.Tokens s.queue)
    (hp : inPop (s.queue.pc (.inr w)) = true) (h : Queue.Step s.queue (.inr w) e.act q) :
    PopStep s w q (s.afterPop w e q) := by
  have hok : Queue.failed (s.queue.pc (.inr w)) = 0 :=
    Nat.le_zero.mp ((le_tally _ _ _).trans hT.ok.le)
  cases e with
  | timeout =>
    cases h with
    | timeoutPush j hq => rw [hq] at hp; cases hp
    | timeoutPop hq =>
      simp only [State.afterPop]
      exact .timeout (update_self _ _ _) rfl (by rw [hq]; rfl)
  | eintr =>
    cases h with
    | eintrPush u j hq => rw [hq] at hp; cases hp
    | eintrPop u hq =>
      simp only [State.afterPop, hq]
      exact .inside hp rfl rfl
  | go =>
    cases h with
    | takeFree u j hq _ => rw [hq] at hp; cases hp
    | lockW j hq _ => rw [hq] at hp; cases hp
    | startWrite j hq => rw [hq] at hp; cases hp
    | endWrite j hq => rw [hq] at hp; cases hp
    | postWork hq => rw [hq] at hp; cases hp
    | unlockW r hq => rw [hq] at hp; cases hp
    | takeWork u hq _ =>
      simp only [State.afterPop, hq]
      refine .inside ?_ rfl ?_ <;> simp [Queue.State.takeWork, Queue.goto_pc, inPop, popped, hq]
    | lockR hq _ =>
      simp only [State.afterPop, hq]
      refine .inside ?_ rfl ?_ <;> simp [Queue.goto_pc, inPop, popped, hq]
    | startRead hq =>
      simp only [State.afterPop, hq]
      refine .inside ?_ rfl ?_ <;> simp [Queue.State.startRead, Queue.goto_pc, inPop, popped, hq]
    | endRead hq =>
      simp only [State.afterPop, hq]
      exact .read _ (by simp [Queue.State.endRead, Queue.goto_pc]) rfl hq
    | postFree j hq =>
      rw [Queue.postFree_eq hT.freeSem_lt]
      simp only [State.afterPop, hq]
      refine .inside ?_ rfl ?_ <;> simp [Queue.goto_pc, inPop, popped, hq]
    | unlockR j r hq =>
      cases r with
      | false => rw [hq] at hok; cases hok
      | true =>
        simp only [State.afterPop, hq]
        exact .start j (update_self _ _ _) rfl (by rw [hq]; rfl) (by rw [hq]; exact le_rfl)

/-! ## The workers -/

theorem StopOk.frame {s s' : State A n T} (h : StopOk s) (hs : s'.stopper = s.stopper)
    (hc : s'.cont = s.cont) (hw : ∀ w, s.worker w = .exited → s'.worker w = .exited) :
    StopOk s' := by
  unfold StopOk at h ⊢
  rw [hs, hc]
  split at h
  case h_1 => exact h
  case h_2 => exact h
  case h_3 => exact fun w hi => hw w (h w hi)
  case h_4 => exact fun w => hw w (h w)

theorem worker_update {s : State A n T} {w : Fin n} {c d : Worker A T} (hd : s.worker w ≠ d) {u : Fin n}
    (h : s.worker u = d) : update s.worker w c u = d := by
  have hu : u ≠ w := fun he => hd (he ▸ h)
  rw [update_of_ne hu, h]

theorem Inv.worker_step {s : State A n T} (hi : Inv s) {w : Fin n} {c : Worker A T}
    {q : Queue.State (A ⊕ Fin n) (Job A T)} {l f : List (Job A T)} (hq : Queue.Inv q)
    (hpc : ∀ u, u ≠ .inr w → q.pc u = s.queue.pc u) (hacc : q.accepted = s.queue.accepted)
    (hcl : Queue.claimed s.queue ≤ Queue.claimed q) (hse : Queue.settled s.queue ≤ Queue.settled q)
    (hw : s.worker w ≠ .exited)
    (hok : WorkerOk { s with queue := q, worker := update s.worker w c, started := l,
                             finished := f } w)
    (hret : (∀ u, popped (q.pc (.inr u)) = none) → q.returned = l)
    (hone : ∀ u j, popped (q.pc (.inr u)) = some j → q.returned = l ++ [j])
    (hruns : ∀ j ∈ l, j ∈ f ∨ ∃ u, update s.worker w c u = .run j)
    (hleave : c = .count ∨ c = .exited → s.cont = false)
    (hexit : c = .exited → ∀ j ∈ s.early, j ∈ s.claimed) :
    Inv { s with queue := q, worker := update s.worker w c, started := l, finished := f } := by
  have hpre : s.queue.accepted <+: q.accepted := hacc ▸ List.prefix_rfl
  refine ⟨hq, fun a => ?_, fun u => ?_, ?_, ?_, ?_, hret, hone, fun j hj => ?_, hi.early, hruns,
    fun u hu => ?_, fun u hu j hj => mem_claimed hpre hcl ?_⟩
  · exact (hi.adder a).frame (hpc _ (by simp)) rfl rfl hpre hse fun i h _ => hacc ▸ h
  · by_cases hu : u = w
    · rw [hu]; exact hok
    · have := hi.worker u
      unfold WorkerOk at this ⊢
      simp only [update_of_ne hu, hpc (.inr u) (by simpa using hu)]
      exact this
  · exact hi.stop.frame rfl rfl fun u => worker_update hw
  · exact fun j hj => hi.number j (hacc ▸ hj)
  · exact hacc ▸ hi.nodup
  · exact mem_settled hpre hse (hi.added j hj)
  · by_cases he : u = w
    · subst he
      exact hleave (by simpa using hu)
    · exact hi.leaving u (by simpa [he] using hu)
  · by_cases he : u = w
    · subst he
      exact hexit (by simpa using hu) j hj
    · exact hi.exits u (by simpa [he] using hu) j hj

theorem Inv.runs_update {s : State A n T} (hi : Inv s) {w : Fin n} {c : Worker A T}
    (hw : ∀ j, s.worker w ≠ .run j) : ∀ j ∈ s.started, j ∈ s.finished ∨
      ∃ u, update s.worker w c u = .run j := by
  intro j hj
  rcases hi.runs j hj with h | ⟨u, hu⟩
  · exact Or.inl h
  · exact Or.inr ⟨u, worker_update (hw j) hu⟩

/-- **A step inside `WaitTimePop`.** -/
theorem Inv.pop_step {s : State A n T} {w : Fin n} {e : Ev}
    {q : Queue.State (A ⊕ Fin n) (Job A T)} (hi : Inv s) (hw : s.worker w = .pop)
    (h : Queue.Step s.queue (.inr w) e.act q) : Inv (s.afterPop w e q) := by
  have hT := hi.queue.tokens
  have hp : inPop (s.queue.pc (.inr w)) = true := by
    have := hi.worker w
    unfold WorkerOk at this
    rwa [hw] at this
  have hacc := pop_frame h hp hT
  obtain ⟨-, hcl, hse⟩ := h.progress hT
  have hpc : ∀ u, u ≠ .inr w → q.pc u = s.queue.pc u := fun u hu => h.pc_of_ne hu
  have hne : s.worker w ≠ .exited := by rw [hw]; simp
  have hnr : ∀ j, s.worker w ≠ .run j := by rw [hw]; simp
  have hself : update s.worker w .pop = s.worker := by rw [← hw]; exact update_eq_self w s.worker
  have hother : ∀ u, u ≠ w → popped (q.pc (.inr u)) = popped (s.queue.pc (.inr u)) := fun u hu => by
    rw [hpc _ (by simpa using hu)]
  have hall : popped (q.pc (.inr w)) = popped (s.queue.pc (.inr w)) →
      ∀ u, popped (q.pc (.inr u)) = popped (s.queue.pc (.inr u)) := by
    intro hsame u
    by_cases hu : u = w
    · rw [hu, hsame]
    · exact hother u hu
  have hstep := popStep_of_step hT hp h
  generalize s.afterPop w e q = s' at hstep
  cases hstep with
  | timeout hidle hret hnone =>
    have hsame := hall (by rw [hidle, hnone]; rfl)
    refine hi.worker_step (hi.queue.step h) hpc hacc hcl hse hne ?_ ?_ ?_ (hi.runs_update hnr)
      (by simp) nofun
    · simp [WorkerOk, hidle]
    · intro hn; rw [hret]; exact hi.returned fun u => hsame u ▸ hn u
    · intro u j hj; rw [hret]; exact hi.returnedOne u j (hsame u ▸ hj)
  | start j hidle hret hsome hin =>
    have hnone : ∀ u, popped (q.pc (.inr u)) = none := by
      intro u
      by_cases hu : u = w
      · rw [hu, hidle]; rfl
      · rw [hother u hu]; exact popped_eq_none hT hin hu
    refine hi.worker_step (hi.queue.step h) hpc hacc hcl hse hne ?_ ?_ ?_ ?_ (by simp) nofun
    · simp [WorkerOk, hidle]
    · intro _; rw [hret]; exact hi.returnedOne w j hsome
    · intro u i hu; rw [hnone u] at hu; cases hu
    · intro i hj
      rcases List.mem_append.mp hj with hj | hj
      · exact hi.runs_update hnr i hj
      · exact Or.inr ⟨w, by rw [update_self, List.mem_singleton.mp hj]⟩
  | read j hpost hret hread =>
    have hin : 1 ≤ Queue.inR (s.queue.pc (.inr w)) := by rw [hread]; exact le_rfl
    have hnone : ∀ u, popped (s.queue.pc (.inr u)) = none := by
      intro u
      by_cases hu : u = w
      · rw [hu, hread]; rfl
      · exact popped_eq_none hT hin hu
    rw [← hself]
    refine hi.worker_step (hi.queue.step h) hpc hacc hcl hse hne ?_ ?_ ?_ (hi.runs_update hnr)
      (by simp) nofun
    · simp [WorkerOk, hpost, inPop]
    · intro hn
      have := hn w
      rw [hpost] at this
      cases this
    · intro u i hu
      by_cases he : u = w
      · subst he
        rw [hpost] at hu
        cases hu
        rw [hret, hi.returned hnone]
      · rw [hother u he, hnone u] at hu; cases hu
  | inside hpop hret hsame =>
    have hsame := hall hsame
    rw [← hself]
    refine hi.worker_step (hi.queue.step h) hpc hacc hcl hse hne ?_ ?_ ?_ (hi.runs_update hnr)
      (by simp) nofun
    · simp [WorkerOk, hpop]
    · intro hn; rw [hret]; exact hi.returned fun u => hsame u ▸ hn u
    · intro u j hj; rw [hret]; exact hi.returnedOne u j (hsame u ▸ hj)

theorem inr_pc_of_ne_pop {s : State A n T} (hi : Inv s) {w : Fin n} (h : s.worker w ≠ .pop) :
    s.queue.pc (.inr w) = .idle := by
  have := hi.worker w
  unfold WorkerOk at this
  split at this
  · exact absurd ‹_› h
  · exact this

theorem Inv.loop_step {s : State A n T} (hi : Inv s) {w : Fin n} {c : Worker A T}
    {f : List (Job A T)} (hw : s.worker w ≠ .exited) (hp : s.worker w ≠ .pop) (hc : c ≠ .pop)
    (hruns : ∀ j ∈ s.started, j ∈ f ∨ ∃ u, update s.worker w c u = .run j)
    (hleave : c = .count ∨ c = .exited → s.cont = false)
    (hexit : c = .exited → ∀ j ∈ s.early, j ∈ s.claimed) :
    Inv { s with worker := update s.worker w c, finished := f } := by
  refine hi.worker_step hi.queue (fun _ _ => rfl) rfl le_rfl le_rfl hw ?_ hi.returned
    hi.returnedOne hruns hleave hexit
  have hidle := inr_pc_of_ne_pop hi hp
  cases c <;> simp_all [WorkerOk]

theorem Inv.enterPop {s : State A n T} (hi : Inv s) {w : Fin n}
    (hw : s.worker w = .test ∨ s.worker w = .count) : Inv (s.enterPop w) := by
  have hne : s.worker w ≠ .pop ∧ s.worker w ≠ .exited ∧ ∀ j, s.worker w ≠ .run j := by
    rcases hw with hw | hw <;> simp [hw]
  have hidle := inr_pc_of_ne_pop hi hne.1
  have h : Queue.Step s.queue (.inr w) (.call (.pop .time)) (s.enterPop w).queue :=
    .call _ hidle
  obtain ⟨-, hcl, hse⟩ := h.progress hi.queue.tokens
  have hsame : ∀ u : Fin n, popped ((s.enterPop w).queue.pc (.inr u)) =
      popped (s.queue.pc (.inr u)) := by
    intro u
    by_cases hu : u = w
    · rw [hu, hidle]; simp [State.enterPop, Queue.goto_pc, Queue.Op.entry, popped]
    · rw [h.pc_of_ne (by simpa using hu)]
  refine hi.worker_step (hi.queue.step h) (fun u hu => h.pc_of_ne hu) rfl hcl hse hne.2.1 ?_ ?_ ?_
    (hi.runs_update hne.2.2) (by simp) nofun
  · simp [WorkerOk, Queue.goto_pc, Queue.Op.entry, inPop]
  · exact fun hn => hi.returned fun u => hsame u ▸ hn u
  · exact fun u j hj => hi.returnedOne u j (hsame u ▸ hj)

/-! ## The callers -/

theorem Inv.add {s : State A n T} (hi : Inv s) {a : A} (task : T)
    (hp : s.queue.pc (.inl a) = .idle) : Inv (s.add a task) := by
  have h : Queue.Step s.queue (.inl a) _ (s.add a task).queue := .call _ hp
  obtain ⟨hpre, hcl, hse⟩ := h.progress hi.queue.tokens
  have hpcw : ∀ w, (s.add a task).queue.pc (.inr w) = s.queue.pc (.inr w) := fun w =>
    h.pc_of_ne (by simp)
  refine ⟨hi.queue.step h, fun b => ?_, fun w => ?_, hi.stop, fun j hj => ?_, hi.nodup,
    fun hn => hi.returned fun w => hpcw w ▸ hn w, fun w j hj => hi.returnedOne w j (hpcw w ▸ hj),
    fun j hj => mem_settled hpre hse (hi.added j hj), hi.early, hi.runs, hi.leaving,
    fun w hw j hj => mem_claimed hpre hcl (hi.exits w hw j hj)⟩
  · by_cases hb : b = a
    · subst hb
      simp only [AdderOk, State.add, Queue.goto_pc, update_self, Queue.Op.entry]
      exact ⟨trivial, trivial, Nat.lt_succ_self _, fun i hi' he => he ▸ hi.number i hi'⟩
    · refine (hi.adder b).frame (h.pc_of_ne (by simpa using hb)) ?_ ?_ hpre hse fun i hi' _ => hi'
      · exact update_of_ne hb _ _
      · exact update_of_ne hb _ _
  · have := hi.worker w
    unfold WorkerOk at this ⊢
    rw [hpcw w]
    exact this
  · have hlt := hi.number j hj
    by_cases hb : j.adder = a
    · simp only [State.add, hb, update_self]
      rw [hb] at hlt
      omega
    · simp only [State.add, update_of_ne hb]
      exact hlt

theorem Inv.stop_step {s s' : State A n T} (hi : Inv s) (hq : s'.queue = s.queue)
    (hw : s'.worker = s.worker) (hj : s'.job = s.job) (hc : s'.calls = s.calls)
    (ha : s'.added = s.added) (hs : s'.started = s.started) (hf : s'.finished = s.finished)
    (hstop : StopOk s') (he : ∀ j ∈ s'.early, j ∈ s.added)
    (hcont : s.cont = false → s'.cont = false)
    (hex : ∀ w, s.worker w = .exited → ∀ j ∈ s'.early, j ∈ s.claimed) : Inv s' := by
  obtain ⟨q, c, w, st, ca, jo, ad, ea, sd, fd⟩ := s'
  simp only at hq hw hj hc ha hs hf he hcont hex
  subst hq hw hj hc ha hs hf
  exact ⟨hi.queue, hi.adder, hi.worker, hstop, hi.number, hi.nodup, hi.returned, hi.returnedOne,
    hi.added, he, hi.runs, fun w h => hcont (hi.leaving w h), hex⟩

/-- **Every step keeps the invariant.** -/
theorem Inv.step {s s' : State A n T} (hi : Inv s) (h : Step s s') : Inv s' := by
  cases h with
  | add a task hp => exact hi.add task hp
  | adder a e q hq => exact hi.adder_step hq
  | loop w hw => exact hi.enterPop hw
  | count w hw hc =>
    have hnr : ∀ j, s.worker w ≠ .run j := by rw [hw]; simp
    exact hi.loop_step (by rw [hw]; simp) (by rw [hw]; simp) (by simp) (hi.runs_update hnr)
      (fun _ => hc) (by simp)
  | exit w hw hs =>
    have hnr : ∀ j, s.worker w ≠ .run j := by rw [hw]; simp
    have hcl : s.settled = s.claimed := by
      rw [State.settled, State.claimed, Queue.settled, hs, Nat.add_zero]
    refine hi.loop_step (by rw [hw]; simp) (by rw [hw]; simp) (by simp) (hi.runs_update hnr)
      (fun _ => hi.leaving w (Or.inl hw)) fun _ j hj => ?_
    rw [← hcl]
    exact hi.added j (hi.early j hj)
  | finish w j hw =>
    refine hi.loop_step (by rw [hw]; simp) (by rw [hw]; simp) (by simp) (fun i hj => ?_) (by simp) (by simp)
    rcases hi.runs i hj with h | ⟨u, hu⟩
    · exact Or.inl (List.mem_append_left _ h)
    · by_cases he : u = w
      · rw [he, hw] at hu
        cases hu
        exact Or.inl (by simp)
      · exact Or.inr ⟨u, by rw [update_of_ne he, hu]⟩
  | pop w e q hw hq => exact hi.pop_step hw hq
  | stop hp =>
    have hst := hi.stop
    simp only [StopOk, hp] at hst
    refine hi.stop_step rfl rfl rfl rfl rfl rfl rfl hst (fun _ h => h) id fun w hw => ?_
    have := hi.leaving w (Or.inr hw)
    rw [hst] at this
    cases this
  | flag hp =>
    exact hi.stop_step rfl rfl rfl rfl rfl rfl rfl (fun w hw => absurd hw (Nat.not_lt_zero _))
      hi.early (fun _ => rfl) hi.exits
  | join i hp hw =>
    have hst := hi.stop
    simp only [StopOk, hp] at hst
    refine hi.stop_step rfl rfl rfl rfl rfl rfl rfl (fun w hlt => ?_) hi.early id hi.exits
    rcases Nat.lt_succ_iff_lt_or_eq.mp hlt with hlt | he
    · exact hst w hlt
    · rw [Fin.ext he]; exact hw
  | joined i hp hle =>
    have hst := hi.stop
    simp only [StopOk, hp] at hst
    exact hi.stop_step rfl rfl rfl rfl rfl rfl rfl (fun w => hst w (w.isLt.trans_le hle)) hi.early id
      hi.exits

/-! ## The main result -/

/-- What holds of the pool in every reachable state: only added jobs are executed, each at most
once, and when `Stop` has returned, the jobs added before it was called have been executed. -/
structure Drained (s : State A n T) : Prop where
  accepted : ∀ j ∈ s.started, j ∈ s.queue.accepted
  once : (s.started.map Job.id).Nodup
  drained : s.stopper = .done → ∀ j ∈ s.early, j ∈ s.finished

theorem Inv.started_prefix {s : State A n T} (hi : Inv s) : s.started <+: s.queue.accepted := by
  obtain ⟨l, hl, -⟩ := hi.queue.ring.data
  have hret : s.started <+: s.queue.returned := by
    by_cases h : ∀ w, popped (s.queue.pc (.inr w)) = none
    · rw [hi.returned h]
    · push Not at h
      obtain ⟨w, hw⟩ := h
      obtain ⟨j, hj⟩ := Option.ne_none_iff_exists'.mp hw
      exact ⟨[j], (hi.returnedOne w j hj).symm⟩
  exact hret.trans ⟨l, hl.symm⟩

theorem Inv.drained {s : State A n T} (hi : Inv s) (hn : 1 ≤ n) : Drained s where
  accepted := fun j hj => hi.started_prefix.subset hj
  once := (hi.started_prefix.sublist.map Job.id).nodup hi.nodup
  drained := by
    intro hp j hj
    have hex := hi.stop
    simp only [StopOk, hp] at hex
    have hidle : ∀ w, s.queue.pc (.inr w) = .idle := fun w =>
      inr_pc_of_ne_pop hi (by rw [hex w]; simp)
    have hret := hi.returned fun w => by rw [hidle w]; rfl
    have hz : tally Queue.holdWork s.queue.pc = 0 := tally_eq_zero fun t => by
      cases t with
      | inl a =>
        have := (hi.adder a).not_inPop
        cases hpc : s.queue.pc (.inl a) <;> simp_all [inPop, Queue.holdWork]
      | inr w => rw [hidle w]; rfl
    have hcl := hi.exits ⟨0, hn⟩ (hex _) j hj
    obtain ⟨l, hl, -⟩ := hi.queue.ring.data
    rw [State.claimed, Queue.claimed, hz, Nat.add_zero, hl, List.take_left', hret] at hcl
    · rcases hi.runs j hcl with h | ⟨w, hw⟩
      · exact h
      · rw [hex w] at hw; cases hw
    · rfl

theorem inv_init {zero : Job A T} {data : ℕ → Job A T} {job : A → Job A T} {s : State A n T}
    (h : State.init n zero data job = some s) : 1 ≤ n ∧ Inv s := by
  obtain ⟨k, hk, -, -, hq⟩ := Queue.init_spec zero data (show 512 ≤ 2 ^ 30 by norm_num)
  unfold State.init at h
  split at h
  · cases h
  · rw [kMaxThreadPoolTaskQueueSize, hq] at h
    cases h
    refine ⟨by omega, Queue.inv_init hk, fun _ => trivial, fun _ => rfl, rfl, nofun, List.nodup_nil,
      fun _ => rfl, nofun, nofun, nofun, nofun, ?_, nofun⟩
    rintro w (h | h) <;> cases h

/-- **`ThreadPool` runs every accepted task at most once and drains before `Stop` returns.** -/
theorem drained_of_reach (zero : Job A T) (data : ℕ → Job A T) (job : A → Job A T)
    {s₀ s : State A n T} (h₀ : State.init n zero data job = some s₀) (h : Reach next s₀ s) :
    Drained s := by
  obtain ⟨hn, hi⟩ := inv_init h₀
  exact (Reach.inv h hi fun _ _ _ hi hn => hi.step (step_of_next hn)).drained hn

/-- A task is added, `Stop` is called, the worker's wait times out; it then takes the task, runs it
and leaves. -/
def addThenStop : List (Act (Fin 1) 1 ℕ) :=
  List.flatten [[.add 0 7], List.replicate 6 (.adder 0 .go),
    [.stop, .worker 0, .pop 0 .timeout, .stop, .worker 0, .worker 0],
    List.replicate 6 (.pop 0 .go), [.worker 0, .worker 0, .worker 0, .stop, .stop]]

theorem drained_of_reach_one :
    ∃ s₀, State.init 1 ⟨0, 0, 0⟩ (fun _ => ⟨0, 0, 0⟩) (fun _ => ⟨0, 0, 0⟩) = some s₀ ∧
    ∃ s : State (Fin 1) 1 ℕ, Reach next s₀ s ∧ s.stopper = .done ∧ s.early = [⟨0, 0, 7⟩] ∧
      s.finished = [⟨0, 0, 7⟩] ∧ Drained s := by
  have hr : ((State.init 1 ⟨0, 0, 0⟩ (fun _ => ⟨0, 0, 0⟩) fun _ => ⟨0, 0, 0⟩).bind fun s₀ =>
      (run next s₀ addThenStop).map fun s => (s.stopper, s.early, s.finished)) =
      some (.done, [⟨0, 0, 7⟩], [⟨0, 0, 7⟩]) := by decide +kernel
  obtain ⟨s₀, h₀, h⟩ := Option.bind_eq_some_iff.mp hr
  obtain ⟨s, hs, hv⟩ := Reach.of_run_map h
  simp only [Prod.mk.injEq] at hv
  obtain ⟨hstop, hearly, hfinished⟩ := hv
  exact ⟨s₀, h₀, s, hs, hstop, hearly, hfinished, drained_of_reach _ _ _ h₀ hs⟩

end Backend.ThreadPool
