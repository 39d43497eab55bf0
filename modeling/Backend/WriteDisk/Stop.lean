import Backend.WriteDisk.Order

/-!
# `WriteDisk` across `Flush` and `Stop`

`Flush` and the end of `Run` write the work buffer directly, whether or not an earlier, swapped buffer
is still waiting for the writer: `Flush` then writes out of order, and the end of `Run` leaves the
swapped buffer unwritten.

* `Calls`: the calls of the producer; `InTurn`: the condition on a step;
* `State.aside`: the state with the producer outside the object, to which the invariant of the running
  machine applies;
* `Phase`, **`Phase.step`**: what holds before, during and after `Flush` and `Stop`;
* **`stream_of_stopped`**: runs whose steps all meet the condition;
* **`not_stream_of_stopped`**: a `Stop` and a `Flush` that overtake a swapped buffer.
-/

set_option autoImplicit false

namespace Backend.WriteDisk

/-- `WriteToBuf` is called with a length between `0` and `m_max_size`. -/
def Calls (s : State) : Act → Prop
  | .call (.write d) => 0 < d.length ∧ d.length < s.maxSize
  | _ => True

/-- No swapped buffer is waiting to be written. -/
def State.Written (s : State) : Prop := s.workSem = 0 ∧ s.wri.unwritten = false

/-- In the `fwrite` of `Flush`. -/
def Prod.flushing : Prod → Bool
  | .flushWrite _ _ => true
  | _ => false

/-- Before `while (m_continue)`. -/
def Wri.testing : Wri → Bool
  | .test => true
  | _ => false

/-- `m_work_buf_size + len` fits in an `int32_t` when `WriteToBuf` is called; no swapped buffer is
waiting when `Flush` writes and when the writer finds `m_continue` to be `false`. -/
def InTurn (s : State) : Act → Prop
  | .call (.write d) => s.workSize + d.length < 2 ^ 31
  | .prod => s.prod.flushing = true → s.Written
  | .wri => s.wri.testing = true ∧ s.cont = false → s.Written
  | _ => True

instance (s : State) : ∀ a, Decidable (Calls s a)
  | .call (.write _) => inferInstanceAs (Decidable (_ ∧ _))
  | .call .flush | .call .stop | .prod | .wri | .timeout => isTrue trivial

instance (s : State) : Decidable s.Written := inferInstanceAs (Decidable (_ ∧ _))

instance (s : State) : ∀ a, Decidable (InTurn s a)
  | .call (.write _) => inferInstanceAs (Decidable (_ < _))
  | .call .flush | .call .stop | .timeout => isTrue trivial
  | .prod => inferInstanceAs (Decidable (s.prod.flushing = true → s.Written))
  | .wri => inferInstanceAs (Decidable (s.wri.testing = true ∧ s.cont = false → s.Written))

/-! ## The producer aside -/

/-- The state with the producer outside the object and `m_work_buf_size = k`. -/
def State.aside (s : State) (k : ℤ) : State := { s with prod := .idle, cont := true, workSize := k }

theorem Step.aside {s s' : State} (h : Step s .wri s') (hl : s.wri.inLoop = true)
    (hc : s.wri = .test → s.cont = true) (k : ℤ) :
    Step (s.aside k) .wri (s'.aside k) ∧ s'.prod = s.prod ∧ s'.cont = s.cont ∧
      s'.workBuf = s.workBuf ∧ s'.workSize = s.workSize := by
  cases h with
  | loop hw _ => exact ⟨.loop hw rfl, rfl, rfl, rfl, rfl⟩
  | leave hw hf => rw [hc hw] at hf; cases hf
  | wait hw hs => exact ⟨.wait hw hs, rfl, rfl, rfl, rfl⟩
  | load hw => exact ⟨.load hw, rfl, rfl, rfl, rfl⟩
  | write b n hw hn => exact ⟨.write b n hw hn, rfl, rfl, rfl, rfl⟩
  | writeFail b n hw hn => exact ⟨.writeFail b n hw hn, rfl, rfl, rfl, rfl⟩
  | clear hw => exact ⟨.clear hw, rfl, rfl, rfl, rfl⟩
  | release hw => exact ⟨.release hw, rfl, rfl, rfl, rfl⟩
  | sleep hw => exact ⟨.sleep hw, rfl, rfl, rfl, rfl⟩
  | finalSome hw => rw [hw] at hl; cases hl
  | finalNone hw => rw [hw] at hl; cases hl
  | finalWrite b n hw => rw [hw] at hl; cases hl
  | finalFail b n hw => rw [hw] at hl; cases hl
  | finalClear hw => rw [hw] at hl; cases hl

theorem Inv.flow_written {s : State} {k : ℤ} (h : Inv (s.aside k)) (hw : s.Written) :
    s.stream ++ bytes (s.mem s.workBuf) k = s.written := by
  have hflow := h.flow
  have hnil : (s.aside k).inFree = [] := inFree_of_token rfl hw.1 hw.2
  rw [hnil, List.append_nil] at hflow
  exact hflow

theorem Inv.flushed {s : State} (h : Inv (s.aside s.workSize)) (hw : s.Written) :
    Inv ({ s with stream := s.stream ++ bytes (s.mem s.workBuf) s.workSize }.aside 0) where
  token := h.token
  ne := h.ne
  cont := rfl
  inWrite := rfl
  inLoop := h.inLoop
  args := h.args
  pos := h.pos
  zero := h.zero
  size := ⟨le_rfl, Or.inl rfl⟩
  sizes := trivial
  flow := by
    have hnil : ({ s with stream := s.stream ++ bytes (s.mem s.workBuf) s.workSize }.aside 0).inFree =
        [] := inFree_of_token rfl hw.1 hw.2
    rw [hnil, List.append_nil]
    exact (List.append_nil _).trans (h.flow_written hw)

/-! ## The phases of a run -/

/-- In `Flush` before it has written, or in `Stop`. -/
def State.Outside (s : State) : Prop :=
  match s.prod with
  | .flushTest | .unRun => s.cont = true
  | .flushWrite b n => s.cont = true ∧ b = s.workBuf ∧ n = s.workSize
  | .join => s.cont = false
  | _ => False

/-- Where a run is: the producer writes; it is in `Flush` or `Stop`; `Flush` has written; the writer has
left its loop, has written the work buffer, has returned. -/
inductive Phase (s : State) : Prop
  | running : Inv s → Phase s
  | outside : s.Outside → Inv (s.aside s.workSize) → Phase s
  | flushed : s.prod = .flushClear → s.cont = true → Inv (s.aside 0) → Phase s
  | final : s.prod = .join →
      s.wri = .finalTest ∨ s.wri = .finalWrite s.workBuf s.workSize ∧ 0 < s.workSize →
      0 ≤ s.workSize → s.stream ++ bytes (s.mem s.workBuf) s.workSize = s.written → Phase s
  | cleared : s.prod = .join → s.wri = .finalClear → s.stream = s.written → Phase s
  | done : s.prod = .join ∨ s.prod = .stopped → s.wri = .done → s.stream = s.written → Phase s

theorem aside_of_idle {s : State} (hp : s.prod = .idle) (hc : s.cont = true) {k : ℤ}
    (hk : s.workSize = k) : s.aside k = s := by
  cases s
  cases hp
  cases hc
  cases hk
  rfl

theorem Inv.phase_step {s s' : State} {a : Act} (h : Inv s) (hc : Calls s a) (ha : InTurn s a)
    (hs : next s a = some s') : Phase s' := by
  have hst := step_of_next hs
  cases a with
  | call op =>
    cases hst with
    | call _ hp =>
      have haside := aside_of_idle hp h.cont rfl
      cases op with
      | write d => exact .running (h.step (a := .call (.write d)) hc ha hs)
      | flush => exact .outside h.cont (by rw [← haside] at h; exact h)
      | stop => exact .outside h.cont (by rw [← haside] at h; exact h)
  | prod => exact .running (h.stepProd hst)
  | wri => exact .running (h.stepWri hst)
  | timeout => exact .running (h.step (a := .timeout) trivial trivial hs)

theorem Inv.aside_step {s s' : State} {k : ℤ} (h : Inv (s.aside k)) (hs : Step s .wri s')
    (hc : s.wri = .test → s.cont = true) : Inv (s'.aside k) :=
  h.stepWri (hs.aside h.inLoop hc k).1

theorem Phase.outside_step {s s' : State} {a : Act} (ho : s.Outside) (h : Inv (s.aside s.workSize))
    (ha : InTurn s a) (hs : Step s a s') : Phase s' := by
  cases a with
  | call op =>
    cases hs with
    | call _ hp => simp [State.Outside, hp] at ho
  | prod =>
    cases hs with
    | flushSome hp hn =>
      simp only [State.Outside, hp] at ho
      exact .outside ⟨ho, rfl, rfl⟩ h
    | flushNone hp hn =>
      simp only [State.Outside, hp] at ho
      refine .running ?_
      rw [← aside_of_idle (s := { s with prod := .idle }) rfl ho rfl]
      exact h
    | flushWrite b n hp hn =>
      simp only [State.Outside, hp] at ho
      obtain ⟨hc, rfl, rfl⟩ := ho
      exact .flushed rfl hc (h.flushed (ha (by rw [hp]; rfl)))
    | unRun hp => exact .outside rfl h
    | join hp hd =>
      have := h.inLoop
      rw [State.aside, hd] at this
      cases this
    | full d hp | room d hp | waitFree d hp | swapBuf d hp | swapSize d hp | post d hp | copy d hp
    | grow d hp | flushClear hp => simp [State.Outside, hp] at ho
  | wri =>
    by_cases hl : s.wri = .test ∧ s.cont = false
    · -- the writer leaves its loop
      have hw : s.Written := ha ⟨by rw [hl.1]; rfl, hl.2⟩
      have hjoin : s.prod = .join := by
        unfold State.Outside at ho
        split at ho <;> simp_all
      cases hs with
      | leave _ _ => exact .final hjoin (Or.inl rfl) h.size.1 (h.flow_written hw)
      | loop _ hc => rw [hl.2] at hc; cases hc
      | wait hp | load hp | write b n hp | writeFail b n hp | clear hp | release hp | sleep hp
      | finalSome hp | finalNone hp | finalWrite b n hp | finalFail b n hp | finalClear hp =>
        rw [hl.1] at hp; cases hp
    · have hc : s.wri = .test → s.cont = true := by
        intro ht
        rw [← Bool.not_eq_false]
        exact fun hf => hl ⟨ht, hf⟩
      obtain ⟨-, hp, hcont, hb, hn⟩ := hs.aside h.inLoop hc s.workSize
      refine .outside ?_ (hn ▸ h.aside_step hs hc)
      unfold State.Outside
      rw [hp, hcont, hb, hn]
      exact ho
  | timeout =>
    cases hs with
    | timeout hp => exact .outside ho (h.pass rfl (by rw [State.aside, hp]; rfl) rfl)

theorem Phase.flushed_step {s s' : State} {a : Act} (hp : s.prod = .flushClear) (hc : s.cont = true)
    (h : Inv (s.aside 0)) (hs : Step s a s') : Phase s' := by
  cases a with
  | call op =>
    cases hs with
    | call _ hi => rw [hp] at hi; cases hi
  | prod =>
    cases hs with
    | flushClear _ =>
      refine .running ?_
      rw [← aside_of_idle (s := { s with workSize := 0, prod := .idle }) rfl hc rfl]
      exact h
    | full d hi | room d hi | waitFree d hi | swapBuf d hi | swapSize d hi | post d hi | copy d hi
    | grow d hi | flushSome hi | flushNone hi | flushWrite b n hi | unRun hi | join hi =>
      rw [hp] at hi; cases hi
  | wri =>
    obtain ⟨-, hp', hc', -, -⟩ := hs.aside h.inLoop (fun _ => hc) 0
    exact .flushed (hp'.trans hp) (hc'.trans hc) (h.aside_step hs fun _ => hc)
  | timeout =>
    cases hs with
    | timeout hi => exact .flushed hp hc (h.pass rfl (by rw [State.aside, hi]; rfl) rfl)

theorem Step.wri_of_join {s s' : State} {a : Act} (hs : Step s a s') (hp : s.prod = .join)
    (hw : s.wri ≠ .done) : a = .wri ∨ a = .timeout ∧ s.wri = .wait := by
  cases hs with
  | join _ hd => exact absurd hd hw
  | timeout hi => exact Or.inr ⟨rfl, hi⟩
  | call _ hi | full d hi | room d hi | waitFree d hi | swapBuf d hi | swapSize d hi | post d hi
  | copy d hi | grow d hi | flushSome hi | flushNone hi | flushWrite b n hi | flushClear hi
  | unRun hi => rw [hp] at hi; cases hi
  | _ => exact Or.inl rfl

theorem Phase.final_step {s s' : State} {a : Act} (hp : s.prod = .join)
    (hw : s.wri = .finalTest ∨ s.wri = .finalWrite s.workBuf s.workSize ∧ 0 < s.workSize)
    (h0 : 0 ≤ s.workSize) (hf : s.stream ++ bytes (s.mem s.workBuf) s.workSize = s.written)
    (hs : Step s a s') : Phase s' := by
  have hl : s.wri.inLoop = false := by rcases hw with hw | ⟨hw, -⟩ <;> rw [hw] <;> rfl
  have ha := hs.wri_of_join hp (by rcases hw with hw | ⟨hw, -⟩ <;> rw [hw] <;> simp)
  rcases ha with rfl | ⟨-, hi⟩
  · cases hs with
    | finalSome hi hn => exact .final hp (Or.inr ⟨rfl, hn⟩) h0 hf
    | finalNone hi hn =>
      obtain hz : s.workSize = 0 := by omega
      rw [hz] at hf
      exact .done (Or.inl hp) rfl ((List.append_nil _).symm.trans hf)
    | finalWrite b n hi hn =>
      rcases hw with hw | ⟨hw, -⟩ <;> rw [hw] at hi <;> cases hi
      exact .cleared hp rfl hf
    | finalFail b n hi hn =>
      rcases hw with hw | ⟨hw, hpos⟩ <;> rw [hw] at hi <;> cases hi
      exact absurd hpos hn
    | finalClear hi => rcases hw with hw | ⟨hw, -⟩ <;> rw [hw] at hi <;> cases hi
    | loop hi | leave hi | wait hi | load hi | write b n hi | writeFail b n hi | clear hi
    | release hi | sleep hi => rw [hi] at hl; cases hl
  · rw [hi] at hl
    cases hl

/-- **Every step keeps the phases.** -/
theorem Phase.step {s s' : State} {a : Act} (h : Phase s) (hc : Calls s a) (ha : InTurn s a)
    (hs : next s a = some s') : Phase s' := by
  have hst := step_of_next hs
  cases h with
  | running hi => exact hi.phase_step hc ha hs
  | outside ho hi => exact Phase.outside_step ho hi ha hst
  | flushed hp hcont hi => exact Phase.flushed_step hp hcont hi hst
  | final hp hw h0 hf => exact Phase.final_step hp hw h0 hf hst
  | cleared hp hw hf =>
    rcases hst.wri_of_join hp (by rw [hw]; simp) with rfl | ⟨-, hi⟩
    · rw [next, State.goWri, hw] at hs
      cases hs
      exact .done (Or.inl hp) rfl hf
    · rw [hw] at hi; cases hi
  | done hp hw hf =>
    cases a with
    | call op =>
      rw [next] at hs
      rcases hp with hp | hp <;> rw [hp] at hs <;> cases hs
    | prod =>
      rcases hp with hp | hp
      · rw [next, State.goProd, hp, hw] at hs
        cases hs
        exact .done (Or.inr rfl) rfl hf
      · rw [next, State.goProd, hp] at hs
        cases hs
    | wri =>
      rw [next, State.goWri, hw] at hs
      cases hs
    | timeout =>
      rw [next, hw] at hs
      cases hs

/-! ## The main results -/

/-- **`Stop` returns with every byte in the stream, in order**, in every run in which no call
overflows and no `fwrite` overtakes a swapped buffer. -/
theorem stream_of_stopped (mem : Mem) (size : ℤ) {s : State}
    (h : ReachIf next (fun s a => Calls s a ∧ InTurn s a) (State.init mem size) s)
    (hs : s.prod = .stopped) : s.stream = s.written := by
  have hi : Phase s := ReachIf.inv h (.running (inv_init mem size))
    fun _ _ _ hi ha hn => hi.step ha.1 ha.2 hn
  cases hi with
  | running hi =>
    have := hi.inWrite
    rw [hs] at this
    cases this
  | outside ho _ => simp [State.Outside, hs] at ho
  | flushed hp => rw [hs] at hp; cases hp
  | final hp => rw [hs] at hp; cases hp
  | cleared hp => rw [hs] at hp; cases hp
  | done _ _ hf => exact hf

/-- A call that finds room. -/
def writing (d : List UInt8) : List Act := .call (.write d) :: List.replicate 3 .prod

/-- A call that swaps the buffers. -/
def swapping (d : List UInt8) : List Act := .call (.write d) :: List.replicate 7 .prod

/-- The writer takes a swapped buffer, writes it and goes round. -/
def served : List Act := List.replicate 7 .wri

/-- `Stop` before the writer tests `m_continue`, with data in the work buffer. -/
def stopping : List Act := .call .stop :: .prod :: List.replicate 4 .wri ++ [.prod]

/-- `Stop` before the writer tests `m_continue`, with an empty work buffer. -/
def idleStop : List Act := [.call .stop, .prod, .wri, .wri, .prod]

deriving instance DecidableEq for Prod

/-- Two writes, a `Flush` in turn and a further write. -/
theorem stream_of_stopped_three : ∃ s : State,
    ReachIf next (fun s a => Calls s a ∧ InTurn s a) (State.init (fun _ _ => 0) 4) s ∧ s.prod = .stopped ∧
      s.stream = [1, 2, 3, 4, 5, 6] ∧ s.stream = s.written := by
  have hm : Meets next (fun s a => Calls s a ∧ InTurn s a) (State.init (fun _ _ => 0) 4)
      (writing [1, 2, 3] ++ swapping [4, 5] ++ served ++ [.call .flush, .prod, .prod, .prod] ++
        writing [6] ++ stopping) := by decide +kernel
  have hr : (run next (State.init (fun _ _ => 0) 4)
      (writing [1, 2, 3] ++ swapping [4, 5] ++ served ++ [.call .flush, .prod, .prod, .prod] ++
        writing [6] ++ stopping)).map (fun s => (s.prod, s.stream)) =
      some (.stopped, [1, 2, 3, 4, 5, 6]) := by decide +kernel
  obtain ⟨s, hs, hv⟩ := ReachIf.of_run_map hm hr
  obtain ⟨hp, hst⟩ := Prod.mk.inj hv
  exact ⟨s, hs, hp, hst, stream_of_stopped _ _ hs hp⟩

/-- **A `Stop` and a `Flush` that overtake a swapped buffer.** The writer finds `m_continue` to be `false`
before it has taken the first buffer, which is lost; `Flush` writes the second buffer before the
first. -/
theorem not_stream_of_stopped :
    (∃ s : State, ReachIf next Calls (State.init (fun _ _ => 0) 4) s ∧ s.prod = .stopped ∧
      s.stream = [4, 5] ∧ s.written = [1, 2, 3, 4, 5]) ∧
    ∃ s : State, ReachIf next Calls (State.init (fun _ _ => 0) 4) s ∧ s.prod = .stopped ∧
      s.stream = [4, 5, 1, 2, 3] ∧ s.written = [1, 2, 3, 4, 5] := by
  have hm₁ : Meets next Calls (State.init (fun _ _ => 0) 4)
      (writing [1, 2, 3] ++ swapping [4, 5] ++ stopping) := by decide +kernel
  have hr₁ : (run next (State.init (fun _ _ => 0) 4)
      (writing [1, 2, 3] ++ swapping [4, 5] ++ stopping)).map
      (fun s => (s.prod, s.stream, s.written)) = some (.stopped, [4, 5], [1, 2, 3, 4, 5]) := by
    decide +kernel
  have hm₂ : Meets next Calls (State.init (fun _ _ => 0) 4) (writing [1, 2, 3] ++ swapping [4, 5] ++
      [.call .flush, .prod, .prod, .prod] ++ served ++ idleStop) := by decide +kernel
  have hr₂ : (run next (State.init (fun _ _ => 0) 4) (writing [1, 2, 3] ++ swapping [4, 5] ++
      [.call .flush, .prod, .prod, .prod] ++ served ++ idleStop)).map
      (fun s => (s.prod, s.stream, s.written)) =
      some (.stopped, [4, 5, 1, 2, 3], [1, 2, 3, 4, 5]) := by decide +kernel
  obtain ⟨s₁, hs₁, hv₁⟩ := ReachIf.of_run_map hm₁ hr₁
  obtain ⟨s₂, hs₂, hv₂⟩ := ReachIf.of_run_map hm₂ hr₂
  simp only [Prod.mk.injEq] at hv₁ hv₂
  exact ⟨⟨s₁, hs₁, hv₁⟩, s₂, hs₂, hv₂⟩

end Backend.WriteDisk
