import Backend.WriteDisk.Order

/-!
# `WriteDisk`: what `WriteToBuf` copies and queues

The only guard of `WriteToBuf` is the test `m_work_buf_size + len >= m_max_size` before the swap.

* `RoomFor`: the condition on a call of `WriteToBuf`;
* `InBounds`: the copy stays in the work buffer, no empty buffer is queued and `Run` does not abort;
* `Bounds`, `Bounds.prodMove`, `Bounds.wriMove`, **`Bounds.step`**: the invariant, across `Flush` and `Stop`;
* **`inBounds_of_reach`**: runs whose calls all meet the condition; `not_inBounds_of_not_roomFor`: it is exact;
* **`not_inBounds_of_large`**: arguments as large as the buffer, and larger.
-/

set_option autoImplicit false

namespace Backend.WriteDisk

/-- At a call of `WriteToBuf` the sum `m_work_buf_size + len` fits in an `int32_t`, and it is below `m_max_size`
or the argument fits in a buffer and the work buffer is not empty. -/
def RoomFor (s : State) : Act → Prop
  | .call (.write d) => s.workSize + d.length < 2 ^ 31 ∧
      (s.workSize + d.length < s.maxSize ∨ (0 < s.workSize ∧ d.length ≤ s.maxSize))
  | _ => True

instance (s : State) : ∀ a, Decidable (RoomFor s a)
  | .call (.write _) => inferInstanceAs (Decidable (_ ∧ _))
  | .call .flush | .call .stop | .prod | .wri | .timeout => isTrue trivial

/-- What is promised of `WriteToBuf` and `Run`. -/
structure InBounds (s : State) : Prop where
  copy : ∀ d, s.prod = .copy d → 0 ≤ s.workSize ∧ s.workSize + d.length ≤ s.maxSize
  post : ∀ d, s.prod = .post d → 0 < s.freeSize
  not_aborted : s.wri ≠ .aborted

/-! ## The invariant -/

/-- The producer swaps, and the free buffer is empty until the sizes are exchanged. -/
def Prod.emptied : Prod → Bool
  | .swapBuf _ | .swapSize _ => true
  | _ => false

/-- The writer has emptied the free buffer. -/
def Wri.emptied : Wri → Bool
  | .post => true
  | _ => false

/-- What each control point of the producer knows about the room in the buffers. -/
def State.room (s : State) : Prop :=
  match s.prod with
  | .test d => RoomFor s (.call (.write d))
  | .waitFree d | .swapBuf d | .swapSize d => 0 < s.workSize ∧ d.length ≤ s.maxSize
  | .post d => s.workSize = 0 ∧ d.length ≤ s.maxSize ∧ 0 < s.freeSize
  | .copy d | .grow d => s.workSize + d.length ≤ s.maxSize
  | _ => True

/-- In `Stop`, after `m_continue = false`. -/
def Prod.stopping : Prod → Bool
  | .join | .stopped => true
  | _ => false

/-- The writer can not abort: it is in its loop with a buffer that is not empty, or behind the test after it. -/
def Wri.sound (freeSize : ℤ) : Wri → Prop
  | .write _ n => n = freeSize
  | .finalWrite _ n => 0 < n
  | .aborted => False
  | _ => True

/-- The invariant. -/
structure Bounds (s : State) : Prop where
  max : s.maxSize < 2 ^ 31
  token : s.workSem + s.freeSem + s.prod.swapping + s.wri.writing = 1
  zero : 0 < s.freeSem ∨ s.wri.emptied = true ∨ s.prod.emptied = true → s.freeSize = 0
  pos : 0 < s.workSem ∨ s.wri.unwritten = true → 0 < s.freeSize
  size : 0 ≤ s.workSize ∧ s.workSize ≤ s.maxSize
  room : s.room
  sound : s.wri.sound s.freeSize
  stop : s.cont = false → s.prod.stopping = true
  leave : s.wri.inLoop = false → s.cont = false

theorem bounds_init (mem : Mem) {size : ℤ} (h0 : 0 < size) (h31 : size < 2 ^ 31) : Bounds (State.init mem size) where
  max := h31
  token := rfl
  zero := fun _ => rfl
  pos := by simp [State.init, Wri.unwritten]
  size := ⟨le_rfl, h0.le⟩
  room := trivial
  sound := trivial
  stop := by simp [State.init]
  leave := by simp [State.init, Wri.inLoop]

theorem Bounds.inBounds {s : State} (h : Bounds s) : InBounds s where
  copy := by
    intro d hp
    have hroom := h.room
    simp only [State.room, hp] at hroom
    exact ⟨h.size.1, hroom⟩
  post := by
    intro d hp
    have hroom := h.room
    simp only [State.room, hp] at hroom
    exact hroom.2.2
  not_aborted := by
    intro hw
    have hsound := h.sound
    rw [hw] at hsound
    exact hsound

/-! ## The steps -/

theorem Wri.not_emptied {w : Wri} (h : w.writing = 0) : ¬ w.emptied = true := by
  cases w <;> simp_all [Wri.emptied, Wri.writing]

theorem Wri.sound_of_writing {w : Wri} {k k' : ℤ} (h : w.writing = 0) (hs : w.sound k) : w.sound k' := by
  cases w <;> simp_all [Wri.sound, Wri.writing]

/-- What a step of the producer outside the swap leaves alone. -/
structure SameFree (s s' : State) : Prop where
  workSem : s'.workSem = s.workSem
  freeSem : s'.freeSem = s.freeSem
  freeSize : s'.freeSize = s.freeSize
  maxSize : s'.maxSize = s.maxSize
  cont : s'.cont = s.cont
  wri : s'.wri = s.wri

theorem Bounds.prodMove {s s' : State} (h : Bounds s) (hs : SameFree s s')
    (hsw : s'.prod.swapping = s.prod.swapping) (he : s'.prod.emptied = true → s.prod.emptied = true)
    (hst : s.prod.stopping = true → s'.prod.stopping = true)
    (hsize : 0 ≤ s'.workSize ∧ s'.workSize ≤ s'.maxSize) (hroom : s'.room) : Bounds s' where
  max := hs.maxSize ▸ h.max
  token := by
    rw [hs.workSem, hs.freeSem, hs.wri, hsw]
    exact h.token
  zero := by
    rw [hs.freeSem, hs.wri, hs.freeSize]
    exact fun hor => h.zero (hor.imp_right (Or.imp_right he))
  pos := by
    rw [hs.workSem, hs.wri, hs.freeSize]
    exact h.pos
  size := hsize
  room := hroom
  sound := by
    rw [hs.wri, hs.freeSize]
    exact h.sound
  stop := by
    rw [hs.cont]
    exact fun hc => hst (h.stop hc)
  leave := by
    rw [hs.wri, hs.cont]
    exact h.leave

theorem Bounds.prodGo {s s' : State} (h : Bounds s) {p : Prod} (hp : s.prod = p) (hs : SameFree s s')
    (hsw : s'.prod.swapping = p.swapping) (he : s'.prod.emptied = false) (hst : p.stopping = false)
    (hsize : 0 ≤ s'.workSize ∧ s'.workSize ≤ s'.maxSize) (hroom : s'.room) : Bounds s' := by
  subst hp
  apply h.prodMove hs hsw _ _ hsize hroom
  · exact fun h' => absurd h' (by simp [he])
  · exact fun h' => absurd h' (by simp [hst])

theorem Bounds.wriHold {s : State} (h : Bounds s) {w : Wri} {st : List UInt8} (hw : w.writing = s.wri.writing)
    (he : w.emptied = true → s.wri.emptied = true)
    (hu : w.unwritten = true → 0 < s.workSem ∨ s.wri.unwritten = true) (hsound : w.sound s.freeSize)
    (hl : w.inLoop = false → s.cont = false) : Bounds { s with stream := st, wri := w } where
  max := h.max
  token := by
    have htok := h.token
    simp only at htok ⊢
    omega
  zero := fun hor => h.zero (hor.imp_right (Or.imp_left he))
  pos := by
    rintro (hz | hz)
    · exact h.pos (.inl hz)
    · exact h.pos (hu hz)
  size := h.size
  room := h.room
  sound := hsound
  stop := h.stop
  leave := hl

theorem Bounds.wriMove {s : State} (h : Bounds s) {w : Wri} {st : List UInt8} (hw : w.writing = 0)
    (hs : s.wri.writing = 0) (hsound : w.sound s.freeSize) (hl : w.inLoop = false → s.cont = false) :
    Bounds { s with stream := st, wri := w } := by
  refine h.wriHold (hw.trans hs.symm) (fun he => absurd he (Wri.not_emptied hw)) (fun hu => ?_) hsound hl
  rw [Wri.unwritten_of_writing hw] at hu
  cases hu

theorem room_of_stopping {s : State} (h : s.prod.stopping = true) : s.room := by
  unfold State.room
  cases hp : s.prod <;> simp_all [Prod.stopping]

/-- While the producer is not at the end of the swap, the room does not depend on the free buffer. -/
theorem room_of_swapping {s s' : State} (h : s.room) (hsw : s.prod.swapping = 0) (hp : s'.prod = s.prod)
    (hw : s'.workSize = s.workSize) (hm : s'.maxSize = s.maxSize) : s'.room := by
  unfold State.room at h ⊢
  rw [hp, hw, hm]
  cases hprod : s.prod <;> simp_all [Prod.swapping, RoomFor]

/-- The swap of the sizes: the work buffer, which is not empty, is the one that is queued. -/
theorem Bounds.swapSize {s : State} (h : Bounds s) {d : List UInt8} (hp : s.prod = .swapSize d) :
    Bounds (s.swapSize d) := by
  have hroom := h.room
  have htok := h.token
  have hst := h.stop
  have hz := h.zero (.inr (.inr (by rw [hp]; rfl)))
  simp only [State.room, hp] at hroom
  simp only [hp, Prod.swapping] at htok
  rw [hp] at hst
  have hw : s.wri.writing = 0 := by omega
  refine ⟨h.max, htok, ?_, fun _ => hroom.1, ?_, ⟨hz, hroom.2, hroom.1⟩, Wri.sound_of_writing hw h.sound,
    fun hc => Bool.noConfusion (hst hc), h.leave⟩
  · rintro (h' | h' | h')
    · exact absurd h' (by simp only [State.swapSize]; omega)
    · exact absurd h' (Wri.not_emptied hw)
    · cases h'
  · simp only [State.swapSize, hz]
    exact ⟨le_rfl, h.size.1.trans h.size.2⟩

theorem Bounds.waitFree {s : State} (h : Bounds s) {d : List UInt8} (hp : s.prod = .waitFree d)
    (hf : 0 < s.freeSem) : Bounds { s with freeSem := s.freeSem - 1, prod := .swapBuf d } := by
  have hroom := h.room
  have htok := h.token
  have hst := h.stop
  simp only [State.room, hp] at hroom
  simp only [hp, Prod.swapping] at htok
  rw [hp] at hst
  refine ⟨h.max, ?_, fun _ => h.zero (.inl hf), h.pos, h.size, hroom, h.sound, fun hc => Bool.noConfusion (hst hc),
    h.leave⟩
  simp only [Prod.swapping]
  omega

theorem Bounds.post {s : State} (h : Bounds s) {d : List UInt8} (hp : s.prod = .post d) :
    Bounds { s with workSem := s.workSem + 1, prod := .copy d } := by
  have hroom := h.room
  have htok := h.token
  have hst := h.stop
  simp only [State.room, hp] at hroom
  simp only [hp, Prod.swapping] at htok
  rw [hp] at hst
  refine ⟨h.max, ?_, ?_, fun _ => hroom.2.2, h.size, ?_, h.sound, fun hc => Bool.noConfusion (hst hc), h.leave⟩
  · simp only [Prod.swapping]
    omega
  · rintro (h' | h' | h')
    · exact absurd h' (by simp only; omega)
    · exact absurd h' (Wri.not_emptied (show s.wri.writing = 0 by omega))
    · cases h'
  · show s.workSize + _ ≤ s.maxSize
    omega

theorem Bounds.stepProd {s s' : State} (h : Bounds s) (hs : Step s .prod s') : Bounds s' := by
  have hroom := h.room
  have hsize := h.size
  have hmax := h.max
  cases hs with
  | full d hp hge =>
    simp only [State.room, hp, RoomFor] at hroom
    rw [i32_of_lt (by omega) hroom.1] at hge
    exact h.prodGo hp ⟨rfl, rfl, rfl, rfl, rfl, rfl⟩ rfl rfl rfl hsize (hroom.2.resolve_left (by omega))
  | room d hp hlt =>
    simp only [State.room, hp, RoomFor] at hroom
    rw [i32_of_lt (by omega) hroom.1] at hlt
    refine h.prodGo hp ⟨rfl, rfl, rfl, rfl, rfl, rfl⟩ rfl rfl rfl hsize ?_
    show s.workSize + _ ≤ s.maxSize
    omega
  | waitFree d hp hf => exact h.waitFree hp hf
  | swapBuf d hp =>
    simp only [State.room, hp] at hroom
    refine h.prodMove ⟨rfl, rfl, rfl, rfl, rfl, rfl⟩ ?_ (fun _ => ?_) ?_ hsize hroom <;> rw [hp]
    · rfl
    · rfl
    · exact Bool.noConfusion
  | swapSize d hp => exact h.swapSize hp
  | post d hp => exact h.post hp
  | copy d hp =>
    simp only [State.room, hp] at hroom
    exact h.prodGo hp ⟨rfl, rfl, rfl, rfl, rfl, rfl⟩ rfl rfl rfl hsize hroom
  | grow d hp =>
    simp only [State.room, hp] at hroom
    have he : i32 (s.workSize + d.length) = s.workSize + d.length := i32_of_lt (by omega) (by omega)
    refine h.prodGo hp ⟨rfl, rfl, rfl, rfl, rfl, rfl⟩ rfl rfl rfl ?_ trivial
    simp only [State.grow, he]
    omega
  | flushSome hp _ | flushNone hp _ | flushWrite _ _ hp _ =>
    exact h.prodGo hp ⟨rfl, rfl, rfl, rfl, rfl, rfl⟩ rfl rfl rfl hsize trivial
  | flushClear hp =>
    exact h.prodGo hp ⟨rfl, rfl, rfl, rfl, rfl, rfl⟩ rfl rfl rfl ⟨le_rfl, hsize.1.trans hsize.2⟩ trivial
  | unRun hp =>
    have htok := h.token
    have hzero := h.zero
    rw [hp] at htok hzero
    exact ⟨hmax, htok, hzero, h.pos, hsize, trivial, h.sound, fun _ => rfl, fun _ => rfl⟩
  | join hp hd =>
    refine h.prodMove ⟨rfl, rfl, rfl, rfl, rfl, rfl⟩ ?_ Bool.noConfusion (fun _ => rfl) hsize trivial
    rw [hp]
    rfl

theorem Bounds.stepWri {s s' : State} (h : Bounds s) (hs : Step s .wri s') : Bounds s' := by
  have htok := h.token
  have hsound := h.sound
  cases hs with
  | loop hw _ => exact h.wriMove rfl (by rw [hw]; rfl) trivial Bool.noConfusion
  | leave hw hc => exact h.wriMove rfl (by rw [hw]; rfl) trivial fun _ => hc
  | wait hw hpos =>
    simp only [hw, Wri.writing] at htok
    refine ⟨h.max, ?_, ?_, fun _ => h.pos (.inl hpos), h.size, h.room, trivial, h.stop, Bool.noConfusion⟩
    · simp only [Wri.writing]
      omega
    · rintro (h' | h' | h')
      · exact h.zero (.inl h')
      · cases h'
      · exact h.zero (.inr (.inr h'))
  | load hw =>
    refine h.wriHold (by rw [hw]; rfl) ?_ (fun _ => .inr (by rw [hw]; rfl)) rfl Bool.noConfusion
    rw [hw]
    exact Bool.noConfusion
  | write b n hw hn =>
    refine h.wriHold (by rw [hw]; rfl) ?_ Bool.noConfusion trivial Bool.noConfusion
    rw [hw]
    exact Bool.noConfusion
  | writeFail b n hw hn =>
    rw [hw] at hsound
    have := h.pos (.inr (by rw [hw]; rfl))
    exact absurd (hsound ▸ this) hn
  | clear hw =>
    simp only [hw, Wri.writing] at htok
    have hroom : State.room { s with freeSize := 0, wri := .post } :=
      room_of_swapping h.room (by omega) rfl rfl rfl
    refine ⟨h.max, ?_, fun _ => rfl, ?_, h.size, hroom, trivial, h.stop, Bool.noConfusion⟩
    · simp only [Wri.writing]
      omega
    · rintro (h' | h')
      · exact absurd h' (by simp only; omega)
      · cases h'
  | release hw =>
    simp only [hw, Wri.writing] at htok
    refine ⟨h.max, ?_, fun _ => h.zero (.inr (.inl (by rw [hw]; rfl))), ?_, h.size, h.room, trivial, h.stop,
      Bool.noConfusion⟩
    · simp only [Wri.writing]
      omega
    · rintro (h' | h')
      · exact h.pos (.inl h')
      · cases h'
  | sleep hw => exact h.wriMove rfl (by rw [hw]; rfl) trivial Bool.noConfusion
  | finalSome hw hpos =>
    exact h.wriMove rfl (by rw [hw]; rfl) hpos fun _ => h.leave (by rw [hw]; rfl)
  | finalNone hw _ => exact h.wriMove rfl (by rw [hw]; rfl) trivial fun _ => h.leave (by rw [hw]; rfl)
  | finalWrite b n hw _ => exact h.wriMove rfl (by rw [hw]; rfl) trivial fun _ => h.leave (by rw [hw]; rfl)
  | finalFail b n hw hn =>
    rw [hw] at hsound
    exact absurd hsound hn
  | finalClear hw =>
    have hc := h.leave (by rw [hw]; rfl)
    have hm : Bounds { s with stream := s.stream, wri := .done } :=
      h.wriMove rfl (by rw [hw]; rfl) trivial fun _ => hc
    exact ⟨h.max, hm.token, hm.zero, hm.pos, ⟨le_rfl, h.size.1.trans h.size.2⟩, room_of_stopping (h.stop hc), trivial,
      hm.stop, hm.leave⟩

/-- **Every step keeps the bounds.** -/
theorem Bounds.step {s s' : State} {a : Act} (h : Bounds s) (ha : RoomFor s a) (hs : next s a = some s') :
    Bounds s' := by
  have hst := step_of_next hs
  cases a with
  | call op =>
    cases hst with
    | call _ hp =>
      cases op with
      | write d => exact h.prodGo hp ⟨rfl, rfl, rfl, rfl, rfl, rfl⟩ rfl rfl rfl h.size ha
      | flush | stop => exact h.prodGo hp ⟨rfl, rfl, rfl, rfl, rfl, rfl⟩ rfl rfl rfl h.size trivial
  | prod => exact h.stepProd hst
  | wri => exact h.stepWri hst
  | timeout =>
    cases hst with
    | timeout hw => exact h.wriMove rfl (by rw [hw]; rfl) trivial Bool.noConfusion

/-! ## The main results -/

/-- **`WriteToBuf` stays in its buffer and queues no empty one**, in every run of the producer, with `Flush` and
`Stop`, and the writer whose calls of `WriteToBuf` all meet the condition. -/
theorem inBounds_of_reach (mem : Mem) {size : ℤ} (h0 : 0 < size) (h31 : size < 2 ^ 31) {s : State}
    (h : ReachIf next RoomFor (State.init mem size) s) : InBounds s := by
  have hb : Bounds s := ReachIf.inv h (bounds_init mem h0 h31) fun _ _ _ hb ha hn => hb.step ha hn
  exact hb.inBounds

/-- Three bytes, then four bytes into buffers of four bytes, and `Stop`. -/
theorem inBounds_of_reach_four : ∃ s : State, ReachIf next RoomFor (State.init (fun _ _ => 0) 4) s ∧
    s.stream = [1, 2, 3, 4, 5, 6, 7] ∧ s.prod = .stopped ∧ InBounds s := by
  obtain ⟨s, hs, h1, h2⟩ : ∃ s : State, ReachIf next RoomFor (State.init (fun _ _ => 0) 4) s ∧
      s.stream = [1, 2, 3, 4, 5, 6, 7] ∧ s.prod = .stopped :=
    ⟨_, ReachIf.of_run (ReachIf.refl _)
      (l := [.call (.write [1, 2, 3]), .prod, .prod, .prod, .wri, .call (.write [4, 5, 6, 7]), .prod, .prod, .prod,
        .prod, .prod, .prod, .prod, .wri, .wri, .wri, .wri, .wri, .wri, .call .stop, .prod, .wri, .wri, .wri, .wri,
        .prod])
      (by decide) rfl, rfl, rfl⟩
  exact ⟨s, hs, h1, h2, inBounds_of_reach (fun _ _ => 0) (show (0 : ℤ) < 4 by decide) (by decide) hs⟩

/-- The condition is exact: a call that does not meet it, made while the token is on `m_free_sem`, breaks the
bounds before it returns. -/
theorem not_inBounds_of_not_roomFor {s : State} (h : Bounds s) {d : List UInt8} (hp : s.prod = .idle)
    (hf : 0 < s.freeSem) (hd : (d.length : ℤ) < 2 ^ 31) (hno : ¬ RoomFor s (.call (.write d))) :
    ∃ s', Reach next s s' ∧ ¬ InBounds s' := by
  have hsize := h.size
  have hmax := h.max
  have hz := h.zero (.inl hf)
  have hcall : Reach next s { s with prod := .test d } :=
    (ReachIf.refl s).tail (a := .call (.write d)) trivial (by simp only [next, hp, State.call])
  by_cases hge : i32 (s.workSize + d.length) ≥ s.maxSize
  · have hfit : s.workSize + d.length < 2 ^ 31 := by
      by_contra hov
      rw [i32, Int.bmod_def] at hge
      split_ifs at hge <;> omega
    rw [i32_of_lt (by omega) hfit] at hge
    -- the swap takes place
    have hwait := hcall.tail (a := .prod) trivial (show next _ .prod = some { s with prod := .waitFree d } from
      if_pos (by rwa [i32_of_lt (by omega) hfit]))
    have hswap := hwait.tail (a := .prod) trivial (show next _ .prod =
      some { s with freeSem := s.freeSem - 1, prod := .swapBuf d } from if_pos hf)
    have hpost := (hswap.tail (a := .prod) trivial rfl).tail (a := .prod) trivial rfl
    by_cases hw : 0 < s.workSize
    · refine ⟨_, hpost.tail (a := .prod) trivial rfl, fun hb => hno ⟨hfit, .inr ⟨hw, ?_⟩⟩⟩
      have hle : s.freeSize + d.length ≤ s.maxSize := (hb.copy d rfl).2
      omega
    · exact ⟨_, hpost, fun hb => hw (hb.post d rfl)⟩
  · refine ⟨_, hcall.tail (a := .prod) trivial (show next _ .prod = some { s with prod := .copy d } from if_neg hge),
      fun hb => ?_⟩
    have hle : s.workSize + d.length ≤ s.maxSize := (hb.copy d rfl).2
    rw [i32_of_lt (by omega) (by omega)] at hge
    exact hno ⟨by omega, .inl (by omega)⟩

/-- **An argument as large as the buffer** on an empty work buffer: an empty buffer is queued, and the writer
aborts. A larger one is copied past the end. -/
theorem not_inBounds_of_large :
    (∃ s, Reach next (State.init (fun _ _ => 0) 4) s ∧ s.wri = .aborted ∧ ¬ InBounds s) ∧
      ∃ s, Reach next (State.init (fun _ _ => 0) 4) s ∧ s.prod = .copy [1, 2, 3, 4, 5] ∧ ¬ InBounds s := by
  constructor
  · refine ⟨_, Reach.of_run (l := [.call (.write [1, 2, 3, 4]), .prod, .prod, .prod, .prod, .prod, .wri, .wri, .wri,
      .wri]) rfl, rfl, fun h => h.not_aborted rfl⟩
  · refine ⟨_, Reach.of_run (l := [.call (.write [1, 2, 3, 4, 5]), .prod, .prod, .prod, .prod, .prod]) rfl, rfl,
      fun h => ?_⟩
    have hle := (h.copy _ rfl).2
    revert hle
    decide

end Backend.WriteDisk
