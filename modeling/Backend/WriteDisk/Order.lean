import Backend.WriteDisk.Model
import Mathlib.Tactic.Linarith

/-!
# `WriteDisk`: every byte in order while running

One token moves between `m_free_sem`, the producer's swap, `m_work_sem` and the writer's
iteration; whoever has it owns the free buffer.

* `bytes_memcpy`: what `memcpy` appends;
* `Inv`, `Inv.step`: the invariant of runs in which the producer only calls `WriteToBuf`;
* `InOrder`: what holds in every reachable state;
* **`inOrder_of_reach`**: it does hold as long as `m_work_buf_size + len` fits in an `int32_t`;
* **`not_inOrder_of_overflow`**: two writes of `2 ^ 30` bytes.
-/

set_option autoImplicit false

namespace Backend.WriteDisk

/-! ## Buffer contents -/

theorem bytes_zero (m : ℤ → UInt8) : bytes m 0 = [] := rfl

/-- **What `memcpy` appends.** -/
theorem bytes_memcpy (m : ℤ → UInt8) {off : ℤ} (h : 0 ≤ off) (d : List UInt8) :
    bytes (memcpy m off d) (off + d.length) = bytes m off ++ d := by
  obtain ⟨n, rfl⟩ := Int.eq_ofNat_of_zero_le h
  have h1 : ((n : ℤ) + d.length).toNat = n + d.length := by omega
  rw [bytes, h1, List.range_add, List.map_append]
  congr 1
  · refine List.map_congr_left fun i hi => ?_
    rw [List.mem_range] at hi
    rw [memcpy, if_neg (by omega)]
  · refine List.ext_getElem (by simp) fun i hi hi' => ?_
    have hlt : (n : ℤ) ≤ (n + i : ℕ) ∧ ((n + i : ℕ) : ℤ) < n + d.length := by omega
    have h2 : (((n + i : ℕ) : ℤ) - n).toNat = i := by omega
    simp only [List.map_map, List.getElem_map, List.getElem_range, Function.comp_apply, memcpy]
    rw [if_pos hlt, h2, List.getD_eq_getElem?_getD, List.getElem?_eq_getElem hi', Option.getD_some]

/-! ## The token -/

/-- The producer has taken the token of `m_free_sem` and not yet posted `m_work_sem`. -/
def Prod.swapping : Prod → ℕ
  | .swapBuf _ | .swapSize _ | .post _ => 1
  | _ => 0

/-- The writer has taken the token of `m_work_sem` and not yet posted `m_free_sem`. -/
def Wri.writing : Wri → ℕ
  | .load | .write _ _ | .clear | .post => 1
  | _ => 0

/-- The writer has a buffer and has not yet written it. -/
def Wri.unwritten : Wri → Bool
  | .load | .write _ _ => true
  | _ => false

/-- Inside `WriteToBuf`, or outside the object. -/
def Prod.inWrite : Prod → Bool
  | .flushTest | .flushWrite _ _ | .flushClear | .unRun | .join | .stopped => false
  | _ => true

/-- In the loop of `Run`. -/
def Wri.inLoop : Wri → Bool
  | .finalTest | .finalWrite _ _ | .finalClear | .done | .aborted => false
  | _ => true

/-- The swapped buffer, if it is not yet written. -/
def State.pending (s : State) : List UInt8 :=
  if 0 < s.workSem ∨ s.wri.unwritten = true then bytes (s.mem s.freeBuf) s.freeSize else []

/-- What the free buffer contributes to the stream. -/
def State.inFree (s : State) : List UInt8 :=
  match s.prod with
  | .swapSize _ => bytes (s.mem s.freeBuf) s.workSize
  | .post _ => bytes (s.mem s.freeBuf) s.freeSize
  | _ => s.pending

/-- What the work buffer contributes to the stream. -/
def State.inWork (s : State) : List UInt8 :=
  match s.prod with
  | .swapSize _ => []
  | .grow d => bytes (s.mem s.workBuf) (s.workSize + d.length)
  | _ => bytes (s.mem s.workBuf) s.workSize

/-- The data accepted so far, a copied but not yet counted argument included. -/
def State.total (s : State) : List UInt8 :=
  match s.prod with
  | .grow d => s.written ++ d
  | _ => s.written

/-- What each control point of the producer knows about the sizes. -/
def State.sizes (s : State) : Prop :=
  match s.prod with
  | .test d => 0 < d.length ∧ d.length < s.maxSize ∧ s.workSize + d.length < 2 ^ 31
  | .waitFree d | .swapBuf d | .swapSize d =>
    0 < d.length ∧ d.length < s.maxSize ∧ s.workSize + d.length < 2 ^ 31 ∧ 0 < s.workSize
  | .post d => 0 < d.length ∧ d.length < s.maxSize ∧ (d.length : ℤ) < 2 ^ 31 ∧ s.workSize = 0 ∧
      0 < s.freeSize
  | .copy d | .grow d => 0 < d.length ∧ s.workSize + d.length < s.maxSize ∧
      s.workSize + d.length < 2 ^ 31
  | _ => True

/-- The invariant. -/
structure Inv (s : State) : Prop where
  token : s.workSem + s.freeSem + s.prod.swapping + s.wri.writing = 1
  ne : s.workBuf ≠ s.freeBuf
  cont : s.cont = true
  inWrite : s.prod.inWrite = true
  inLoop : s.wri.inLoop = true
  args : ∀ b n, s.wri = .write b n → b = s.freeBuf ∧ n = s.freeSize
  pos : 0 < s.workSem ∨ s.wri.unwritten = true → 0 < s.freeSize
  zero : (0 < s.freeSem ∨ s.wri = .post ∨ (∃ d, s.prod = .swapBuf d) ∨ ∃ d, s.prod = .swapSize d) →
    s.freeSize = 0
  size : 0 ≤ s.workSize ∧ (s.workSize = 0 ∨ s.workSize < s.maxSize)
  sizes : s.sizes
  flow : s.stream ++ s.inFree ++ s.inWork = s.total

theorem inFree_of_swapping {s : State} (h : s.prod.swapping = 0) : s.inFree = s.pending := by
  unfold State.inFree
  cases hp : s.prod <;> simp_all [Prod.swapping]

theorem pending_of_token {s : State} (hs : s.workSem = 0) (hw : s.wri.unwritten = false) :
    s.pending = [] := by
  simp [State.pending, hs, hw]

theorem inFree_of_token {s : State} (hp : s.prod.swapping = 0) (hs : s.workSem = 0)
    (hw : s.wri.unwritten = false) : s.inFree = [] := by
  rw [inFree_of_swapping hp, pending_of_token hs hw]

theorem Wri.unwritten_of_writing {w : Wri} (h : w.writing = 0) : w.unwritten = false := by
  cases w <;> simp_all [Wri.writing, Wri.unwritten]

theorem Wri.ne_write {w : Wri} (h : w.writing = 0) (b : Buf) (n : ℤ) : w ≠ .write b n := by
  rintro rfl
  cases h

theorem inv_init (mem : Mem) (size : ℤ) : Inv (State.init mem size) where
  token := rfl
  ne := by simp [State.init]
  cont := rfl
  inWrite := rfl
  inLoop := rfl
  args := fun _ _ h => by cases h
  pos := by simp [State.init, Wri.unwritten]
  zero := fun _ => rfl
  size := ⟨le_rfl, Or.inl rfl⟩
  sizes := trivial
  flow := rfl

/-! ## The steps -/

/-- The producer only calls `WriteToBuf`, with a length between `0` and `m_max_size`. -/
def Writes (s : State) : Act → Prop
  | .call (.write d) => 0 < d.length ∧ d.length < s.maxSize
  | .call _ => False
  | _ => True

/-- `m_work_buf_size + len` fits in an `int32_t` when `WriteToBuf` is called. -/
def Fits (s : State) : Act → Prop
  | .call (.write d) => s.workSize + d.length < 2 ^ 31
  | _ => True

instance (s : State) : ∀ a, Decidable (Writes s a)
  | .call (.write _) => inferInstanceAs (Decidable (_ ∧ _))
  | .call .flush | .call .stop => isFalse id
  | .prod | .wri | .timeout => isTrue trivial

instance (s : State) : ∀ a, Decidable (Fits s a)
  | .call (.write _) => inferInstanceAs (Decidable (_ < _))
  | .call .flush | .call .stop | .prod | .wri | .timeout => isTrue trivial

theorem Inv.zero_of_prod {s : State} (hi : Inv s) {p : Prod}
    (hp : ∀ d, p ≠ .swapBuf d ∧ p ≠ .swapSize d)
    (h : 0 < s.freeSem ∨ s.wri = .post ∨ (∃ d, p = .swapBuf d) ∨ ∃ d, p = .swapSize d) :
    s.freeSize = 0 := by
  rcases h with h | h | ⟨d, h⟩ | ⟨d, h⟩
  · exact hi.zero (Or.inl h)
  · exact hi.zero (Or.inr (Or.inl h))
  · exact absurd h (hp d).1
  · exact absurd h (hp d).2

theorem Inv.zero_of_wri {s : State} (hi : Inv s) {w : Wri} (hw : w ≠ .post)
    (h : 0 < s.freeSem ∨ w = .post ∨ (∃ d, s.prod = .swapBuf d) ∨ ∃ d, s.prod = .swapSize d) :
    s.freeSize = 0 := by
  rcases h with h | h | h
  · exact hi.zero (Or.inl h)
  · exact absurd h hw
  · exact hi.zero (Or.inr (Or.inr h))

/-- With the token at the end of the swap or on `m_work_sem`, the free buffer need not be empty. -/
theorem not_zero_of_token {f : ℕ} {w : Wri} {p : Prod} (hf : f = 0) (hw : w.writing = 0)
    (hp : ∀ d, p ≠ .swapBuf d ∧ p ≠ .swapSize d) :
    ¬ (0 < f ∨ w = .post ∨ (∃ d, p = .swapBuf d) ∨ ∃ d, p = .swapSize d) := by
  rintro (h | rfl | ⟨d, h⟩ | ⟨d, h⟩)
  · omega
  · cases hw
  · exact (hp d).1 h
  · exact (hp d).2 h

theorem Inv.move {s : State} (hi : Inv s) {p : Prod} (hs : p.swapping = s.prod.swapping)
    (hp : p.inWrite = true) (hz : ∀ d, p ≠ .swapBuf d ∧ p ≠ .swapSize d)
    (hsz : { s with prod := p : State }.sizes)
    (hf : { s with prod := p : State }.inFree = s.inFree)
    (hw : { s with prod := p : State }.inWork = s.inWork)
    (ht : { s with prod := p : State }.total = s.total) : Inv { s with prod := p } where
  token := by rw [← hi.token]; simp only [hs]
  ne := hi.ne
  cont := hi.cont
  inWrite := hp
  inLoop := hi.inLoop
  args := hi.args
  pos := hi.pos
  zero := hi.zero_of_prod hz
  size := hi.size
  sizes := hsz
  flow := by rw [hf, hw, ht]; exact hi.flow

/-- The pointers are swapped: the token is with the producer, so the writer is elsewhere. -/
theorem Inv.swapBuf {s : State} (hi : Inv s) {d : List UInt8} (hp : s.prod = .swapBuf d) :
    Inv (s.swapBuf d) := by
  have hsz := hi.sizes
  have hflow := hi.flow
  have htok := hi.token
  simp only [State.sizes, hp] at hsz
  simp only [hp, Prod.swapping] at htok
  have hw : s.wri.writing = 0 := by omega
  have hu := Wri.unwritten_of_writing hw
  have h0 : s.workSem = 0 := by omega
  refine ⟨?_, hi.ne.symm, hi.cont, rfl, hi.inLoop, ?_, ?_, ?_, hi.size, hsz, ?_⟩
  · simpa only [State.swapBuf, Prod.swapping] using htok
  · exact fun b n hb => absurd hb (Wri.ne_write hw b n)
  · rintro (h | h)
    · exact absurd h (by simp [State.swapBuf, h0])
    · rw [show s.wri.unwritten = true from h] at hu; cases hu
  · exact fun _ => hi.zero (Or.inr (Or.inr (Or.inl ⟨d, hp⟩)))
  · simpa [State.inFree, State.inWork, State.total, hp, pending_of_token h0 hu, State.swapBuf]
      using hflow

/-- The sizes are swapped: what the work buffer held is now what the free buffer holds. -/
theorem Inv.swapSize {s : State} (hi : Inv s) {d : List UInt8} (hp : s.prod = .swapSize d) :
    Inv (s.swapSize d) := by
  have hsz := hi.sizes
  have hflow := hi.flow
  have htok := hi.token
  simp only [State.sizes, hp] at hsz
  obtain ⟨h1, h2, h3, h4⟩ := hsz
  simp only [hp, Prod.swapping] at htok
  have hz := hi.zero (Or.inr (Or.inr (Or.inr ⟨d, hp⟩)))
  have hw : s.wri.writing = 0 := by omega
  have h0 : s.freeSem = 0 := by omega
  refine ⟨?_, hi.ne, hi.cont, rfl, hi.inLoop, ?_, fun _ => h4,
    fun h => absurd h (not_zero_of_token h0 hw (by simp [State.swapSize])), ⟨hz.ge, Or.inl hz⟩,
    ⟨h1, h2, by omega, hz, h4⟩, ?_⟩
  · simpa only [State.swapSize, Prod.swapping] using htok
  · exact fun b n hb => absurd hb (Wri.ne_write hw b n)
  · simpa [State.inFree, State.inWork, State.total, hp, State.swapSize, hz, bytes_zero] using hflow

theorem Inv.copy {s : State} (hi : Inv s) {d : List UInt8} (hp : s.prod = .copy d) : Inv (s.copy d) := by
  have hsz := hi.sizes
  have hflow := hi.flow
  have htok := hi.token
  simp only [State.sizes, hp] at hsz
  simp only [hp, Prod.swapping] at htok
  refine ⟨by simpa only [State.copy, Prod.swapping] using htok, hi.ne, hi.cont, rfl, hi.inLoop,
    hi.args, hi.pos, hi.zero_of_prod (by simp [State.copy]), hi.size, hsz, ?_⟩
  simp only [State.inFree, State.inWork, State.total, hp, State.pending] at hflow
  simp only [State.inFree, State.inWork, State.total, State.pending, State.copy,
    Function.update_self, Function.update_of_ne hi.ne.symm, bytes_memcpy _ hi.size.1]
  rw [← hflow, List.append_assoc _ _ d]

theorem Inv.stepProd {s s' : State} (hi : Inv s) (h : Step s .prod s') : Inv s' := by
  have hsz := hi.sizes
  have hiw := hi.inWrite
  have hflow := hi.flow
  have htok := hi.token
  have hsize := hi.size
  cases h with
  | full d hp hc =>
    simp only [State.sizes, hp] at hsz
    obtain ⟨h1, h2, h3⟩ := hsz
    rw [i32_of_lt (by omega) h3] at hc
    have h4 : 0 < s.workSize := by omega
    refine hi.move (by rw [hp]; rfl) rfl (by simp) ⟨h1, h2, h3, h4⟩ ?_ ?_ ?_ <;>
      simp [State.inFree, State.inWork, State.total, State.pending, hp]
  | room d hp hc =>
    simp only [State.sizes, hp] at hsz
    obtain ⟨h1, h2, h3⟩ := hsz
    rw [i32_of_lt (by omega) h3] at hc
    have h4 : s.workSize + d.length < s.maxSize := by omega
    refine hi.move (by rw [hp]; rfl) rfl (by simp) ⟨h1, h4, h3⟩ ?_ ?_ ?_ <;>
      simp [State.inFree, State.inWork, State.total, State.pending, hp]
  | waitFree d hp hf =>
    simp only [State.sizes, hp] at hsz
    simp only [hp, Prod.swapping] at htok
    refine ⟨?_, hi.ne, hi.cont, rfl, hi.inLoop, hi.args, hi.pos, fun _ => hi.zero (Or.inl hf), hi.size,
      hsz, ?_⟩
    · simp only [Prod.swapping]; omega
    · simpa [State.inFree, State.inWork, State.total, State.pending, hp] using hflow
  | swapBuf d hp => exact hi.swapBuf hp
  | swapSize d hp => exact hi.swapSize hp
  | post d hp =>
    simp only [State.sizes, hp] at hsz
    obtain ⟨h1, h2, h3, h4, h5⟩ := hsz
    simp only [hp, Prod.swapping] at htok
    have hw : s.wri.writing = 0 := by omega
    have h0 : s.freeSem = 0 := by omega
    refine ⟨?_, hi.ne, hi.cont, rfl, hi.inLoop, hi.args, fun _ => h5,
      fun h => absurd h (not_zero_of_token h0 hw (by simp)), hi.size, ⟨h1, ?_, ?_⟩, ?_⟩
    · simp only [Prod.swapping]; omega
    · show s.workSize + _ < s.maxSize; omega
    · show s.workSize + _ < _; omega
    · simpa [State.inFree, State.inWork, State.total, hp, State.pending] using hflow
  | copy d hp => exact hi.copy hp
  | grow d hp =>
    simp only [State.sizes, hp] at hsz
    obtain ⟨h1, h2, h3⟩ := hsz
    have he : i32 (s.workSize + d.length) = s.workSize + d.length := i32_of_lt (by omega) h3
    simp only [hp, Prod.swapping] at htok
    refine ⟨by simpa only [State.grow, Prod.swapping] using htok, hi.ne, hi.cont, rfl, hi.inLoop,
      hi.args, hi.pos, hi.zero_of_prod (by simp [State.grow]), ?_, trivial, ?_⟩
    · simp only [State.grow, he]; omega
    · simpa [State.inFree, State.inWork, State.total, hp, State.pending, State.grow, he] using hflow
  | flushSome hp => rw [hp] at hiw; cases hiw
  | flushNone hp => rw [hp] at hiw; cases hiw
  | flushWrite b n hp => rw [hp] at hiw; cases hiw
  | flushClear hp => rw [hp] at hiw; cases hiw
  | unRun hp => rw [hp] at hiw; cases hiw
  | join hp => rw [hp] at hiw; cases hiw

theorem Inv.pass {s : State} (hi : Inv s) {w : Wri} (hw : w.writing = 0) (hs : s.wri.writing = 0)
    (hl : w.inLoop = true) : Inv { s with wri := w } where
  token := by rw [← hi.token]; simp only [hw, hs]
  ne := hi.ne
  cont := hi.cont
  inWrite := hi.inWrite
  inLoop := hl
  args := by rintro b n rfl; cases hw
  pos := by
    rintro (h | h)
    · exact hi.pos (Or.inl h)
    · rw [Wri.unwritten_of_writing hw] at h; cases h
  zero := by
    rintro (h | rfl | h)
    · exact hi.zero (Or.inl h)
    · cases hw
    · exact hi.zero (Or.inr (Or.inr h))
  size := hi.size
  sizes := hi.sizes
  flow := by
    simpa [State.inFree, State.inWork, State.total, State.pending, Wri.unwritten_of_writing hw,
      Wri.unwritten_of_writing hs] using hi.flow

theorem Inv.write {s : State} (hi : Inv s) {b : Buf} {n : ℤ} (hw : s.wri = .write b n) :
    Inv { s with stream := s.stream ++ bytes (s.mem b) n, wri := .clear } := by
  have htok := hi.token
  simp only [hw, Wri.writing] at htok
  obtain ⟨rfl, rfl⟩ := hi.args b n hw
  have h0 : s.workSem = 0 := by omega
  have hp : s.prod.swapping = 0 := by omega
  refine ⟨htok, hi.ne, hi.cont, hi.inWrite, rfl, nofun, ?_, hi.zero_of_wri nofun, hi.size,
    hi.sizes, ?_⟩
  · rintro (h | h)
    · exact absurd (show 0 < s.workSem from h) (by omega)
    · cases h
  · have hflow := hi.flow
    have hpe : s.pending = bytes (s.mem s.freeBuf) s.freeSize := by
      simp [State.pending, hw, Wri.unwritten]
    have hnil : { s with wri := .clear,
                         stream := s.stream ++ bytes (s.mem s.freeBuf) s.freeSize }.inFree = [] :=
      inFree_of_token hp h0 rfl
    rw [inFree_of_swapping hp, hpe] at hflow
    rw [hnil, List.append_nil]
    exact hflow

theorem Inv.clear {s : State} (hi : Inv s) (hw : s.wri = .clear) : Inv { s with freeSize := 0, wri := .post } := by
  have htok := hi.token
  simp only [hw, Wri.writing] at htok
  have h0 : s.workSem = 0 := by omega
  have hp : s.prod.swapping = 0 := by omega
  refine ⟨htok, hi.ne, hi.cont, hi.inWrite, rfl, nofun, ?_, fun _ => rfl, hi.size, ?_, ?_⟩
  · rintro (h | h)
    · exact absurd (show 0 < s.workSem from h) (by omega)
    · cases h
  · have hsz := hi.sizes
    simp only [State.sizes] at hsz ⊢
    cases hpr : s.prod <;> simp_all [Prod.swapping]
  · have hflow := hi.flow
    have hnil : { s with freeSize := 0, wri := .post }.inFree = [] :=
      inFree_of_token hp h0 rfl
    rw [inFree_of_token hp h0 (by rw [hw]; rfl)] at hflow
    rw [hnil]
    exact hflow

theorem Inv.stepWri {s s' : State} (hi : Inv s) (h : Step s .wri s') : Inv s' := by
  have hil := hi.inLoop
  have htok := hi.token
  cases h with
  | loop hw hc => exact hi.pass rfl (by rw [hw]; rfl) rfl
  | leave hw hc => rw [hi.cont] at hc; cases hc
  | wait hw hs =>
    simp only [hw, Wri.writing] at htok
    have hpos := hi.pos (Or.inl hs)
    refine ⟨?_, hi.ne, hi.cont, hi.inWrite, rfl, nofun, fun _ => hpos, ?_, hi.size, hi.sizes, ?_⟩
    · simp only [Wri.writing]; omega
    · rintro (h | h | h)
      · exact absurd (show 0 < s.freeSem from h) (by omega)
      · cases h
      · exact hi.zero (Or.inr (Or.inr h))
    · simpa [State.inFree, State.inWork, State.total, State.pending, Wri.unwritten, hs] using hi.flow
  | load hw =>
    simp only [hw, Wri.writing] at htok
    have hpos := hi.pos (Or.inr (by rw [hw]; rfl))
    refine ⟨htok, hi.ne, hi.cont, hi.inWrite, rfl, ?_, fun _ => hpos, hi.zero_of_wri nofun, hi.size,
      hi.sizes, ?_⟩
    · intro b n hb; cases hb; exact ⟨rfl, rfl⟩
    · simpa [State.inFree, State.inWork, State.total, State.pending, Wri.unwritten, hw] using hi.flow
  | write b n hw hn => exact hi.write hw
  | writeFail b n hw hn =>
    obtain ⟨rfl, rfl⟩ := hi.args b n hw
    exact absurd (hi.pos (Or.inr (by rw [hw]; rfl))) hn
  | clear hw => exact hi.clear hw
  | release hw =>
    simp only [hw, Wri.writing] at htok
    have hz := hi.zero (Or.inr (Or.inl hw))
    refine ⟨?_, hi.ne, hi.cont, hi.inWrite, rfl, nofun, ?_, fun _ => hz, hi.size, hi.sizes, ?_⟩
    · simp only [Wri.writing]; omega
    · rintro (h | h)
      · exact hi.pos (Or.inl h)
      · cases h
    · simpa [State.inFree, State.inWork, State.total, State.pending, Wri.unwritten, hw] using hi.flow
  | sleep hw => exact hi.pass rfl (by rw [hw]; rfl) rfl
  | finalSome hw => rw [hw] at hil; cases hil
  | finalNone hw => rw [hw] at hil; cases hil
  | finalWrite b n hw => rw [hw] at hil; cases hil
  | finalFail b n hw => rw [hw] at hil; cases hil
  | finalClear hw => rw [hw] at hil; cases hil

/-- **Every step keeps the invariant.** -/
theorem Inv.step {s s' : State} {a : Act} (hi : Inv s) (hw : Writes s a) (hf : Fits s a)
    (h : next s a = some s') : Inv s' := by
  have hst := step_of_next h
  cases a with
  | call op =>
    cases op with
    | write d =>
      cases hst with
      | call _ hp =>
        refine hi.move (by rw [hp]; rfl) rfl (by simp) ⟨hw.1, hw.2, hf⟩ ?_ ?_ ?_ <;>
          simp [State.inFree, State.inWork, State.total, State.pending, hp]
    | flush => cases hw
    | stop => cases hw
  | prod => exact hi.stepProd hst
  | wri => exact hi.stepWri hst
  | timeout =>
    cases hst with
    | timeout hp => exact hi.pass rfl (by rw [hp]; rfl) rfl

/-! ## The main result -/

/-- What the double buffer promises: with the producer outside `WriteToBuf`, the stream, the
swapped buffer if it is not yet written, and the work buffer are the data of the completed calls;
the producer does not copy into the buffer that the writer is writing, nor swap the buffers
meanwhile; `fwrite` is not called with size `0`, so that `Run` does not abort. -/
structure InOrder (s : State) : Prop where
  order : s.prod = .idle →
    s.stream ++ s.pending ++ bytes (s.mem s.workBuf) s.workSize = s.written
  apart : ∀ b n, s.wri = .write b n → (∀ d, s.prod = .copy d → b ≠ s.workBuf) ∧
    s.prod.swapping = 0
  size_pos : ∀ b n, s.wri = .write b n → 0 < n
  not_aborted : s.wri ≠ .aborted

theorem Inv.inOrder {s : State} (hi : Inv s) : InOrder s where
  order := by
    intro hp
    have hflow := hi.flow
    simpa [State.inFree, State.inWork, State.total, hp] using hflow
  apart := by
    intro b n hw
    have htok := hi.token
    simp only [hw, Wri.writing] at htok
    obtain ⟨rfl, -⟩ := hi.args b n hw
    exact ⟨fun _ _ => hi.ne.symm, by omega⟩
  size_pos := by
    intro b n hw
    obtain ⟨-, rfl⟩ := hi.args b n hw
    exact hi.pos (Or.inr (by rw [hw]; rfl))
  not_aborted := by
    intro hw
    have := hi.inLoop
    rw [hw] at this
    cases this

/-- **Every byte stays in order**, in every run in which `m_work_buf_size + len` fits in an
`int32_t` at each call of `WriteToBuf`. -/
theorem inOrder_of_reach (mem : Mem) (size : ℤ) {s : State}
    (h : ReachIf next (fun s a => Writes s a ∧ Fits s a) (State.init mem size) s) : InOrder s := by
  have hi : Inv s := ReachIf.inv h (inv_init mem size) fun _ _ _ hi ha hn => hi.step ha.1 ha.2 hn
  exact hi.inOrder

/-- Two writes into buffers of four bytes: the second swaps the buffers and the writer appends the
first one to the stream. -/
theorem inOrder_of_reach_two : ∃ s : State,
    ReachIf next (fun s a => Writes s a ∧ Fits s a) (State.init (fun _ _ => 0) 4) s ∧
    s.stream = [1, 2, 3] ∧ s.written = [1, 2, 3, 4, 5] ∧ s.prod = .idle ∧ InOrder s := by
  obtain ⟨s, hs, h1, h2, h3⟩ : ∃ s : State,
      ReachIf next (fun s a => Writes s a ∧ Fits s a) (State.init (fun _ _ => 0) 4) s ∧
      s.stream = [1, 2, 3] ∧ s.written = [1, 2, 3, 4, 5] ∧ s.prod = .idle :=
    ⟨_, ReachIf.of_run (ReachIf.refl _)
      (l := [.call (.write [1, 2, 3]), .prod, .prod, .prod, .wri, .timeout, .wri, .wri,
        .call (.write [4, 5]), .prod, .prod, .prod, .prod, .prod, .wri, .prod, .wri, .wri, .prod])
      (by decide) rfl, rfl, rfl, rfl⟩
  exact ⟨s, hs, h1, h2, h3, inOrder_of_reach (fun _ _ => 0) 4 hs⟩

/-! ## Overflow -/

/-- What a call of `WriteToBuf` that finds room leaves behind. -/
def State.appended (s : State) (d : List UInt8) : State := (s.copy d).grow d

theorem workSize_appended (s : State) (d : List UInt8) :
    (s.appended d).workSize = i32 (s.workSize + d.length) := rfl

theorem reach_appended {s₀ s : State} {d : List UInt8} (hr : ReachIf next Writes s₀ s)
    (hp : s.prod = .idle) (hd : 0 < d.length ∧ d.length < s.maxSize)
    (h : ¬ i32 (s.workSize + d.length) ≥ s.maxSize) : ReachIf next Writes s₀ (s.appended d) := by
  have h1 : next s (.call (.write d)) = some { s with prod := .test d } := by
    simp only [next, hp, State.call]
  have h2 : next { s with prod := .test d } .prod = some { s with prod := .copy d } := if_neg h
  have hcopy := (hr.tail (a := .call (.write d)) hd h1).tail (a := .prod) trivial h2
  exact (hcopy.tail (a := .prod) trivial rfl).tail (a := .prod) trivial rfl

/-- **Two writes of `2 ^ 30` bytes** into buffers of `2 ^ 31 - 1` bytes: the sum of the sizes is
`-2 ^ 31` as an `int32_t`, the swap does not happen and the work buffer is taken for empty. -/
theorem not_inOrder_of_overflow : ∃ s : State,
    ReachIf next Writes (State.init (fun _ _ => 0) (2 ^ 31 - 1)) s ∧ s.prod = .idle ∧
      s.workSize = -2 ^ 31 ∧ ¬ InOrder s := by
  obtain ⟨d, hd⟩ : ∃ d : List UInt8, (d.length : ℤ) = 2 ^ 30 :=
    ⟨.replicate (2 ^ 30) 0, by rw [List.length_replicate]; norm_num⟩
  have hlen : 0 < d.length ∧ (d.length : ℤ) < 2 ^ 31 - 1 := by omega
  have h1 : i32 (0 + d.length) = 2 ^ 30 := by rw [hd, i32_of_lt] <;> norm_num
  have h2 : i32 (2 ^ 30 + d.length) = -2 ^ 31 := by rw [hd, i32, Int.bmod_def]; norm_num
  obtain ⟨s, hs⟩ : ∃ s, s = (State.init (fun _ _ => 0) (2 ^ 31 - 1)).appended d := ⟨_, rfl⟩
  have e1 : s.workSize = 2 ^ 30 := by rw [hs, workSize_appended]; exact h1
  have e2 : s.maxSize = 2 ^ 31 - 1 := by rw [hs]; rfl
  have hr : ReachIf next Writes (State.init (fun _ _ => 0) (2 ^ 31 - 1)) s := by
    rw [hs]
    refine reach_appended (ReachIf.refl _) rfl hlen ?_
    show ¬ i32 (0 + d.length) ≥ 2 ^ 31 - 1
    rw [h1]
    norm_num
  have hr' := reach_appended (d := d) hr (by rw [hs]; rfl) (by rw [e2]; exact hlen)
    (by rw [e1, e2, h2]; norm_num)
  have e3 : (s.appended d).workSize = -2 ^ 31 := by rw [workSize_appended, e1, h2]
  have e4 : (s.appended d).written = d ++ d := by rw [hs]; rfl
  have e5 : (s.appended d).pending = [] := by rw [hs]; rfl
  have e6 : (s.appended d).stream = [] := by rw [hs]; rfl
  refine ⟨_, hr', rfl, e3, fun ho => ?_⟩
  have := congrArg List.length (ho.order rfl)
  rw [e3, e4, e5, e6] at this
  simp only [bytes, List.length_append, List.length_map, List.length_range, List.length_nil] at this
  omega

end Backend.WriteDisk
