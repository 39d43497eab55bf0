import Backend.Queue.Serial

/-!
# `SessionPool` over `CommonQueue` (`base/dsalgo/session_pool.cc`)

Any number of threads get and release the sessions of a pool, whose free sessions circulate through the
queue of `common_queue.cc`, with one step for each step of that queue. A session is a pointer: `some i`
is `&m_session_list[i]`, `none` is `NULL`.

* `SessionPool`, `pushAll`, `SessionPool.init`: the pool and its `Init`;
* `Act`, `next`: the threads inside `GetSession` and `ReleaseSession`; a thread releases only what it
  holds;
* `carried`, `Conserved`, **`Conserved.step`**: whatever weight is given to the sessions, the free, the
  held and the moving ones weigh together what `m_session_list` weighs;
* `Partition`, **`partition_of_reach`**: every session is at one place.
-/

set_option autoImplicit false
set_option linter.unusedSectionVars false

namespace Backend.Pool

open Function

variable {ι : Type} [Fintype ι] [DecidableEq ι]

/-- The number of elements of `m_session_list`, the queue of the pool with the threads in it, and the
sessions that each thread holds. -/
structure SessionPool (ι : Type) where
  sessionNum : ℕ
  queue : Queue.State ι (Option ℕ)
  held : ι → List (Option ℕ)

/-- Thread `t` pushes the sessions `l` one after the other, without waiting. -/
def pushAll (t : ι) (l : List ℕ) : List (ι × Queue.Act (Option ℕ)) :=
  l.flatMap fun i => (t, .call (.push .till (some i))) :: List.replicate 6 (t, .go)

/-- `Init(pool_size)`, by thread `t`, with what the queue's memory holds. -/
def SessionPool.init (t : ι) (data : ℕ → Option ℕ) (poolSize : ℤ) : Option (SessionPool ι) :=
  if 1 > poolSize then none else do
    let m ← doubleLoop i32 33 1 poolSize
    let q ← Queue.CommonQueue.init none (.new data) m.toNat
    let s ← run Queue.next (.ofQueue q) (pushAll t (List.range m.toNat))
    some { sessionNum := m.toNat, queue := s, held := fun _ => [] }

/-- `GetSize`. -/
def SessionPool.getSize (s : SessionPool ι) : ℤ := i32 (s.queue.size : ℤ)

/-- `GetNodeNum`. -/
def SessionPool.getNodeNum (s : SessionPool ι) : ℤ := i32 (u32 (s.queue.workSem : ℤ))

/-- What a thread can do: call `GetSession` with or without a place for the session, call
`ReleaseSession`, be interrupted in a wait, or go on. -/
inductive Act
  | get (out : Bool)
  | release (session : Option ℕ)
  | eintr
  | go

/-- What a thread holds after it went on from `c`: `GetSession` that returns `true` gives a session. -/
def heldAfter (l : List (Option ℕ)) : Queue.Pc (Option ℕ) → List (Option ℕ)
  | .popUnlock x true => x :: l
  | _ => l

/-- One step of thread `a.1`. A session that is passed to `ReleaseSession` is no longer held. -/
def next (s : SessionPool ι) (a : ι × Act) : Option (SessionPool ι) :=
  match a.2 with
  | .get out =>
    if out then (Queue.next s.queue (a.1, .call (.pop .till))).map fun q => { s with queue := q }
    else some s
  | .release none => some s
  | .release (some i) =>
    if some i ∈ s.held a.1 then
      (Queue.next s.queue (a.1, .call (.push .till (some i)))).map fun q =>
        { s with queue := q, held := update s.held a.1 ((s.held a.1).erase (some i)) }
    else none
  | .eintr => (Queue.next s.queue (a.1, .eintr)).map fun q => { s with queue := q }
  | .go => (Queue.next s.queue (a.1, .go)).map fun q =>
      { s with queue := q, held := update s.held a.1 (heldAfter (s.held a.1) (s.queue.pc a.1)) }

/-! ## Conservation -/

/-- The weight of the session that a thread carries into or out of the queue. -/
def carried (w : Option ℕ → ℕ) : Queue.Pc (Option ℕ) → ℕ
  | .pushWait _ x | .pushLock x | .pushEnter x | .pushWrite x | .popPost x | .popUnlock x _ => w x
  | _ => 0

/-- The weight of a list of sessions. -/
def weight (w : Option ℕ → ℕ) (l : List (Option ℕ)) : ℕ := (l.map w).sum

/-- **Conservation**: free, held and carried sessions weigh together what all sessions weigh. -/
def Conserved (w : Option ℕ → ℕ) (s : SessionPool ι) : Prop :=
  weight w (Queue.view s.queue).items + tally (weight w) s.held + tally (carried w) s.queue.pc =
    weight w ((List.range s.queue.size).map some)

theorem weight_append (w : Option ℕ → ℕ) (l l' : List (Option ℕ)) :
    weight w (l ++ l') = weight w l + weight w l' := by
  rw [weight, List.map_append, List.sum_append]
  rfl

theorem weight_cons (w : Option ℕ → ℕ) (x : Option ℕ) (l : List (Option ℕ)) :
    weight w (x :: l) = w x + weight w l := by
  rw [weight, List.map_cons, List.sum_cons]
  rfl

theorem weight_erase (w : Option ℕ → ℕ) {x : Option ℕ} {l : List (Option ℕ)} (h : x ∈ l) :
    weight w (l.erase x) + w x = weight w l := by
  have := ((List.perm_cons_erase h).map w).sum_eq
  rw [List.map_cons, List.sum_cons] at this
  rw [weight, weight, this, Nat.add_comm]

theorem Conserved.move {w : Option ℕ → ℕ} {s s' : SessionPool ι} (h : Conserved w s) {t : ι}
    {c : Queue.Pc (Option ℕ)} {l : List (Option ℕ)} (hpc : s'.queue.pc = update s.queue.pc t c)
    (hheld : s'.held = update s.held t l) (hsize : s'.queue.size = s.queue.size)
    (hw : weight w (Queue.view s'.queue).items + weight w l + carried w c =
      weight w (Queue.view s.queue).items + weight w (s.held t) + carried w (s.queue.pc t)) :
    Conserved w s' := by
  have h1 := tally_update (carried w) s.queue.pc t c
  have h2 := tally_update (weight w) s.held t l
  unfold Conserved at h ⊢
  rw [hpc, hheld, hsize]
  omega

theorem Conserved.quiet {w : Option ℕ → ℕ} {s : SessionPool ι} (h : Conserved w s) {t : ι}
    {c : Queue.Pc (Option ℕ)} {q : Queue.State ι (Option ℕ)} {l : List (Option ℕ)}
    (hpc : q.pc = update s.queue.pc t c) (hview : Queue.view q = Queue.view s.queue)
    (hl : l = s.held t) (hc : carried w c = carried w (s.queue.pc t)) :
    Conserved w { s with queue := q, held := update s.held t l } := by
  refine h.move hpc rfl (congrArg Fifo.cap hview) ?_
  rw [hview, hl, hc]

theorem Conserved.go {w : Option ℕ → ℕ} {s : SessionPool ι} (h : Conserved w s)
    (hi : Queue.Inv s.queue) {t : ι} {q : Queue.State ι (Option ℕ)}
    (hs : Queue.Step s.queue t .go q) :
    Conserved w { s with queue := q, held := update s.held t (heldAfter (s.held t) (s.queue.pc t)) } := by
  cases hs with
  | takeFree v x hp _ =>
    exact h.quiet rfl (Queue.view_of_same rfl rfl rfl) (by rw [hp]; rfl) (by rw [hp]; rfl)
  | lockW x hp _ =>
    exact h.quiet rfl (Queue.view_of_same rfl rfl rfl) (by rw [hp]; rfl) (by rw [hp]; rfl)
  | startWrite x hp =>
    exact h.quiet rfl (Queue.view_of_same rfl rfl rfl) (by rw [hp]; rfl) (by rw [hp]; rfl)
  | endWrite x hp =>
    refine h.move (c := .pushPost) rfl rfl rfl ?_
    rw [hi.items_endWrite t x, hp, weight_append, weight_cons]
    simp only [heldAfter, carried, weight, List.map_nil, List.sum_nil]
    omega
  | postWork hp =>
    rw [Queue.postWork_eq hi.tokens.workSem_lt]
    exact h.quiet rfl (Queue.view_of_same rfl rfl rfl) (by rw [hp]; rfl) (by rw [hp]; rfl)
  | unlockW r hp =>
    exact h.quiet rfl (Queue.view_of_same rfl rfl rfl) (by rw [hp]; rfl) (by rw [hp]; rfl)
  | takeWork v hp _ =>
    exact h.quiet rfl (Queue.view_of_same rfl rfl rfl) (by rw [hp]; rfl) (by rw [hp]; rfl)
  | lockR hp _ =>
    exact h.quiet rfl (Queue.view_of_same rfl rfl rfl) (by rw [hp]; rfl) (by rw [hp]; rfl)
  | startRead hp =>
    exact h.quiet rfl (Queue.view_of_same rfl rfl rfl) (by rw [hp]; rfl) (by rw [hp]; rfl)
  | endRead hp =>
    refine h.move (c := .popPost (s.queue.data s.queue.head)) rfl rfl rfl ?_
    rw [hi.items_endRead hp, hp, weight_cons]
    simp only [heldAfter, carried]
    omega
  | postFree x hp =>
    rw [Queue.postFree_eq hi.tokens.freeSem_lt]
    exact h.quiet rfl (Queue.view_of_same rfl rfl rfl) (by rw [hp]; rfl) (by rw [hp]; rfl)
  | unlockR x r hp =>
    -- the post of the thread has succeeded, so that `GetSession` returns `true`
    cases r with
    | false => exact absurd hp ((hi.posts t).2 x)
    | true =>
      refine h.move (c := .idle) rfl rfl rfl ?_
      change weight w (Queue.view s.queue).items + _ + _ = _
      rw [hp, heldAfter, weight_cons]
      simp only [carried]
      omega

theorem queue_step {s s' : SessionPool ι} {a : ι × Act} (hn : next s a = some s') :
    s' = s ∨ s'.sessionNum = s.sessionNum ∧ ∃ b, Queue.Step s.queue a.1 b s'.queue := by
  obtain ⟨t, a⟩ := a
  cases a with
  | get out =>
    cases out with
    | false => exact .inl (Option.some.inj hn).symm
    | true =>
      obtain ⟨q, hq, rfl⟩ := Option.map_eq_some_iff.mp hn
      exact .inr ⟨rfl, _, Queue.step_of_next hq⟩
  | release session =>
    cases session with
    | none => exact .inl (Option.some.inj hn).symm
    | some i =>
      obtain ⟨-, hn⟩ := Option.ite_none_right_eq_some.mp hn
      obtain ⟨q, hq, rfl⟩ := Option.map_eq_some_iff.mp hn
      exact .inr ⟨rfl, _, Queue.step_of_next hq⟩
  | eintr =>
    obtain ⟨q, hq, rfl⟩ := Option.map_eq_some_iff.mp hn
    exact .inr ⟨rfl, _, Queue.step_of_next hq⟩
  | go =>
    obtain ⟨q, hq, rfl⟩ := Option.map_eq_some_iff.mp hn
    exact .inr ⟨rfl, _, Queue.step_of_next hq⟩

/-- **Every step keeps the weight of the sessions.** -/
theorem Conserved.step {w : Option ℕ → ℕ} {s s' : SessionPool ι} (h : Conserved w s)
    (hi : Queue.Inv s.queue) {a : ι × Act} (hn : next s a = some s') : Conserved w s' := by
  obtain ⟨t, a⟩ := a
  cases a with
  | get out =>
    cases out with
    | false =>
      cases hn
      exact h
    | true =>
      obtain ⟨q, hq, rfl⟩ := Option.map_eq_some_iff.mp hn
      cases Queue.step_of_next hq with
      | call op hp =>
        have := h.quiet (t := t) (c := .popWait .till) (q := s.queue.goto t (.popWait .till)) rfl
          (Queue.view_of_same rfl rfl rfl) rfl (by rw [hp]; rfl)
        rwa [update_eq_self] at this
  | release session =>
    cases session with
    | none =>
      cases hn
      exact h
    | some i =>
      obtain ⟨hmem, hn⟩ := Option.ite_none_right_eq_some.mp hn
      obtain ⟨q, hq, rfl⟩ := Option.map_eq_some_iff.mp hn
      cases Queue.step_of_next hq with
      | call op hp =>
        refine h.move (c := .pushWait .till (some i)) rfl rfl rfl ?_
        have he : weight w ((s.held t).erase (some i)) + w (some i) = weight w (s.held t) :=
          weight_erase w hmem
        change weight w (Queue.view s.queue).items + _ + _ = _
        rw [hp]
        simp only [carried]
        omega
  | eintr =>
    obtain ⟨q, hq, rfl⟩ := Option.map_eq_some_iff.mp hn
    cases Queue.step_of_next hq <;> exact h
  | go =>
    obtain ⟨q, hq, rfl⟩ := Option.map_eq_some_iff.mp hn
    exact h.go hi (Queue.step_of_next hq)

/-! ## Every session is at one place -/

/-- The free sessions, the held ones and those in the middle of an operation are disjoint and together the
`GetSize()` elements of `m_session_list`. -/
structure Partition (s : SessionPool ι) : Prop where
  size : s.getSize = s.sessionNum
  /-- every element of `m_session_list` is at one place, and no other pointer is anywhere -/
  place : ∀ x : Option ℕ, (Queue.view s.queue).items.count x + ∑ t, (s.held t).count x +
    tally (carried fun y => if y = x then 1 else 0) s.queue.pc =
      if ∃ i, x = some i ∧ i < s.sessionNum then 1 else 0
  /-- no session is held twice -/
  once : ∀ x : Option ℕ, ∑ t, (s.held t).count x ≤ 1
  /-- `GetSession` returns pointers into `m_session_list` -/
  inList : ∀ t x, s.queue.pc t = .popUnlock x true → ∃ i, x = some i ∧ i < s.sessionNum
  /-- `ReleaseSession` does not wait for space -/
  noWait : ∀ t v x, s.queue.pc t = .pushWait v x → 0 < s.queue.freeSem
  /-- `GetNodeNum` when no operation is in progress -/
  nodeNum : (∀ t, s.queue.pc t = .idle) → s.getNodeNum = s.getSize - (∑ t, (s.held t).length : ℕ)

/-- The invariant. -/
structure Inv (s : SessionPool ι) : Prop where
  sessions : s.sessionNum = s.queue.size
  queue : Queue.Inv s.queue
  conserved : ∀ w, Conserved w s

theorem Inv.step {s s' : SessionPool ι} (h : Inv s) {a : ι × Act} (hn : next s a = some s') : Inv s' := by
  rcases queue_step hn with rfl | ⟨hnum, b, hb⟩
  · exact h
  · exact ⟨hnum.trans (h.sessions.trans hb.size_eq.symm), h.queue.step hb,
      fun w => (h.conserved w).step h.queue hn⟩

theorem weight_indicator (x : Option ℕ) (l : List (Option ℕ)) :
    weight (fun y => if y = x then 1 else 0) l = l.count x := by
  induction l with
  | nil => rfl
  | cons y l ih =>
    rw [weight_cons, ih, List.count_cons]
    by_cases hy : y = x
    · simp [hy, Nat.add_comm]
    · simp [hy]

theorem weight_one (l : List (Option ℕ)) : weight (fun _ => 1) l = l.length := by
  simp [weight]

theorem count_sessions (n : ℕ) (x : Option ℕ) : ((List.range n).map some).count x =
    if ∃ i, x = some i ∧ i < n then 1 else 0 := by
  have hn : ((List.range n).map some).Nodup := List.nodup_range.map (Option.some_injective ℕ)
  rw [hn.count]
  simp [List.mem_map, eq_comm, and_comm]

/-- Waits for a token of `m_free_sem`. -/
def waitsFree : Queue.Pc (Option ℕ) → ℕ
  | .pushWait _ _ => 1
  | _ => 0

theorem tokens_le_carried (c : Queue.Pc (Option ℕ)) :
    Queue.holdFree c + Queue.owesFree c + waitsFree c ≤ carried (fun _ => 1) c := by
  cases c <;> simp [Queue.holdFree, Queue.owesFree, waitsFree, carried]

theorem Inv.getSize {s : SessionPool ι} (h : Inv s) : s.getSize = s.queue.size := by
  have := h.queue.tokens.size_le
  exact i32_of_lt (by omega) (by omega)

/-- **The invariant gives the partition.** -/
theorem Inv.partition {s : SessionPool ι} (h : Inv s) : Partition s := by
  have hplace : ∀ x : Option ℕ, (Queue.view s.queue).items.count x + ∑ t, (s.held t).count x +
      tally (carried fun y => if y = x then 1 else 0) s.queue.pc =
        if ∃ i, x = some i ∧ i < s.queue.size then 1 else 0 := by
    intro x
    have hc := h.conserved fun y => if y = x then 1 else 0
    simp only [Conserved, weight_indicator, count_sessions] at hc
    rw [← hc]
    simp only [tally, weight_indicator]
  have htotal := h.conserved fun _ => 1
  simp only [Conserved, weight_one, List.length_map, List.length_range] at htotal
  have hle := h.queue.tokens.le
  have hlen : (Queue.view s.queue).items.length = s.queue.accepted.length - s.queue.returned.length :=
    List.length_drop
  constructor
  case size => rw [h.getSize, h.sessions]
  case place =>
    intro x
    rw [hplace x, h.sessions]
  case once =>
    intro x
    have := hplace x
    split at this <;> omega
  case inList =>
    intro t x hp
    have hcarried := le_tally (carried fun y => if y = x then 1 else 0) s.queue.pc t
    simp only [hp, carried, if_true] at hcarried
    have hx := hplace x
    rw [h.sessions]
    by_contra hno
    rw [if_neg hno] at hx
    omega
  case noWait =>
    intro t v x hp
    have hfree := h.queue.tokens.free
    have hcarried := tally_mono tokens_le_carried s.queue.pc
    rw [tally_add, tally_add] at hcarried
    have hwaits := le_tally waitsFree s.queue.pc t
    rw [hp] at hwaits
    simp only [waitsFree] at hwaits
    omega
  case nodeNum =>
    intro hidle
    have hzero : ∀ f : Queue.Pc (Option ℕ) → ℕ, f .idle = 0 → tally f s.queue.pc = 0 := fun f hf =>
      tally_eq_zero fun t => by rw [hidle t, hf]
    have hwork := h.queue.tokens.work
    rw [hzero Queue.holdWork rfl, hzero Queue.owesWork rfl] at hwork
    rw [hzero (carried fun _ => 1) rfl] at htotal
    have hsize := h.queue.tokens.size_le
    rw [h.getSize, SessionPool.getNodeNum, u32_of_lt (by omega) (by omega), i32_of_lt (by omega) (by omega)]
    simp only [tally, weight_one] at htotal
    omega

/-! ## `Init` -/

/-- No thread is in the queue, which holds `l`. -/
structure Quiet (s : Queue.State ι (Option ℕ)) (l : List (Option ℕ)) : Prop where
  inv : Queue.Inv s
  pc : s.pc = fun _ => .idle
  wLocked : s.wLocked = false
  accepted : s.accepted = l
  returned : s.returned = []

theorem Quiet.push {s : Queue.State ι (Option ℕ)} {l : List (Option ℕ)} (h : Quiet s l)
    (hl : l.length < s.size) (t : ι) (i : ℕ) :
    ∃ s', run Queue.next s ((t, .call (.push .till (some i))) :: List.replicate 6 (t, .go)) = some s' ∧
      s'.size = s.size ∧ Quiet s' (l ++ [some i]) := by
  have hz : ∀ w : Queue.Pc (Option ℕ) → ℕ, w .idle = 0 → tally w s.pc = 0 := fun w hw =>
    tally_eq_zero fun u => by rw [h.pc, hw]
  have hfree := h.inv.tokens.free
  rw [h.accepted, h.returned, hz Queue.holdFree rfl, hz Queue.owesFree rfl, List.length_nil] at hfree
  have hrun := Queue.run_push_eq (congrFun h.pc t) h.wLocked (show s.freeSem ≠ 0 by omega)
    h.inv.tokens.workSem_lt .till (some i)
  refine ⟨_, hrun, rfl, Queue.inv_of_reach h.inv (Reach.of_run hrun), h.pc, h.wLocked, ?_, h.returned⟩
  rw [← h.accepted]

theorem Quiet.pushAll {s : Queue.State ι (Option ℕ)} (h : Quiet s []) (t : ι) {n : ℕ} (hn : n ≤ s.size) :
    ∃ s', run Queue.next s (pushAll t (List.range n)) = some s' ∧ s'.size = s.size ∧
      Quiet s' ((List.range n).map some) := by
  induction n with
  | zero => exact ⟨s, rfl, rfl, h⟩
  | succ n ih =>
    obtain ⟨s₁, h₁, hsize, hq⟩ := ih (by omega)
    obtain ⟨s₂, h₂, hsize', hq'⟩ := hq.push (by rw [List.length_map, List.length_range]; omega) t n
    refine ⟨s₂, ?_, hsize'.trans hsize, ?_⟩
    · rw [List.range_succ, Pool.pushAll, List.flatMap_append, run_append, ← Pool.pushAll, h₁,
        Option.bind_some, List.flatMap_singleton]
      exact h₂
    · rw [List.range_succ, List.map_append]
      exact hq'

theorem init_inv (t : ι) (data : ℕ → Option ℕ) {n : ℤ} (h1 : 1 ≤ n) (h2 : n ≤ 2 ^ 30) :
    ∃ s k, SessionPool.init t data n = some s ∧ s.queue.size = 2 ^ k ∧ n ≤ 2 ^ k ∧ (k = 0 ∨ 2 ^ (k - 1) < n) ∧ Inv s := by
  obtain ⟨k, hk, hm, hle, hlt⟩ := doubleLoop_spec (fun x h0 h => i32_of_lt (by omega) h) h2
  have ht : ((2 : ℤ) ^ k).toNat = 2 ^ k := by norm_cast
  have hpow : (2 : ℕ) ^ k ≤ 2 ^ 30 := Nat.pow_le_pow_right (by norm_num) hk
  obtain ⟨j, hj, hkj, hjk, hq⟩ := Queue.init_spec none data hpow
  -- a power of two is not rounded
  have hjk : k = j := by
    refine pow_unique (le_refl ((2 : ℤ) ^ k)) ?_ (by exact_mod_cast hkj) (by exact_mod_cast hjk)
    rcases Nat.eq_zero_or_pos k with h | h
    · exact .inl h
    · exact .inr (pow_lt_pow_right₀ (by norm_num) (by omega))
  subst hjk
  have hquiet : Quiet (.ofQueue ⟨fun _ => none, 0, 0, 2 ^ k, 0, 2 ^ k⟩ : Queue.State ι (Option ℕ)) [] :=
    ⟨Queue.inv_init hk, rfl, rfl, rfl, rfl⟩
  obtain ⟨s, hs, hsize, hs'⟩ := hquiet.pushAll t (le_refl (2 ^ k))
  have hsize' : s.size = 2 ^ k := hsize
  refine ⟨⟨2 ^ k, s, fun _ => []⟩, k, ?_, hsize', hle, hlt, hsize'.symm, hs'.inv, fun w => ?_⟩
  · rw [SessionPool.init, if_neg (by omega), hm]
    simp only [Option.bind_eq_bind, Option.bind_some, ht, hq, hs]
  · have hzero : tally (carried w) s.pc = 0 := tally_eq_zero fun u => by rw [hs'.pc]; rfl
    have hheld : tally (weight w) (fun _ : ι => ([] : List (Option ℕ))) = 0 := tally_eq_zero fun _ => rfl
    simp only [Conserved, Queue.view, hs'.accepted, hs'.returned, List.length_nil, List.drop_zero, hzero,
      hheld, hsize', Nat.add_zero]

/-- **Every session is at one place** in every state that any number of threads reach, when each releases
what it holds, once for each time it got it. -/
theorem partition_of_reach (t : ι) (data : ℕ → Option ℕ) {n : ℤ} (h1 : 1 ≤ n) (h2 : n ≤ 2 ^ 30) :
    ∃ s₀, SessionPool.init t data n = some s₀ ∧ n ≤ s₀.getSize ∧
      ∀ s, Reach next s₀ s → Partition s := by
  obtain ⟨s₀, k, h₀, hk, hn, -, hi⟩ := init_inv t data h1 h2
  refine ⟨s₀, h₀, by rw [hi.getSize, hk]; exact_mod_cast hn, fun s hs => ?_⟩
  exact (Reach.inv hs hi fun _ _ _ h hn => h.step hn).partition

/-- Thread `t` gets a session without interruption. -/
def getting (t : ι) : List (ι × Act) := (t, .get true) :: List.replicate 6 (t, .go)

/-- Two threads get a session each, and one releases it. -/
theorem partition_of_reach_two : ∃ s₀, SessionPool.init (0 : Fin 2) (fun _ => none) 2 = some s₀ ∧
    ∃ s : SessionPool (Fin 2), Reach next s₀ s ∧ s.held 0 = [] ∧ s.held 1 = [some 1] ∧ s.getNodeNum = 1 ∧
      Partition s := by
  have hr : ((SessionPool.init (0 : Fin 2) (fun _ => none) 2).bind fun s =>
      (run next s (getting 0 ++ getting 1 ++ (0, .release (some 0)) :: List.replicate 6 (0, .go))).map
        fun s => (s.held 0, s.held 1, s.getNodeNum)) = some ([], [some 1], 1) := by decide +kernel
  obtain ⟨s₀, h₀, -, hall⟩ := partition_of_reach (0 : Fin 2) (fun _ => none) (n := 2) (by decide) (by decide)
  rw [h₀, Option.bind_some] at hr
  obtain ⟨s, hs, hv⟩ := Reach.of_run_map hr
  simp only [Prod.mk.injEq] at hv
  exact ⟨s₀, h₀, s, hs, hv.1, hv.2.1, hv.2.2, hall s hs⟩

end Backend.Pool
