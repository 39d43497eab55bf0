import Backend.Foxea.Handler
import Backend.Lib.Tally
import Mathlib.Data.List.Perm.Subperm

/-!
# `Handler`: sessions are conserved and requests are handled once

A session of the pool is free, held by a caller of `Process`, queued, or held by `Run`, and never at
two of these places. Queue and pool have as many slots as there are sessions, so that no push finds
them full.

* `places`, `Places`, `Places.step`: where a session is;
* `Args`, `Filled`, `Records`: what a filled session contains;
* `Served`: pushed calls, handled requests and posts;
* `Inv`, `Inv.step`: the invariant;
* **`pipeline_of_reach`**: conservation and exactly-once handling in every reachable state, and a
  complete shutdown.
-/

set_option autoImplicit false
set_option linter.unusedSectionVars false

namespace Backend.Foxea.Handler

open Function

variable {ι E Q : Type} [Fintype ι] [DecidableEq ι] [DecidableEq E]

/-! ## Where a session is -/

/-- Session `i` is being filled by a caller at this point. -/
def Proc.holds (i : ℕ) : Proc E → ℕ
  | .fill _ j | .push j | .failed j => if j = i then 1 else 0
  | _ => 0

/-- Session `i` is being handled by `Run` at this point. -/
def Run.holds (i : ℕ) : Run → ℕ
  | .handle j | .notify j | .release j => if j = i then 1 else 0
  | _ => 0

/-- The number of places where session `i` is. -/
def places (s : State ι E Q) (i : ℕ) : ℕ :=
  s.pool.items.count i + s.queue.items.count i + tally (Proc.holds i) s.proc + s.run.holds i

/-- **Every session is at one place.** -/
structure Places (s : State ι E Q) : Prop where
  cap : s.queue.cap = s.pool.cap
  one : ∀ i, places s i = if i < s.pool.cap then 1 else 0

theorem Places.le_one {s : State ι E Q} (h : Places s) (i : ℕ) : places s i ≤ 1 := by
  rw [h.one]
  split <;> omega

theorem places_move {s s' : State ι E Q} {t : ι} {c : Proc E} {i : ℕ}
    (hp : s'.proc = update s.proc t c)
    (hb : s'.pool.items.count i + s'.queue.items.count i + c.holds i + s'.run.holds i =
      s.pool.items.count i + s.queue.items.count i + (s.proc t).holds i + s.run.holds i) :
    places s' i = places s i := by
  have := tally_update (Proc.holds i) s.proc t c
  unfold places
  rw [hp]
  omega

theorem count_push {q q' : Fifo ℕ} {j : ℕ} (h : q.push j = some q') (i : ℕ) :
    q'.items.count i = q.items.count i + (if j = i then 1 else 0) := by
  obtain ⟨-, rfl⟩ := Fifo.push_eq_some.mp h
  simp [List.count_append, List.count_singleton]

theorem count_pop {q q' : Fifo ℕ} {j : ℕ} (h : q.pop = some (j, q')) (i : ℕ) :
    q.items.count i = q'.items.count i + (if j = i then 1 else 0) := by
  obtain ⟨hi, -⟩ := Fifo.pop_eq_some.mp h
  simp [hi, List.count_cons]

theorem cap_push {q q' : Fifo ℕ} {j : ℕ} (h : q.push j = some q') : q'.cap = q.cap := by
  obtain ⟨-, rfl⟩ := Fifo.push_eq_some.mp h
  rfl

theorem cap_pop {q q' : Fifo ℕ} {j : ℕ} (h : q.pop = some (j, q')) : q'.cap = q.cap :=
  (Fifo.pop_eq_some.mp h).2

theorem Places.step {s s' : State ι E Q} {a : Act ι E Q} (h : Places s) (hs : Step s a s') :
    Places s' := by
  have keep : ∀ {s' : State ι E Q}, s'.queue.cap = s.queue.cap → s'.pool.cap = s.pool.cap →
      (∀ i, places s' i = places s i) → Places s' := fun h1 h2 h3 =>
    ⟨by rw [h1, h2, h.cap], fun i => by rw [h3, h2, h.one]⟩
  cases hs with
  | call t arg hp => exact keep rfl rfl fun i => places_move rfl (by simp [hp, Proc.holds])
  | get t arg j p hp hj =>
    refine keep rfl (cap_pop hj) fun i => places_move rfl ?_
    have := count_pop hj i
    simp only [hp, Proc.holds]
    omega
  | fill t arg j hp => exact keep rfl rfl fun i => places_move rfl (by simp [State.fill, hp, Proc.holds])
  | push t j q hp hq =>
    refine keep (cap_push hq) rfl fun i => places_move rfl ?_
    have := count_push hq i
    simp only [hp, Proc.holds]
    omega
  | failed t j p hp hq =>
    refine keep rfl (cap_push hq) fun i => places_move rfl ?_
    have := count_push hq i
    simp only [hp, Proc.holds]
    omega
  | abort t arg hp => exact keep rfl rfl fun i => places_move rfl (by simp [hp, Proc.holds])
  | fail t j hp => exact keep rfl rfl fun i => places_move rfl (by simp [hp, Proc.holds])
  | loop hp => exact keep rfl rfl fun i => by rcases hp with hp | hp <;> simp [places, hp, Run.holds]
  | count hp _ => exact keep rfl rfl fun i => by simp [places, hp, Run.holds]
  | leave hp _ => exact keep rfl rfl fun i => by simp [places, hp, Run.holds]
  | pop j q hp hq =>
    refine keep (cap_pop hq) rfl fun i => ?_
    have := count_pop hq i
    simp only [places, hp, Run.holds]
    omega
  | timeout hp => exact keep rfl rfl fun i => by simp [places, hp, Run.holds]
  | handle j hp => exact keep rfl rfl fun i => by simp [places, hp, Run.holds]
  | notify j hp => exact keep rfl rfl fun i => by simp [places, hp, Run.holds]
  | release j p hp hq =>
    refine keep rfl (cap_push hq) fun i => ?_
    have := count_push hq i
    simp only [places, hp, Run.holds]
    omega
  | unRun => exact keep rfl rfl fun i => rfl
  | setReq e q => exact keep rfl rfl fun i => rfl

theorem length_lt_of_places {n i : ℕ} {l : List ℕ}
    (h : ∀ j, (i :: l).count j ≤ if j < n then 1 else 0) : l.length < n := by
  have hnd : (i :: l).Nodup := List.nodup_iff_count_le_one.mpr fun j =>
    (h j).trans (by split <;> omega)
  have hsub : i :: l ⊆ List.range n := by
    intro j hj
    have h1 := List.count_pos_iff.mpr hj
    have h2 := h j
    rw [List.mem_range]
    by_contra hn
    rw [if_neg hn] at h2
    omega
  have := (hnd.subperm hsub).length_le
  simp only [List.length_cons, List.length_range] at this
  omega

theorem Places.room {s : State ι E Q} (h : Places s) {t : ι} {i : ℕ} (ht : (s.proc t).holds i = 1) :
    s.queue.items.length < s.queue.cap ∧ s.pool.items.length < s.pool.cap := by
  have hle := fun j => le_tally (Proc.holds j) s.proc t
  have hj : ∀ j, (if i = j then 1 else 0) ≤ tally (Proc.holds j) s.proc := by
    intro j
    split
    case isTrue he => subst he; exact ht ▸ hle i
    case isFalse => exact Nat.zero_le _
  constructor
  · rw [h.cap]
    refine length_lt_of_places (i := i) fun j => ?_
    have h1 := h.one j
    have h2 := hj j
    simp only [places] at h1
    simp only [List.count_cons, beq_iff_eq]
    omega
  · refine length_lt_of_places (i := i) fun j => ?_
    have h1 := h.one j
    have h2 := hj j
    simp only [places] at h1
    simp only [List.count_cons, beq_iff_eq]
    omega

theorem Places.room_run {s : State ι E Q} (h : Places s) {i : ℕ} (hr : s.run = .release i) :
    s.pool.items.length < s.pool.cap := by
  refine length_lt_of_places (i := i) fun j => ?_
  have h1 := h.one j
  simp only [places, hr, Run.holds] at h1
  simp only [List.count_cons, beq_iff_eq]
  omega

theorem Places.alone {s : State ι E Q} (h : Places s) {t : ι} {i : ℕ} (ht : (s.proc t).holds i = 1) :
    i ∉ s.queue.items ∧ s.run.holds i = 0 ∧ ∀ u, u ≠ t → (s.proc u).holds i = 0 := by
  have h1 := h.le_one i
  have h2 := le_tally (Proc.holds i) s.proc t
  unfold places at h1
  refine ⟨List.count_eq_zero.mp (by omega), by omega, fun u hu => ?_⟩
  exact weight_eq_zero_of_ne (t := t) (by omega) ht.ge hu

/-! ## What a filled session contains -/

/-- The local variable `req` of a call of `Process` is its argument. -/
def Args (s : State ι E Q) : Prop :=
  ∀ t a, (s.proc t = .get a ∨ ∃ i, s.proc t = .fill a i) → s.arg t = a

theorem Args.move {s s' : State ι E Q} (h : Args s) {t : ι} {c : Proc E} (hp : s'.proc = update s.proc t c)
    (ha : s'.arg = s.arg)
    (hc : ∀ a, (c = .get a ∨ ∃ i, c = .fill a i) → s.proc t = .get a ∨ ∃ i, s.proc t = .fill a i) : Args s' := by
  intro u a hu
  rw [ha]
  apply h u a
  rw [hp] at hu
  rcases eq_or_ne u t with rfl | hne
  · rw [update_self] at hu
    exact hc a hu
  · rwa [update_of_ne hne] at hu

theorem Args.step {s s' : State ι E Q} {a : Act ι E Q} (h : Args s) (hs : Step s a s') : Args s' := by
  cases hs with
  | call t arg hp =>
    intro u b hu
    rcases eq_or_ne u t with rfl | hne
    · simpa using hu
    · simp only [update_of_ne hne] at hu ⊢
      exact h u b hu
  | get t arg j p hp hj => exact h.move rfl rfl (by simp [hp])
  | fill t arg j hp => exact h.move rfl rfl (by simp)
  | push t j q hp hq => exact h.move rfl rfl (by simp)
  | failed t j p hp hq => exact h.move rfl rfl (by simp)
  | abort t arg hp => exact h.move rfl rfl (by simp)
  | fail t j hp => exact h.move rfl rfl (by simp)
  | loop | count | leave | pop | timeout | handle | notify | release | unRun | setReq => exact h

/-- Session `i` is filled: pushed or about to be pushed, queued, or before its notification. -/
def Filled (s : State ι E Q) (i : ℕ) : Prop :=
  i ∈ s.queue.items ∨ (∃ t, s.proc t = .push i) ∨ s.run = .handle i ∨ s.run = .notify i

/-- A filled session contains the request of its call and points to the semaphore of the session
that was passed to `Process`. -/
def Records (s : State ι E Q) : Prop :=
  ∀ i, Filled s i → (s.session (.pool i)).req = (s.owner i).req ∧
    (s.session (.pool i)).sem = (s.owner i).arg

theorem Records.frame {s s' : State ι E Q} (h : Records s)
    (h1 : ∀ i, s'.session (.pool i) = s.session (.pool i)) (h2 : s'.owner = s.owner)
    (h3 : ∀ i, Filled s' i → Filled s i) : Records s' := by
  intro i hi
  rw [h1, h2]
  exact h i (h3 i hi)

theorem filled_of_proc {s : State ι E Q} {t : ι} {c : Proc E} (hc : ∀ i, c ≠ .push i) {i : ℕ}
    (h : ∃ u, update s.proc t c u = .push i) : ∃ u, s.proc u = .push i := by
  obtain ⟨u, hu⟩ := h
  by_cases he : u = t
  · subst he
    rw [update_self] at hu
    exact absurd hu (hc i)
  · exact ⟨u, by rwa [update_of_ne he] at hu⟩

theorem Records.proc {s : State ι E Q} (h : Records s) (t : ι) {c : Proc E} (hc : ∀ i, c ≠ .push i)
    (p : Fifo ℕ) : Records { s with pool := p, proc := update s.proc t c } :=
  h.frame (fun _ => rfl) rfl fun _ => Or.imp_right (Or.imp_left (filled_of_proc hc))

theorem Records.run {s : State ι E Q} (h : Records s) {r : Run}
    (hr : ∀ i, r ≠ .handle i ∧ r ≠ .notify i) (p : Fifo ℕ) (l : List (Event ι E Q)) :
    Records { s with pool := p, run := r, events := l } := by
  refine h.frame (fun _ => rfl) rfl fun i => Or.imp_right (Or.imp_right ?_)
  rintro (hi | hi)
  · exact absurd hi (hr i).1
  · exact absurd hi (hr i).2

theorem Records.step {s s' : State ι E Q} {a : Act ι E Q} (h : Records s) (hA : Args s) (hs : Step s a s') :
    Records s' := by
  cases hs with
  | call t arg hp =>
    exact h.frame (fun _ => rfl) rfl fun _ => Or.imp_right (Or.imp_left (filled_of_proc (by simp)))
  | get t arg j p hp hj => exact h.proc t (by simp) p
  | fill t arg j hp =>
    intro i hi
    by_cases he : i = j
    · subst he
      simp [State.fill, hA t arg (.inr ⟨_, hp⟩)]
    · have hne : Addr.pool i ≠ (Addr.pool j : Addr E) := by simpa using he
      simp only [State.fill, update_of_ne hne, update_of_ne he]
      refine h i (Or.imp_right (Or.imp_left ?_) hi)
      rintro ⟨u, hu⟩
      by_cases hut : u = t
      · subst hut
        simp only [State.fill, update_self, Proc.push.injEq] at hu
        exact absurd hu.symm he
      · exact ⟨u, by simpa [State.fill, hut] using hu⟩
  | push t j q hp hq =>
    refine h.frame (fun _ => rfl) rfl fun i hi => ?_
    obtain ⟨-, rfl⟩ := Fifo.push_eq_some.mp hq
    rcases hi with hi | hi | hi
    · rcases List.mem_append.mp hi with hi | hi
      · exact Or.inl hi
      · exact Or.inr (Or.inl ⟨t, by rw [hp, List.mem_singleton.mp hi]⟩)
    · exact Or.inr (Or.inl (filled_of_proc (by simp) hi))
    · exact Or.inr (Or.inr hi)
  | failed t j p hp hq => exact h.proc t (by simp) p
  | abort t arg hp => exact h.proc t (by simp) _
  | fail t j hp => exact h.proc t (by simp) _
  | pop j q hp hq =>
    refine h.frame (fun _ => rfl) rfl fun i hi => ?_
    obtain ⟨hitems, -⟩ := Fifo.pop_eq_some.mp hq
    rcases hi with hi | hi | hi | hi
    · exact Or.inl (hitems ▸ List.mem_cons_of_mem _ hi)
    · exact Or.inr (Or.inl hi)
    · cases hi; exact Or.inl (hitems ▸ List.mem_cons_self)
    · cases hi
  | handle j hp =>
    refine h.frame (fun _ => rfl) rfl fun i => Or.imp_right (Or.imp_right ?_)
    rintro (hi | hi) <;> cases hi
    exact Or.inl hp
  | loop hp => exact h.run (by simp) _ _
  | count hp _ => exact h.run (by simp) _ _
  | leave hp _ => exact h.run (by simp) _ _
  | timeout hp => exact h.run (by simp) _ _
  | notify j hp => exact h.run (by simp) _ _
  | release j p hp hq => exact h.run (by simp) p _
  | unRun => exact h
  | setReq e q =>
    refine h.frame (fun i => ?_) rfl fun i hi => hi
    simp only [update_of_ne (show Addr.pool i ≠ Addr.ext e by simp)]

/-! ## Pushed calls and events -/

/-- The call without its contents. -/
def Call.id (c : Call ι E Q) : ι × ℕ := (c.proc, c.number)

/-- What `Run` does for a call: `Handle` on its request, then the post on its semaphore. -/
def served (c : Call ι E Q) : List (Event ι E Q) := [.handle c c.req, .post c.arg]

/-- The call that `Run` has popped and not yet notified, and what it has done for it. -/
def current (s : State ι E Q) : List (Call ι E Q) × List (Event ι E Q) :=
  match s.run with
  | .handle i => ([s.owner i], [])
  | .notify i => ([s.owner i], [.handle (s.owner i) (s.owner i).req])
  | _ => ([], [])

/-- The pushed calls are the served ones, the current one and the queued ones, in this order. -/
def Served (s : State ι E Q) : Prop :=
  ∃ done, s.pushed = done ++ (current s).1 ++ s.queue.items.map s.owner ∧
    s.events = done.flatMap served ++ (current s).2

/-- Calls are numbered, and a session that is about to be pushed has a new call. -/
structure Numbers (s : State ι E Q) : Prop where
  lt : ∀ c ∈ s.pushed, c.number < s.calls c.proc
  nodup : (s.pushed.map Call.id).Nodup
  fresh : ∀ t i, s.proc t = .push i → (s.owner i).proc = t ∧ (s.owner i).number < s.calls t ∧
    ∀ c ∈ s.pushed, c.proc = t → c.number < (s.owner i).number

theorem Numbers.frame {s s' : State ι E Q} (h : Numbers s) (h1 : s'.pushed = s.pushed)
    (h2 : s'.calls = s.calls) (h3 : s'.owner = s.owner)
    (h4 : ∀ t i, s'.proc t = .push i → s.proc t = .push i) : Numbers s' := by
  refine ⟨?_, ?_, fun t i hp => ?_⟩
  · rw [h1, h2]; exact h.lt
  · rw [h1]; exact h.nodup
  · rw [h1, h2, h3]; exact h.fresh t i (h4 t i hp)

theorem push_of_update {s : State ι E Q} {t u : ι} {c : Proc E} (hc : ∀ i, c ≠ .push i) {i : ℕ}
    (h : update s.proc t c u = .push i) : s.proc u = .push i := by
  by_cases he : u = t
  · subst he
    rw [update_self] at h
    exact absurd h (hc i)
  · rwa [update_of_ne he] at h

theorem Numbers.step {s s' : State ι E Q} {a : Act ι E Q} (h : Numbers s) (hP : Places s)
    (hs : Step s a s') : Numbers s' := by
  cases hs with
  | call t arg hp => exact h.frame rfl rfl rfl fun u i => push_of_update (by simp)
  | get t arg j p hp hj => exact h.frame rfl rfl rfl fun u i => push_of_update (by simp)
  | fill t arg j hp =>
    have hal := hP.alone (t := t) (i := j) (by rw [hp]; exact if_pos rfl)
    refine ⟨fun c hc => ?_, h.nodup, fun u i hu => ?_⟩
    · have hlt := h.lt c hc
      by_cases he : c.proc = t
      · simp only [State.fill, he, update_self]
        rw [he] at hlt
        omega
      · simpa only [State.fill, update_of_ne he] using hlt
    · by_cases he : u = t
      · subst he
        simp only [State.fill, update_self, Proc.push.injEq] at hu
        subst hu
        simp only [State.fill, update_self]
        exact ⟨trivial, Nat.lt_succ_self _, fun c hc hcp => hcp ▸ h.lt c hc⟩
      · simp only [State.fill, update_of_ne he] at hu
        have hij : i ≠ j := by
          rintro rfl
          have := hal.2.2 u he
          rw [hu] at this
          simp [Proc.holds] at this
        simp only [State.fill, update_of_ne hij, update_of_ne he]
        exact h.fresh u i hu
  | push t j q hp hq =>
    obtain ⟨h1, h2, h3⟩ := h.fresh t j hp
    refine ⟨fun c hc => ?_, ?_, fun u i hu => ?_⟩
    · rcases List.mem_append.mp hc with hc | hc
      · exact h.lt c hc
      · rw [List.mem_singleton.mp hc, h1]; exact h2
    · rw [List.map_append, List.map_singleton, ← List.concat_eq_append]
      refine List.Nodup.concat (fun hid => ?_) h.nodup
      obtain ⟨c, hc, hce⟩ := List.mem_map.mp hid
      obtain ⟨e1, e2⟩ := Prod.mk.inj hce
      have := h3 c hc (e1.trans h1)
      omega
    · have hne : u ≠ t := by
        rintro rfl
        simp at hu
      obtain ⟨f1, f2, f3⟩ := h.fresh u i (by simpa [hne] using hu)
      refine ⟨f1, f2, fun c hc hcp => ?_⟩
      rcases List.mem_append.mp hc with hc | hc
      · exact f3 c hc hcp
      · rw [List.mem_singleton.mp hc, h1] at hcp
        exact absurd hcp.symm hne
  | failed t j p hp hq => exact h.frame rfl rfl rfl fun u i => push_of_update (by simp)
  | abort t arg hp => exact h.frame rfl rfl rfl fun u i => push_of_update (by simp)
  | fail t j hp => exact h.frame rfl rfl rfl fun u i => push_of_update (by simp)
  | _ => exact h.frame rfl rfl rfl fun u i hu => hu

theorem current_eq {s : State ι E Q} (h : ∀ i, s.run ≠ .handle i ∧ s.run ≠ .notify i) :
    current s = ([], []) := by
  unfold current
  split
  · exact absurd ‹_› (h _).1
  · exact absurd ‹_› (h _).2
  · rfl

theorem Served.step {s s' : State ι E Q} {a : Act ι E Q} (h : Served s) (hP : Places s)
    (hR : Records s) (hs : Step s a s') : Served s' := by
  obtain ⟨done, hpushed, hevents⟩ := h
  -- the current call is not touched by the callers
  have keep : ∀ {s' : State ι E Q}, s'.pushed = s.pushed → s'.events = s.events →
      current s' = current s → s'.queue.items.map s'.owner = s.queue.items.map s.owner →
      Served s' := by
    intro s' h1 h2 h3 h4
    exact ⟨done, by rw [h1, h3, h4, hpushed], by rw [h2, h3, hevents]⟩
  cases hs with
  | fill t arg j hp =>
    obtain ⟨hq, hr, -⟩ := hP.alone (t := t) (i := j) (by rw [hp]; exact if_pos rfl)
    refine keep rfl rfl ?_ ?_
    · unfold current
      simp only [State.fill]
      cases hrun : s.run with
      | handle i =>
        have hij : i ≠ j := by rintro rfl; simp [hrun, Run.holds] at hr
        simp [update_of_ne hij]
      | notify i =>
        have hij : i ≠ j := by rintro rfl; simp [hrun, Run.holds] at hr
        simp [update_of_ne hij]
      | _ => rfl
    · refine List.map_congr_left fun i hi => update_of_ne ?_ _ _
      rintro rfl
      exact hq hi
  | push t j q hp hq =>
    obtain ⟨-, rfl⟩ := Fifo.push_eq_some.mp hq
    refine ⟨done, ?_, hevents⟩
    show s.pushed ++ [s.owner j] = _
    rw [hpushed, List.map_append, List.append_assoc _ _ [s.owner j]]
    rfl
  | loop hp =>
    refine keep rfl rfl ?_ rfl
    rw [current_eq (s := s) (by rcases hp with hp | hp <;> simp [hp])]
    rfl
  | count hp _ => exact keep rfl rfl (by rw [current_eq (s := s) (by simp [hp])]; rfl) rfl
  | leave hp _ => exact keep rfl rfl (by rw [current_eq (s := s) (by simp [hp])]; rfl) rfl
  | timeout hp => exact keep rfl rfl (by rw [current_eq (s := s) (by simp [hp])]; rfl) rfl
  | pop j q hp hq =>
    obtain ⟨hitems, -⟩ := Fifo.pop_eq_some.mp hq
    rw [current_eq (s := s) (by simp [hp])] at hpushed hevents
    refine ⟨done, ?_, hevents⟩
    show s.pushed = done ++ [s.owner j] ++ q.items.map s.owner
    rw [hpushed, hitems]
    simp
  | handle j hp =>
    have hreq := (hR j (Or.inr (Or.inr (Or.inl hp)))).1
    simp only [current, hp] at hpushed hevents
    refine ⟨done, hpushed, ?_⟩
    show s.events ++ _ = _
    rw [hevents, hreq]
    simp [current]
  | notify j hp =>
    have hsem := (hR j (Or.inr (Or.inr (Or.inr hp)))).2
    simp only [current, hp] at hpushed hevents
    refine ⟨done ++ [s.owner j], ?_, ?_⟩
    · show s.pushed = done ++ [s.owner j] ++ [] ++ _
      rw [List.append_nil, hpushed]
    · show s.events ++ _ = _
      rw [hevents, hsem]
      simp [current, served]
  | release j p hp hq => exact keep rfl rfl (by rw [current_eq (s := s) (by simp [hp])]; rfl) rfl
  | call t arg hp => exact keep rfl rfl rfl rfl
  | get t arg j p hp hj => exact keep rfl rfl rfl rfl
  | failed t j p hp hq => exact keep rfl rfl rfl rfl
  | abort t arg hp => exact keep rfl rfl rfl rfl
  | fail t j hp => exact keep rfl rfl rfl rfl
  | unRun => exact keep rfl rfl rfl rfl
  | setReq e q => exact keep rfl rfl rfl rfl

/-! ## The invariant -/

/-- The invariant. -/
structure Inv (s : State ι E Q) : Prop where
  places : Places s
  args : Args s
  records : Records s
  served : Served s
  numbers : Numbers s

theorem Inv.step {s s' : State ι E Q} {a : Act ι E Q} (h : Inv s) (hs : Step s a s') : Inv s' :=
  ⟨h.places.step hs, h.args.step hs, h.records.step h.args hs, h.served.step h.places h.records hs,
    h.numbers.step h.places hs⟩

theorem inv_init {size : ℕ} {ext : E → RequestSession E Q} {owner : ℕ → Call ι E Q}
    {s : State ι E Q} (h : State.init size ext owner = some s) :
    Inv s ∧ s.run = .test ∧ s.cont = true := by
  obtain ⟨q, hq, h⟩ := Option.bind_eq_some_iff.mp h
  obtain ⟨p, hp, h⟩ := Option.bind_eq_some_iff.mp h
  cases h
  obtain ⟨h1, h2, h3⟩ := init_same hq hp
  refine ⟨⟨⟨h2.symm, fun i => ?_⟩, ?_, ?_, ⟨[], ?_, rfl⟩, ⟨nofun, List.nodup_nil, nofun⟩⟩, rfl, rfl⟩
  · have hz : tally (Proc.holds i) (fun _ : ι => (Proc.idle : Proc E)) = 0 :=
      tally_eq_zero fun _ => rfl
    simp only [Handler.places, h1, h3, hz, h2, Run.holds, List.count_nil, Nat.add_zero]
    split
    case isTrue hi =>
      exact List.count_eq_one_of_mem List.nodup_range (List.mem_range.mpr hi)
    case isFalse hi => exact List.count_eq_zero.mpr fun hm => hi (List.mem_range.mp hm)
  · rintro t a (ht | ⟨i, ht⟩)
    · cases ht
    · cases ht
  · rintro i (hi | ⟨t, hi⟩ | hi | hi)
    · rw [h1] at hi; cases hi
    · cases hi
    · cases hi
    · cases hi
  · simp [current, h1]

/-! ## The main result -/

/-- What holds in every reachable state: every session is at one place; no push finds its queue
full; a call is pushed once; and `Run` serves the pushed calls in order, each by one `Handle` and
then one post on the semaphore of its own argument. -/
structure Conserved (s : State ι E Q) : Prop where
  one_place : ∀ i < s.pool.cap, places s i = 1
  queue_room : ∀ t i, s.proc t = .push i → s.queue.items.length < s.queue.cap
  pool_room : (∀ t i, s.proc t = .failed i → s.pool.items.length < s.pool.cap) ∧
    ∀ i, s.run = .release i → s.pool.items.length < s.pool.cap
  once : (s.pushed.map Call.id).Nodup
  served : ∃ done, done <+: s.pushed ∧ (s.events = done.flatMap Handler.served ∨
    ∃ i c, s.run = .notify i ∧ done ++ [c] <+: s.pushed ∧
      s.events = done.flatMap Handler.served ++ [.handle c c.req])

theorem Inv.conserved {s : State ι E Q} (h : Inv s) : Conserved s where
  one_place i hi := by rw [h.places.one, if_pos hi]
  queue_room t i hp := (h.places.room (t := t) (i := i) (by rw [hp]; exact if_pos rfl)).1
  pool_room := ⟨fun t i hp => (h.places.room (t := t) (i := i) (by rw [hp]; exact if_pos rfl)).2,
    fun _ hp => h.places.room_run hp⟩
  once := h.numbers.nodup
  served := by
    obtain ⟨done, hpushed, hevents⟩ := h.served
    refine ⟨done, ⟨_, by rw [hpushed, List.append_assoc]⟩, ?_⟩
    by_cases hn : ∃ i, s.run = .notify i
    · obtain ⟨i, hi⟩ := hn
      simp only [current, hi] at hpushed hevents
      exact Or.inr ⟨i, _, hi, ⟨_, hpushed.symm⟩, hevents⟩
    · apply Or.inl
      have : (current s).2 = [] := by
        unfold current
        split
        · rfl
        · exact absurd ⟨_, ‹_›⟩ hn
        · rfl
      rw [hevents, this, List.append_nil]

/-- No call of `Process` is in progress when `UnRun` is called, and none starts after it. -/
def Quiet (s : State ι E Q) : Act ι E Q → Prop
  | .unRun => ∀ t, s.proc t = .idle
  | .call _ _ => s.cont = true
  | _ => True

instance (s : State ι E Q) : ∀ a, Decidable (Quiet s a)
  | .unRun => inferInstanceAs (Decidable (∀ t, s.proc t = .idle))
  | .call _ _ => inferInstanceAs (Decidable (s.cont = true))
  | .proc _ | .fail _ | .run | .timeout | .setReq _ _ => isTrue trivial

/-- After such an `UnRun` nothing is pushed, and `Run` has returned only when the queue is empty. -/
structure Shut (s : State ι E Q) : Prop where
  idle : s.cont = false → ∀ t, s.proc t = .idle
  leaving : s.run = .count ∨ s.run = .returned → s.cont = false
  empty : s.run = .returned → s.queue.items = []

theorem Shut.step {s s' : State ι E Q} {a : Act ι E Q} (h : Shut s) (ha : Quiet s a)
    (hs : Step s a s') : Shut s' := by
  -- a caller inside `Process` moves only while `m_continue` is set
  have busy : ∀ {t : ι} {c : Proc E}, s.proc t = c → c ≠ .idle → s.cont = true := by
    intro t c hc hne
    by_contra hn
    exact hne (hc ▸ h.idle (Bool.eq_false_iff.mpr hn) t)
  have keep : ∀ {s' : State ι E Q}, s.cont = true → s'.cont = s.cont → s'.run = s.run → Shut s' := by
    intro s' h1 h2 h3
    refine ⟨fun hc => ?_, fun hr => ?_, fun hr => ?_⟩
    · rw [h2, h1] at hc; cases hc
    · rw [h2]; exact h.leaving (h3 ▸ hr)
    · have := h.leaving (Or.inr (h3 ▸ hr))
      rw [h1] at this
      cases this
  have loop : ∀ {s' : State ι E Q}, s'.cont = s.cont → s'.proc = s.proc → s'.run ≠ .count →
      s'.run ≠ .returned → Shut s' := by
    intro s' h1 h2 h3 h4
    exact ⟨by rw [h1, h2]; exact h.idle, fun hr => (hr.elim h3 h4).elim, fun hr => (h4 hr).elim⟩
  cases hs with
  | call t arg hp => exact keep ha rfl rfl
  | get t arg j p hp hj => exact keep (busy hp (by simp)) rfl rfl
  | fill t arg j hp => exact keep (busy hp (by simp)) rfl rfl
  | push t j q hp hq => exact keep (busy hp (by simp)) rfl rfl
  | failed t j p hp hq => exact keep (busy hp (by simp)) rfl rfl
  | abort t arg hp => exact keep (busy hp (by simp)) rfl rfl
  | fail t j hp => exact keep (busy hp (by simp)) rfl rfl
  | loop hp => exact loop rfl rfl (by simp) (by simp)
  | count hp hc => exact ⟨h.idle, fun _ => hc, nofun⟩
  | leave hp he => exact ⟨h.idle, fun _ => h.leaving (Or.inl hp), fun _ => he⟩
  | pop j q hp hq => exact loop rfl rfl (by simp) (by simp)
  | timeout hp => exact loop rfl rfl (by simp) (by simp)
  | handle j hp => exact loop rfl rfl (by simp) (by simp)
  | notify j hp => exact loop rfl rfl (by simp) (by simp)
  | release j p hp hq => exact loop rfl rfl (by simp) (by simp)
  | unRun => exact ⟨fun _ => ha, fun _ => rfl, h.empty⟩
  | setReq e q => exact ⟨h.idle, h.leaving, h.empty⟩

/-- **The request pipeline.** Sessions are conserved and requests are handled exactly once in every
reachable state; when `Run` has returned after a quiet `UnRun`, every pushed request has been handled
and notified. -/
theorem pipeline_of_reach (size : ℕ) (ext : E → RequestSession E Q) (owner : ℕ → Call ι E Q)
    {s₀ : State ι E Q} (h₀ : State.init size ext owner = some s₀) (s : State ι E Q) :
    (Reach next s₀ s → Conserved s) ∧
      (ReachIf next Quiet s₀ s → s.run = .returned → s.events = s.pushed.flatMap served) := by
  obtain ⟨hi, hr, hc⟩ := inv_init h₀
  refine ⟨fun h => ?_, fun h hret => ?_⟩
  · exact (Reach.inv h hi fun _ _ _ hi hn => hi.step (step_of_next hn)).conserved
  · have hshut : Shut s₀ := ⟨by simp [hc], by simp [hr], by simp [hr]⟩
    obtain ⟨hi, hs⟩ := ReachIf.inv (I := fun s => Inv s ∧ Shut s) h ⟨hi, hshut⟩
      fun _ _ _ hi ha hn => ⟨hi.1.step (step_of_next hn), hi.2.step ha (step_of_next hn)⟩
    obtain ⟨done, hpushed, hevents⟩ := hi.served
    rw [current_eq (by simp [hret])] at hpushed hevents
    simp only [hs.empty hret, List.map_nil, List.append_nil] at hpushed hevents
    rw [hpushed, hevents]

/-- A pool of one session: a request is processed, handled and notified before `Run` returns. -/
theorem pipeline_of_reach_one : ∃ s₀, State.init 1 (fun _ : Unit => ⟨some 5, .ext ()⟩)
      (fun _ => ⟨(0 : Fin 1), 0, .ext (), none⟩) = some s₀ ∧
    ∃ s : State (Fin 1) Unit ℕ, ReachIf next Quiet s₀ s ∧ s.run = .returned ∧
      s.events = [.handle ⟨0, 0, .ext (), some 5⟩ (some 5), .post (.ext ())] ∧ Conserved s ∧
        s.events = s.pushed.flatMap served := by
  obtain ⟨s₀, h₀⟩ : ∃ s₀, State.init 1 (fun _ : Unit => ⟨some 5, .ext ()⟩)
    (fun _ => ⟨(0 : Fin 1), 0, .ext (), none⟩) = some s₀ := ⟨_, rfl⟩
  obtain ⟨s, hr, h1, h2⟩ : ∃ s, ReachIf next Quiet s₀ s ∧ s.run = .returned ∧
      s.events = [.handle ⟨0, 0, .ext (), some 5⟩ (some 5), .post (.ext ())] := by
    cases h₀
    exact ⟨_, ReachIf.of_run (ReachIf.refl _) (l := [.run, .call 0 (.ext ()), .proc 0, .proc 0,
      .timeout, .run, .proc 0, .run, .run, .run, .run, .unRun, .run, .run]) (by decide) rfl, rfl, rfl⟩
  have h := pipeline_of_reach 1 _ _ h₀ s
  exact ⟨s₀, h₀, s, hr, h1, h2, h.1 hr.reach, h.2 hr h1⟩

end Backend.Foxea.Handler
