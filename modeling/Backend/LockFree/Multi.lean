import Backend.LockFree.Model
import Mathlib.Data.List.Nodup

/-!
# `Multi_Push` and `Multi_Pop`: when no item is lost or duplicated

The indices are reduced modulo `m_size`, so that a compare-and-swap cannot tell an index from the same
index one lap later. Without such a lap the three indices are the numbers of accepted, committed and
returned items modulo `m_size`.

* `Delivered`: no item twice, no foreign value, in order, at most `size` unconsumed;
* `SafeAt`, `Safe`: the condition on a compare-and-swap that succeeds;
* `Own`, `Inv`, `Inv.step`: the invariant;
* **`delivered_of_reach`**: runs whose compare-and-swaps are all safe;
* **`not_delivered_of_lap`**: a pop and a push that are lapped.
-/

set_option autoImplicit false
set_option linter.unusedSectionVars false

namespace Backend.LockFree

open Function

variable {ι T : Type} [DecidableEq ι]

/-- The queue neither loses nor duplicates items: no item is returned twice, each returned value is
the one of an accepted item, items are returned in the order in which they were accepted, and at most
`size` accepted items are unconsumed. -/
structure Delivered (size : ℕ) (s : State ι T) : Prop where
  once : ∀ k : ℕ, (s.returned.map Prod.snd).count (some k) ≤ 1
  valid : ∀ x ∈ s.returned, ∃ k : ℕ, x.2 = some k ∧ s.accepted[k]? = some x.1
  order : s.returned.Pairwise fun x y => ∀ k l : ℕ, x.2 = some k → y.2 = some l → k < l
  bound : s.accepted.length ≤ s.returned.length + size

/-- A compare-and-swap that succeeds is safe: on `m_write_idx` when the queue is not full at that
moment; on `m_read_idx` when no other pop has succeeded since the slot was copied and the queue was
not empty then. -/
def SafeAt (s : State ι T) : Pc T → Prop
  | .pushCas _ w => s.writeIdx = w → getIdx s.size (w + 1) ≠ s.readIdx
  | .popCas r c => s.readIdx = r → c.pops = s.returned.length ∧ c.nonempty = true
  | _ => True

/-- The thread that moves is not about to make an unsafe compare-and-swap. -/
def Safe (s : State ι T) (a : ι × Act T) : Prop := SafeAt s (s.pc a.1)

instance (s : State ι T) : ∀ c, Decidable (SafeAt s c)
  | .pushCas _ w => inferInstanceAs (Decidable (s.writeIdx = w → _ ≠ _))
  | .popCas r _ => inferInstanceAs (Decidable (s.readIdx = r → _ ∧ _))
  | .idle | .pushRead _ | .pushWrite _ _ | .pushStore _ _ _ | .pushCommit _ _ | .popRead | .popMax _
  | .popCopy _ => isTrue trivial

instance (s : State ι T) (a : ι × Act T) : Decidable (Safe s a) :=
  inferInstanceAs (Decidable (SafeAt s _))

/-! ## The invariant -/

/-- The number of the item that a thread is pushing. -/
def Pc.item : Pc T → Option ℕ
  | .pushStore _ _ p | .pushCommit _ p => some p
  | _ => none

/-- What thread `t` knows: its item is accepted and not committed, and is in its slot once it is
stored; a copy of the slot of the oldest item is that item. -/
def Own (s : State ι T) (t : ι) : Prop :=
  match s.pc t with
  | .pushStore x w p => w = p % s.size ∧ s.committed ≤ p ∧ s.accepted[p]? = some x
  | .pushCommit w p => w = p % s.size ∧ s.committed ≤ p ∧ s.accepted[p]? = some (s.data w) ∧
      s.tag w = some p
  | .popCas r c => c.nonempty = true → r = c.pops % s.size → c.pops < s.committed ∧
      s.accepted[c.pops]? = some c.value ∧ c.tag = some c.pops
  | _ => True

/-- The invariant. -/
structure Inv (s : State ι T) : Prop where
  size : 1 < s.size ∧ s.size < 2 ^ 32
  write : s.writeIdx = s.accepted.length % s.size
  max : s.maxReadIdx = s.committed % s.size
  read : s.readIdx = s.returned.length % s.size
  le : s.returned.length ≤ s.committed ∧ s.committed ≤ s.accepted.length ∧
    s.accepted.length < s.returned.length + s.size
  cells : ∀ p, s.returned.length ≤ p → p < s.committed →
    s.accepted[p]? = some (s.data (p % s.size)) ∧ s.tag (p % s.size) = some p
  own : ∀ t, Own s t
  distinct : ∀ t u p, (s.pc t).item = some p → (s.pc u).item = some p → t = u
  returned : ∀ (k : ℕ) (x : T × Option ℕ), s.returned[k]? = some x →
    x.2 = some k ∧ s.accepted[k]? = some x.1

theorem Inv.tags {s : State ι T} (h : Inv s) :
    s.returned.map Prod.snd = (List.range s.returned.length).map some := by
  refine List.ext_getElem (by simp) fun k hk hk' => ?_
  rw [List.length_map] at hk
  simp only [List.getElem_map, List.getElem_range]
  exact (h.returned k _ (List.getElem?_eq_getElem hk)).1

theorem Inv.delivered {s : State ι T} (h : Inv s) {size : ℕ} (hs : s.size = size + 1) :
    Delivered size s where
  once k := by
    rw [h.tags]
    exact List.nodup_iff_count_le_one.mp (List.nodup_range.map (Option.some_injective ℕ)) _
  valid x hx := by
    obtain ⟨k, hk⟩ := List.mem_iff_getElem?.mp hx
    exact ⟨k, h.returned k x hk⟩
  order := by
    have hp := List.pairwise_lt_range (n := s.returned.length)
    have hp' : (s.returned.map Prod.snd).Pairwise fun x y => ∀ k l : ℕ, x = some k → y = some l →
        k < l := by
      rw [h.tags, List.pairwise_map]
      refine hp.imp fun hlt k l hk hl => ?_
      cases hk
      cases hl
      exact hlt
    exact List.pairwise_map.mp hp'
  bound := by
    have := h.le
    omega

/-! ## The steps -/

theorem Step.size_eq {s s' : State ι T} {t : ι} (h : Step s t s') : s'.size = s.size := by
  cases h <;> rfl

theorem Own.frame {s s' : State ι T} {t : ι} (h : Own s t) (hpc : s'.pc t = s.pc t)
    (hsize : s'.size = s.size) (hacc : s.accepted <+: s'.accepted)
    (hcom : ∀ p, (s.pc t).item = some p → s.committed ≤ p → s'.committed ≤ p)
    (hmono : s.committed ≤ s'.committed)
    (hdata : ∀ p, (s.pc t).item = some p → s'.data (p % s.size) = s.data (p % s.size) ∧
      s'.tag (p % s.size) = s.tag (p % s.size)) : Own s' t := by
  have hget : ∀ {p : ℕ} {x : T}, s.accepted[p]? = some x → s'.accepted[p]? = some x := by
    intro p x hp
    obtain ⟨l, hl⟩ := hacc
    rw [← hl, List.getElem?_append_left (List.getElem?_eq_some_iff.mp hp).1]
    exact hp
  unfold Own at h ⊢
  rw [hpc, hsize]
  split at h
  case h_1 x w p hp => exact ⟨h.1, hcom p (by rw [hp]; rfl) h.2.1, hget h.2.2⟩
  case h_2 w p hp =>
    obtain ⟨hd, ht⟩ := hdata p (by rw [hp]; rfl)
    obtain ⟨rfl, h2, h3, h4⟩ := h
    exact ⟨rfl, hcom p (by rw [hp]; rfl) h2, hd ▸ hget h3, ht ▸ h4⟩
  case h_3 r c hp =>
    intro hn hr
    obtain ⟨h1, h2, h3⟩ := h hn hr
    exact ⟨by omega, hget h2, h3⟩
  case h_4 => trivial

theorem own_of_quiet {s : State ι T} {t : ι} (h : (s.pc t).quiet = true) : Own s t := by
  unfold Own
  cases hp : s.pc t <;> simp_all [Pc.quiet]

theorem item_of_quiet {c : Pc T} (h : c.quiet = true) : c.item = none := by
  cases c <;> simp_all [Pc.quiet, Pc.item]

theorem Inv.item_lt {s : State ι T} (h : Inv s) {t : ι} {p : ℕ} (ht : (s.pc t).item = some p) :
    s.committed ≤ p ∧ p < s.accepted.length := by
  have := h.own t
  unfold Own at this
  cases hp : s.pc t <;> simp_all [Pc.item]
  · exact (List.getElem?_eq_some_iff.mp this.2.2).1
  · exact (List.getElem?_eq_some_iff.mp this.2.2.1).1

theorem Inv.distinct_update {s : State ι T} (h : Inv s) (t : ι) {c : Pc T}
    (hc : ∀ p, c.item = some p → (s.pc t).item = some p ∨ ∀ u, (s.pc u).item ≠ some p) {u v : ι}
    {p : ℕ} (hu : (update s.pc t c u).item = some p) (hv : (update s.pc t c v).item = some p) :
    u = v := by
  by_cases h1 : u = t <;> by_cases h2 : v = t
  · rw [h1, h2]
  · rw [h1, update_self] at hu
    rw [update_of_ne h2] at hv
    rcases hc p hu with hp | hp
    · rw [h1, h.distinct t v p hp hv]
    · exact absurd hv (hp v)
  · rw [h2, update_self] at hv
    rw [update_of_ne h1] at hu
    rcases hc p hv with hp | hp
    · rw [h2, h.distinct u t p hu hp]
    · exact absurd hu (hp u)
  · rw [update_of_ne h1] at hu
    rw [update_of_ne h2] at hv
    exact h.distinct u v p hu hv

theorem Inv.move {s : State ι T} (h : Inv s) (t : ι) {c : Pc T} (hc : c.quiet = true) :
    Inv (s.goto t c) := by
  refine ⟨h.size, h.write, h.max, h.read, h.le, h.cells, fun u => ?_, fun u v p => ?_, h.returned⟩
  · by_cases hu : u = t
    · exact own_of_quiet (by simp [State.goto, hu, hc])
    · exact (h.own u).frame (update_of_ne hu _ _) rfl List.prefix_rfl (fun _ _ => id) le_rfl
        fun _ _ => ⟨rfl, rfl⟩
  · exact h.distinct_update t fun p hp => by rw [item_of_quiet hc] at hp; cases hp

theorem Inv.claim {s : State ι T} (h : Inv s) {t : ι} {x : T} {w : ℕ} (hw : s.writeIdx = w)
    (hsafe : getIdx s.size (w + 1) ≠ s.readIdx) : Inv (s.claim t x w) := by
  have hsz := h.size
  have hle := h.le
  have hget : ∀ {p : ℕ} {y : T}, s.accepted[p]? = some y → (s.accepted ++ [x])[p]? = some y := by
    intro p y hp
    rw [List.getElem?_append_left (List.getElem?_eq_some_iff.mp hp).1]
    exact hp
  rw [h.write] at hw
  subst hw
  -- the queue is not full, so that one more item does not close the ring
  have hroom : s.accepted.length + 1 ≠ s.returned.length + s.size := by
    intro he
    apply hsafe
    rw [getIdx_succ hsz, h.read, he, Nat.add_mod_right]
  refine ⟨hsz, ?_, h.max, h.read, ?_, fun p h1 h2 => ?_, fun u => ?_, fun u v p => ?_,
    fun k y hk => ⟨(h.returned k y hk).1, hget (h.returned k y hk).2⟩⟩
  · simp only [State.claim, State.goto, List.length_append, List.length_singleton]
    exact getIdx_succ hsz
  · simp only [State.claim, State.goto, List.length_append, List.length_singleton]
    omega
  · exact ⟨hget (h.cells p h1 h2).1, (h.cells p h1 h2).2⟩
  · by_cases hu : u = t
    · simp only [Own, State.claim, goto_pc, hu, update_self]
      exact ⟨rfl, hle.2.1, by simp [State.goto]⟩
    · exact (h.own u).frame (update_of_ne hu _ _) rfl ⟨[x], rfl⟩ (fun _ _ => id) le_rfl
        fun _ _ => ⟨rfl, rfl⟩
  · refine h.distinct_update t fun p hp => Or.inr fun u hu => ?_
    cases hp
    exact absurd (h.item_lt hu).2 (lt_irrefl _)

theorem Inv.store {s : State ι T} (h : Inv s) {t : ι} {x : T} {w p : ℕ}
    (hp : s.pc t = .pushStore x w p) : Inv (s.store t x w p) := by
  have hle := h.le
  have hlt := h.item_lt (t := t) (p := p) (by rw [hp]; rfl)
  have hown := h.own t
  simp only [Own, hp] at hown
  obtain ⟨rfl, h2, h3⟩ := hown
  have hne : ∀ q, s.returned.length ≤ q → q < s.accepted.length → q ≠ p →
      q % s.size ≠ p % s.size := fun q h4 h5 hq he =>
    hq (slot_inj h4 (by omega) (by omega) (by omega) he)
  refine ⟨h.size, h.write, h.max, h.read, h.le, fun q h4 h5 => ?_, fun u => ?_, fun u v q => ?_,
    h.returned⟩
  · have hq := hne q h4 (by have : q < s.committed := h5; omega) (by have : q < s.committed := h5; omega)
    simp only [State.store, State.goto, update_of_ne hq]
    exact h.cells q h4 h5
  · by_cases hu : u = t
    · simp only [Own, State.store, goto_pc, hu, update_self]
      exact ⟨rfl, h2, by simpa [State.goto] using h3, by simp [State.goto]⟩
    · refine (h.own u).frame (update_of_ne hu _ _) rfl List.prefix_rfl (fun _ _ => id) le_rfl
        fun q hq => ?_
      have hqp : q ≠ p := by
        rintro rfl
        exact hu (h.distinct u t q hq (by rw [hp]; rfl))
      have hql := h.item_lt hq
      have := hne q (by omega) hql.2 hqp
      simp only [State.store, State.goto, update_of_ne this, and_self]
  · exact h.distinct_update t fun q hq => Or.inl (by rw [hp]; exact hq)

/-- The compare-and-swap on `m_max_read_idx` commits the oldest uncommitted item. -/
theorem Inv.commit {s : State ι T} (h : Inv s) {t : ι} {w p : ℕ} (hp : s.pc t = .pushCommit w p)
    (hw : s.maxReadIdx = w) : Inv (s.commit t w) := by
  have hle := h.le
  have hlt := h.item_lt (t := t) (p := p) (by rw [hp]; rfl)
  have hown := h.own t
  simp only [Own, hp] at hown
  obtain ⟨rfl, h2, h3, h4⟩ := hown
  have hpc : s.committed = p := by
    rw [h.max] at hw
    exact slot_inj (r := s.committed) le_rfl (by have := h.size; omega) h2 (by omega) hw
  subst hpc
  refine ⟨h.size, h.write, ?_, h.read, ?_, fun q h5 h6 => ?_, fun u => ?_, fun u v q => ?_,
    h.returned⟩
  · simp only [State.commit, State.goto]
    exact getIdx_succ h.size
  · simp only [State.commit, State.goto]
    omega
  · rcases Nat.lt_succ_iff_lt_or_eq.mp h6 with h6 | rfl
    · exact h.cells q h5 h6
    · exact ⟨h3, h4⟩
  · by_cases hu : u = t
    · exact own_of_quiet (by simp [State.commit, State.goto, hu, Pc.quiet])
    · refine (h.own u).frame (update_of_ne hu _ _) rfl List.prefix_rfl (fun q hq hc => ?_)
        (Nat.le_succ _) fun _ _ => ⟨rfl, rfl⟩
      apply Nat.lt_of_le_of_ne hc
      rintro rfl
      exact hu (h.distinct u t _ hq (by rw [hp]; rfl))
  · exact h.distinct_update t fun q hq => by cases hq

theorem Inv.copy {s : State ι T} (h : Inv s) (t : ι) (r : ℕ) : Inv (s.copy t r) := by
  refine ⟨h.size, h.write, h.max, h.read, h.le, h.cells, fun u => ?_, fun u v p => ?_, h.returned⟩
  · by_cases hu : u = t
    · simp only [Own, State.copy, goto_pc, hu, update_self]
      intro hn hr
      have hlt : s.returned.length < s.committed := by
        refine Nat.lt_of_le_of_ne h.le.1 fun he => ?_
        rw [h.read, h.max, he, bne_self_eq_false] at hn
        cases hn
      have hcell := h.cells _ le_rfl hlt
      rw [hr]
      exact ⟨hlt, hcell⟩
    · exact (h.own u).frame (update_of_ne hu _ _) rfl List.prefix_rfl (fun _ _ => id) le_rfl
        fun _ _ => ⟨rfl, rfl⟩
  · exact h.distinct_update t fun p hp => by cases hp

theorem Inv.take {s : State ι T} (h : Inv s) {t : ι} {r : ℕ} {c : Copy T}
    (hp : s.pc t = .popCas r c) (hr : s.readIdx = r) (hpops : c.pops = s.returned.length)
    (hn : c.nonempty = true) : Inv (s.take t r c) := by
  have hle := h.le
  have hown := h.own t
  simp only [Own, hp] at hown
  obtain ⟨h1, h2, h3⟩ := hown hn (by rw [← hr, h.read, hpops])
  rw [hpops] at h1 h2 h3
  refine ⟨h.size, h.write, h.max, ?_, ?_, fun q h5 h6 => ?_, fun u => ?_, fun u v q => ?_,
    fun k x hk => ?_⟩
  · simp only [State.take, State.goto, List.length_append, List.length_singleton]
    rw [← hr, h.read]
    exact getIdx_succ h.size
  · simp only [State.take, State.goto, List.length_append, List.length_singleton]
    omega
  · simp only [State.take, State.goto, List.length_append, List.length_singleton] at h5
    exact h.cells q (by omega) h6
  · by_cases hu : u = t
    · exact own_of_quiet (by simp [State.take, State.goto, hu, Pc.quiet])
    · exact (h.own u).frame (update_of_ne hu _ _) rfl List.prefix_rfl (fun _ _ => id) le_rfl
        fun _ _ => ⟨rfl, rfl⟩
  · exact h.distinct_update t fun q hq => by cases hq
  · simp only [State.take, State.goto] at hk
    rcases Nat.lt_trichotomy k s.returned.length with hlt | rfl | hgt
    · rw [List.getElem?_append_left hlt] at hk
      exact h.returned k x hk
    · rw [List.getElem?_concat_length] at hk
      cases hk
      exact ⟨h3, h2⟩
    · rw [List.getElem?_eq_none (by simp; omega)] at hk
      cases hk

/-- **Every safe step keeps the invariant.** -/
theorem Inv.step {s s' : State ι T} {a : ι × Act T} (h : Inv s) (ha : Safe s a)
    (hs : Step s a.1 s') : Inv s' := by
  cases hs with
  | move c hc => exact h.move a.1 hc
  | spin => exact h
  | claim x w hp hw =>
    simp only [Safe, hp, SafeAt] at ha
    exact h.claim hw (ha hw)
  | store x w p hp => exact h.store hp
  | commit w p hp hw => exact h.commit hp hw
  | copy r hp => exact h.copy a.1 r
  | take r c hp hr =>
    simp only [Safe, hp, SafeAt] at ha
    exact h.take hp hr (ha hr).1 (ha hr).2

/-! ## The main results -/

theorem inv_init {data : ℕ → T} {size : ℕ} {q : LockFreeQueue T} (hs : size < 2 ^ 32 - 1)
    (h : LockFreeQueue.init data size = some q) : Inv (.ofQueue q : State ι T) ∧ q.size = size + 1 := by
  unfold LockFreeQueue.init at h
  split at h
  · cases h
  · cases h
    have he : (size + 1) % 2 ^ 32 = size + 1 := Nat.mod_eq_of_lt (by omega)
    refine ⟨⟨?_, ?_, ?_, ?_, ?_, nofun, fun _ => trivial, nofun, nofun⟩, he⟩ <;>
      simp only [State.ofQueue, he, List.length_nil, Nat.zero_mod] <;> omega

/-- **Runs whose compare-and-swaps are all safe**: no item is lost or duplicated. -/
theorem delivered_of_reach (data : ℕ → T) (size : ℕ) (hs : size < 2 ^ 32 - 1)
    {q : LockFreeQueue T} (hq : LockFreeQueue.init data size = some q) {s : State ι T}
    (h : ReachIf next Safe (.ofQueue q) s) : Delivered size s := by
  obtain ⟨hi, hsize⟩ := ReachIf.inv (I := fun s => Inv s ∧ s.size = size + 1) h (inv_init hs hq)
    fun _ _ _ hi ha hn => ⟨hi.1.step ha (step_of_next hn), (step_of_next hn).size_eq.trans hi.2⟩
  exact hi.delivered hsize

/-- Thread `t` pushes `x` without interruption. -/
def pushing (t : ι) (x : T) : List (ι × Act T) := (t, .push x) :: List.replicate 5 (t, .go)

/-- Thread `t` pops without interruption. -/
def popping (t : ι) : List (ι × Act T) := (t, .pop) :: List.replicate 4 (t, .go)

/-- Two items through a queue of size one. -/
theorem delivered_of_reach_two : ∃ q : LockFreeQueue ℕ, LockFreeQueue.init (fun _ => 0) 1 = some q ∧
    ∃ s : State (Fin 2) ℕ, ReachIf next Safe (.ofQueue q) s ∧ s.returned = [(10, some 0), (20, some 1)] ∧
      Delivered 1 s := by
  have hm : Meets next Safe (.ofQueue ⟨0, 0, 0, 2, fun _ => 0⟩ : State (Fin 2) ℕ)
      (pushing 0 10 ++ popping 1 ++ pushing 0 20 ++ popping 1) := by decide
  have hr : (run next (.ofQueue ⟨0, 0, 0, 2, fun _ => 0⟩ : State (Fin 2) ℕ)
      (pushing 0 10 ++ popping 1 ++ pushing 0 20 ++ popping 1)).map (fun s => s.returned) =
      some [(10, some 0), (20, some 1)] := by decide
  obtain ⟨s, hs, hret⟩ := ReachIf.of_run_map hm hr
  exact ⟨_, init_one, s, hs, hret, delivered_of_reach (fun _ => 0) 1 (by decide) init_one hs⟩

/-- **A lapped pop and a lapped push**, on a queue of size one. Thread `1` copies item `0` and stalls
while items `0` and `1` are returned; its compare-and-swap then returns item `0` again. Thread `0`
reads `m_read_idx` and stalls while item `0` is returned and item `1` accepted; its test then passes
on a full queue, and the queue looks empty. -/
theorem not_delivered_of_lap : ∃ q : LockFreeQueue ℕ, LockFreeQueue.init (fun _ => 0) 1 = some q ∧
    (∃ s : State (Fin 3) ℕ, Reach next (.ofQueue q) s ∧
      s.returned = [(10, some 0), (20, some 1), (10, some 0)] ∧ ¬ Delivered 1 s) ∧
    ∃ s : State (Fin 3) ℕ, Reach next (.ofQueue q) s ∧ s.accepted = [20, 30, 10] ∧
      s.returned = [(20, some 0)] ∧ s.writeIdx = s.readIdx ∧ ¬ Delivered 1 s := by
  have hpop : (run next (.ofQueue ⟨0, 0, 0, 2, fun _ => 0⟩ : State (Fin 3) ℕ)
      (pushing 0 10 ++ (popping 1).take 4 ++ popping 2 ++ pushing 0 20 ++ popping 2 ++
        [(1, Act.go)])).map (fun s => s.returned) =
      some [(10, some 0), (20, some 1), (10, some 0)] := by decide
  have hpush : (run next (.ofQueue ⟨0, 0, 0, 2, fun _ => 0⟩ : State (Fin 3) ℕ)
      ((pushing 0 10).take 2 ++ pushing 1 20 ++ popping 2 ++ pushing 1 30 ++
        [(0, Act.go), (0, Act.go)])).map (fun s => (s.accepted, s.returned, s.writeIdx, s.readIdx)) =
      some ([20, 30, 10], [(20, some 0)], 1, 1) := by decide
  refine ⟨_, init_one, ?_, ?_⟩
  · obtain ⟨s, hr, hs⟩ := Reach.of_run_map hpop
    refine ⟨s, hr, hs, fun h => absurd (h.once 0) ?_⟩
    rw [hs]
    decide
  · obtain ⟨s, hr, hs⟩ := Reach.of_run_map hpush
    simp only [Prod.mk.injEq] at hs
    obtain ⟨h1, h2, h3, h4⟩ := hs
    refine ⟨s, hr, h1, h2, h3.trans h4.symm, fun h => absurd h.bound ?_⟩
    rw [h1, h2]
    decide

end Backend.LockFree
