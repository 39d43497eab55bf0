import Backend.LockFree.Results
import Mathlib.Data.List.Nodup

/-!
# One `Single_Push`, many `Single_Pop`: when each item is returned once

`Single_Pop` copies the slot before its compare-and-swap on an index that recurs every `m_size` pops.

* `Delivered`: each item once, none skipped, no read beyond what is written;
* `SafeAt`, `Safe`: the condition on a compare-and-swap of `Single_Pop` that succeeds;
* `Own`, `Inv`, `Inv.step`: the invariant;
* `Inv.not_delivered`: a compare-and-swap that does not meet the condition;
* **`delivered_of_safe`**: runs whose compare-and-swaps all meet it, and only these, with the results of the calls;
* **`not_delivered_of_stall`**: a consumer that stalls for one lap.
-/

set_option autoImplicit false
set_option linter.unusedSectionVars false

namespace Backend.LockFree.Single

open Function

variable {ι T : Type} [DecidableEq ι]

/-- Each item is returned at most once; the items returned are the first ones accepted, in this order and
with their values; no more items are returned than are accepted. -/
structure Delivered (s : State ι T) : Prop where
  once : ∀ k : ℕ, (s.returned.map Prod.snd).count (some k) ≤ 1
  items : s.returned.map Prod.snd = (List.range s.returned.length).map some
  values : s.returned.map Prod.fst <+: s.accepted
  past : s.returned.length ≤ s.accepted.length

/-- A compare-and-swap on `m_read_idx` that succeeds is safe when the queue is not empty at that moment
and the slot still holds the item that the call has copied. -/
def SafeAt (s : State ι T) : PopPc T → Prop
  | .cas r _ g => s.readIdx = r → s.readIdx ≠ s.writeIdx ∧ s.tag r = g
  | _ => True

/-- The thread that moves is not about to make an unsafe compare-and-swap. -/
def Safe (s : State ι T) : Act ι T → Prop
  | .cons t => SafeAt s (s.pc t)
  | _ => True

instance (s : State ι T) : ∀ c, Decidable (SafeAt s c)
  | .cas r _ g => inferInstanceAs (Decidable (s.readIdx = r → s.readIdx ≠ s.writeIdx ∧ s.tag r = g))
  | .idle | .read | .write _ | .copy _ | .done _ => isTrue trivial

instance (s : State ι T) : ∀ a, Decidable (Safe s a)
  | .cons t => inferInstanceAs (Decidable (SafeAt s (s.pc t)))
  | .push _ | .prod | .pop _ => isTrue trivial

/-! ## The invariant -/

/-- The producer has written its slot and not yet published it. -/
def PushPc.stored : PushPc T → Bool
  | .old _ _ | .cas _ _ _ => true
  | _ => false

/-- The next slot is free and, once it is written, holds the item that is published next. -/
structure Stored (s : State ι T) (x : T) (w' : ℕ) : Prop where
  newWrite : w' = (s.accepted.length + 1) % s.size
  room : s.accepted.length + 1 < s.returned.length + s.size
  data : s.data (s.accepted.length % s.size) = x
  tag : s.tag (s.accepted.length % s.size) = some s.accepted.length

/-- What the producer knows. The `m_read_idx` it has read is that after `n` items. -/
def Own (s : State ι T) : Prop :=
  match s.prod with
  | .write _ r => ∃ n ≤ s.returned.length, r = n % s.size ∧ s.accepted.length < n + s.size
  | .store _ w w' => w = s.accepted.length % s.size ∧ w' = (s.accepted.length + 1) % s.size ∧
      s.accepted.length + 1 < s.returned.length + s.size
  | .old x w' => Stored s x w'
  | .cas x o w' => o = s.writeIdx ∧ Stored s x w'
  | _ => True

/-- Items have been numbered up to `k`. -/
def Known (s : State ι T) (k : ℕ) : Prop :=
  k < s.accepted.length ∨ (k = s.accepted.length ∧ s.prod.stored = true)

/-- The invariant. -/
structure Inv (s : State ι T) : Prop where
  size : 1 < s.size ∧ s.size < 2 ^ 32
  write : s.writeIdx = s.accepted.length % s.size
  read : s.readIdx = s.returned.length % s.size
  le : s.returned.length ≤ s.accepted.length ∧ s.accepted.length < s.returned.length + s.size
  cells : ∀ p, s.returned.length ≤ p → p < s.accepted.length →
    s.accepted[p]? = some (s.data (p % s.size)) ∧ s.tag (p % s.size) = some p
  own : Own s
  tags : ∀ i k, s.tag i = some k → Known s k
  copies : ∀ t r v g, s.pc t = .cas r v g → (s.tag r = g → v = s.data r) ∧ ∀ k, g = some k → Known s k
  returned : ∀ (k : ℕ) (x : T × Option ℕ), s.returned[k]? = some x →
    x.2 = some k ∧ s.accepted[k]? = some x.1

theorem getIdx_mod {size n : ℕ} (h : 1 < size ∧ size < 2 ^ 32) : getIdx size (n % size) = n % size := by
  have : n % size < size := Nat.mod_lt _ (by omega)
  rw [getIdx, Nat.mod_eq_of_lt (show n % size < 2 ^ 32 by omega), Nat.mod_mod]

theorem Inv.delivered {s : State ι T} (h : Inv s) : Delivered s := by
  have hitems : s.returned.map Prod.snd = (List.range s.returned.length).map some := by
    refine List.ext_getElem (by simp) fun k hk _ => ?_
    rw [List.length_map] at hk
    simp only [List.getElem_map, List.getElem_range]
    exact (h.returned k _ (List.getElem?_eq_getElem hk)).1
  refine ⟨fun k => ?_, hitems, ?_, h.le.1⟩
  · rw [hitems]
    exact List.nodup_iff_count_le_one.mp (List.nodup_range.map (Option.some_injective ℕ)) _
  · rw [List.prefix_iff_getElem?]
    intro k hk
    rw [List.length_map] at hk
    rw [List.getElem_map]
    exact (h.returned k _ (List.getElem?_eq_getElem hk)).2

theorem Inv.read_eq_write {s : State ι T} (h : Inv s) :
    s.readIdx = s.writeIdx ↔ s.returned.length = s.accepted.length := by
  rw [h.read, h.write]
  have hle := h.le
  constructor
  · intro he
    exact slot_inj (r := s.returned.length) le_rfl (by have := h.size; omega) hle.1 hle.2 he
  · rintro he
    rw [he]

/-! ## The steps -/

theorem Inv.goProd {s : State ι T} (h : Inv s) {c : PushPc T} (hc : c.stored = s.prod.stored)
    (hown : Own (s.goProd c)) : Inv (s.goProd c) := by
  have hknown : ∀ k, Known s k → Known (s.goProd c) k := by
    rintro k (hk | ⟨hk, hs⟩)
    · exact .inl hk
    · exact .inr ⟨hk, hc.trans hs⟩
  exact ⟨h.size, h.write, h.read, h.le, h.cells, hown, fun i k hi => hknown k (h.tags i k hi),
    fun t r v g ht => ⟨(h.copies t r v g ht).1, fun k hk => hknown k ((h.copies t r v g ht).2 k hk)⟩,
    h.returned⟩

theorem Own.frame {s s' : State ι T} (h : Own s) (hprod : s'.prod = s.prod) (hsize : s'.size = s.size)
    (hwrite : s'.writeIdx = s.writeIdx) (hacc : s'.accepted = s.accepted) (hdata : s'.data = s.data)
    (htag : s'.tag = s.tag) (hret : s.returned.length ≤ s'.returned.length) : Own s' := by
  have hstored : ∀ {x w'}, Stored s x w' → Stored s' x w' := by
    rintro x w' ⟨h1, h2, h3, h4⟩
    refine ⟨?_, ?_, ?_, ?_⟩ <;> rw [hacc, hsize]
    · exact h1
    · omega
    · rwa [hdata]
    · rwa [htag]
  unfold Own at h ⊢
  rw [hprod]
  split at h
  case h_1 =>
    obtain ⟨n, hn, hr, hlt⟩ := h
    exact ⟨n, by omega, by rw [hsize, hr], by rw [hacc, hsize]; exact hlt⟩
  case h_2 =>
    rw [hacc, hsize]
    exact ⟨h.1, h.2.1, by omega⟩
  case h_3 => exact hstored h
  case h_4 => exact ⟨by rw [hwrite]; exact h.1, hstored h.2⟩
  case h_5 => trivial

theorem Inv.goto {s : State ι T} (h : Inv s) (t : ι) {c : PopPc T}
    (hc : ∀ r v g, c = .cas r v g → (s.tag r = g → v = s.data r) ∧ ∀ k, g = some k → Known s k) :
    Inv (s.goto t c) := by
  refine ⟨h.size, h.write, h.read, h.le, h.cells, h.own.frame rfl rfl rfl rfl rfl rfl le_rfl, h.tags,
    fun u r v g hu => ?_, h.returned⟩
  by_cases hut : u = t
  · simp only [State.goto, hut, update_self] at hu
    exact hc r v g hu
  · simp only [State.goto, update_of_ne hut] at hu
    exact h.copies u r v g hu

theorem Inv.room {s : State ι T} (h : Inv s) {x : T} {r : ℕ} (hp : s.prod = .write x r)
    (hne : getIdx s.size (s.writeIdx + 1) ≠ getIdx s.size r) :
    Inv (s.goProd (.store x s.writeIdx (getIdx s.size (s.writeIdx + 1)))) := by
  have hown := h.own
  simp only [Own, hp] at hown
  obtain ⟨n, hn, rfl, hlt⟩ := hown
  rw [h.write, getIdx_succ h.size, getIdx_mod h.size] at hne
  have hroom : s.accepted.length + 1 ≠ n + s.size := by
    intro he
    rw [he, Nat.add_mod_right] at hne
    exact hne rfl
  refine h.goProd (by rw [hp]; rfl) ⟨h.write, ?_, ?_⟩
  · rw [h.write]
    exact getIdx_succ h.size
  · show s.accepted.length + 1 < s.returned.length + s.size
    omega

/-- The write of a slot touches no unconsumed item. -/
theorem Inv.store {s : State ι T} (h : Inv s) {x : T} {w w' : ℕ} (hp : s.prod = .store x w w') :
    Inv (s.store x w w') := by
  have hown := h.own
  simp only [Own, hp] at hown
  obtain ⟨rfl, rfl, hroom⟩ := hown
  have hle := h.le
  have hknown : ∀ k, Known s k → k < s.accepted.length := by
    rintro k (hk | ⟨-, hs⟩)
    · exact hk
    · rw [hp] at hs
      cases hs
  refine ⟨h.size, h.write, h.read, h.le, fun p h1 h2 => ?_, ?_, fun i k hi => ?_,
    fun t r v g ht => ⟨fun hg => ?_, fun k hk => ?_⟩, h.returned⟩
  · have hne : p % s.size ≠ s.accepted.length % s.size := fun he => by
      have := slot_inj h1 (show p < s.returned.length + s.size by
        have : p < s.accepted.length := h2
        omega) hle.1 hle.2 he
      have : p < s.accepted.length := h2
      omega
    simp only [State.store, update_of_ne hne]
    exact h.cells p h1 h2
  · exact ⟨rfl, hroom, update_self .., update_self ..⟩
  · by_cases hi' : i = s.accepted.length % s.size
    · simp only [State.store, hi', update_self, Option.some.injEq] at hi
      exact .inr ⟨hi.symm, rfl⟩
    · simp only [State.store, update_of_ne hi'] at hi
      exact .inl (hknown k (h.tags i k hi))
  · by_cases hr : r = s.accepted.length % s.size
    · simp only [State.store, hr, update_self] at hg
      have := hknown _ ((h.copies t r v g ht).2 _ hg.symm)
      omega
    · simp only [State.store, update_of_ne hr] at hg ⊢
      exact (h.copies t r v g ht).1 hg
  · exact .inl (hknown k ((h.copies t r v g ht).2 k hk))

theorem Inv.publish {s : State ι T} (h : Inv s) {x : T} {o w' : ℕ} (hp : s.prod = .cas x o w') :
    Inv (s.publish x w') := by
  have hown := h.own
  simp only [Own, hp] at hown
  obtain ⟨-, rfl, hroom, hdata, htag⟩ := hown
  have hle := h.le
  have hlen : (s.accepted ++ [x]).length = s.accepted.length + 1 := List.length_append
  have hget : ∀ {p : ℕ} {y : T}, s.accepted[p]? = some y → (s.accepted ++ [x])[p]? = some y := by
    intro p y hy
    rw [List.getElem?_append_left (List.getElem?_eq_some_iff.mp hy).1]
    exact hy
  have hknown : ∀ k, Known s k → Known (s.publish x ((s.accepted.length + 1) % s.size)) k := by
    rintro k (hk | ⟨hk, -⟩) <;> left <;> simp only [State.publish, hlen] <;> omega
  refine ⟨h.size, ?_, h.read, ?_, fun p h1 h2 => ?_, trivial, fun i k hi => hknown k (h.tags i k hi),
    fun t r v g ht => ⟨(h.copies t r v g ht).1, fun k hk => hknown k ((h.copies t r v g ht).2 k hk)⟩,
    fun k y hk => ⟨(h.returned k y hk).1, hget (h.returned k y hk).2⟩⟩
  · simp only [State.publish, hlen]
  · simp only [State.publish, hlen]
    omega
  · simp only [State.publish, hlen] at h1 h2 ⊢
    rcases Nat.lt_succ_iff_lt_or_eq.mp h2 with h2 | rfl
    · exact ⟨hget (h.cells p h1 h2).1, (h.cells p h1 h2).2⟩
    · rw [hdata, List.getElem?_concat_length]
      exact ⟨rfl, htag⟩

theorem Inv.take {s : State ι T} (h : Inv s) {t : ι} {r : ℕ} {v : T} {g : Option ℕ}
    (hp : s.pc t = .cas r v g) (hr : s.readIdx = r) (hne : s.readIdx ≠ s.writeIdx)
    (hg : s.tag r = g) : Inv (s.take t r v g) := by
  have hle := h.le
  have hlt : s.returned.length < s.accepted.length :=
    Nat.lt_of_le_of_ne hle.1 fun he => hne (h.read_eq_write.mpr he)
  have hcell := h.cells _ le_rfl hlt
  rw [← h.read, hr] at hcell
  rw [hg] at hcell
  obtain rfl := (h.copies t r v g hp).1 hg
  have hlen : (s.returned ++ [(s.data r, g)]).length = s.returned.length + 1 := List.length_append
  refine ⟨h.size, h.write, ?_, ?_, fun p h1 h2 => ?_, ?_, h.tags, fun u r' v' g' hu => ?_,
    fun k x hk => ?_⟩
  · simp only [State.take, State.goto, hlen]
    rw [← hr, h.read]
    exact getIdx_succ h.size
  · simp only [State.take, State.goto, hlen]
    omega
  · simp only [State.take, State.goto, hlen] at h1
    exact h.cells p (by omega) h2
  · refine h.own.frame rfl rfl rfl rfl rfl rfl ?_
    simp only [State.take, State.goto, hlen]
    exact Nat.le_succ _
  · by_cases hut : u = t
    · simp [State.take, State.goto, hut] at hu
    · simp only [State.take, State.goto, update_of_ne hut] at hu
      exact h.copies u r' v' g' hu
  · simp only [State.take, State.goto] at hk
    rcases Nat.lt_trichotomy k s.returned.length with hlt | rfl | hgt
    · rw [List.getElem?_append_left hlt] at hk
      exact h.returned k x hk
    · rw [List.getElem?_concat_length] at hk
      cases hk
      exact ⟨hcell.2, hcell.1⟩
    · rw [List.getElem?_eq_none (by simp; omega)] at hk
      cases hk

/-- **Every safe step keeps the invariant.** -/
theorem Inv.step {s s' : State ι T} {a : Act ι T} (h : Inv s) (ha : Safe s a) (hs : Step s a s') :
    Inv s' := by
  cases hs with
  | push x hp =>
    refine h.goProd ?_ trivial
    cases hc : s.prod <;> simp_all [PushPc.outside, PushPc.stored]
  | pushRead x hp =>
    exact h.goProd (by rw [hp]; rfl) ⟨s.returned.length, le_rfl, h.read, h.le.2⟩
  | full x r hp _ => exact h.goProd (by rw [hp]; rfl) trivial
  | room x r hp hne => exact h.room hp hne
  | store x w w' hp => exact h.store hp
  | old x w' hp =>
    have hown := h.own
    simp only [Own, hp] at hown
    exact h.goProd (by rw [hp]; rfl) ⟨rfl, hown.newWrite, hown.room, hown.data, hown.tag⟩
  | publish x o w' hp _ => exact h.publish hp
  | lost x o w' hp hne =>
    -- only the producer writes `m_write_idx`
    have hown := h.own
    simp only [Own, hp] at hown
    exact absurd hown.1.symm hne
  | pop t _ => exact h.goto t (by simp)
  | popRead t _ => exact h.goto t (by simp)
  | empty t r _ _ => exact h.goto t (by simp)
  | nonempty t r _ _ => exact h.goto t (by simp)
  | copy t r _ =>
    refine h.goto t fun r' v g hc => ?_
    cases hc
    exact ⟨fun _ => rfl, fun k hk => h.tags r k hk⟩
  | take t r v g hp hr =>
    simp only [Safe, hp, SafeAt] at ha
    exact h.take hp hr (ha hr).1 (ha hr).2
  | retry t r v g _ _ => exact h.goto t (by simp)

/-- **A compare-and-swap that is not safe** returns an item that is not the next one. -/
theorem Inv.not_delivered {s s' : State ι T} {a : Act ι T} (h : Inv s) (ha : ¬ Safe s a)
    (hs : Step s a s') : ¬ Delivered s' := by
  intro hd
  cases hs with
  | take t r v g hp hr =>
    simp only [Safe, hp, SafeAt, hr, true_implies] at ha
    have hlen : (s.returned ++ [(v, g)]).length = s.returned.length + 1 := List.length_append
    have hpast := hd.past
    have hitems := hd.items
    simp only [State.take, State.goto, hlen, List.map_append, List.range_succ] at hpast hitems
    have hlast := congrArg List.getLast? hitems
    simp only [List.map_cons, List.map_nil, List.getLast?_concat, Option.some.injEq] at hlast
    apply ha
    rw [← hr]
    refine ⟨fun he => ?_, ?_⟩
    · have := h.read_eq_write.mp he
      omega
    · rw [hlast, h.read]
      exact (h.cells _ le_rfl (by omega)).2
  | retry t r v g hp hr =>
    simp only [Safe, hp, SafeAt] at ha
    exact ha fun he => absurd he hr
  | popRead t hp => exact ha (by simp only [Safe, hp, SafeAt])
  | empty t r hp _ => exact ha (by simp only [Safe, hp, SafeAt])
  | nonempty t r hp _ => exact ha (by simp only [Safe, hp, SafeAt])
  | copy t r hp => exact ha (by simp only [Safe, hp, SafeAt])
  | push | pushRead | full | room | store | old | publish | lost | pop => exact ha trivial

/-! ## The main results -/

theorem inv_ofQueue {data : ℕ → T} {size : ℕ} {q : LockFreeQueue T} (hs : size < 2 ^ 32 - 1)
    (h : LockFreeQueue.init data size = some q) : Inv (.ofQueue q : State ι T) ∧ q.size = size + 1 := by
  unfold LockFreeQueue.init at h
  split at h
  · cases h
  · cases h
    have he : (size + 1) % 2 ^ 32 = size + 1 := Nat.mod_eq_of_lt (by omega)
    refine ⟨⟨?_, ?_, ?_, ?_, fun p _ hp => ?_, trivial, ?_, ?_, ?_⟩, he⟩
    · simp only [State.ofQueue, he]
      omega
    · simp [State.ofQueue]
    · simp [State.ofQueue]
    · simp only [State.ofQueue, he, List.length_nil]
      omega
    · cases hp
    · simp [State.ofQueue]
    · simp [State.ofQueue]
    · simp [State.ofQueue]

/-- **In runs whose compare-and-swaps are all safe** each item is returned once and none is skipped, and the results of
the calls say what they have published and taken; a compare-and-swap that is not safe ends the first. -/
theorem delivered_of_safe (data : ℕ → T) (size : ℕ) (hs : size < 2 ^ 32 - 1) {q : LockFreeQueue T}
    (hq : LockFreeQueue.init data size = some q) {s : State ι T}
    (h : ReachIf next Safe (.ofQueue q) s) :
    Delivered s ∧ Results s ∧ ∀ a s', next s a = some s' → (Delivered s' ↔ Safe s a) := by
  have hi := ReachIf.inv (I := Inv) h (inv_ofQueue hs hq).1
    fun _ _ _ hi ha hn => hi.step ha (step_of_next hn)
  refine ⟨hi.delivered, results_of_reach h.reach, fun a s' hn => ⟨fun hd => ?_, fun ha => ?_⟩⟩
  · by_contra ha
    exact hi.not_delivered ha (step_of_next hn) hd
  · exact (hi.step ha (step_of_next hn)).delivered

/-- The producer pushes `x` without interruption. -/
def pushing (x : T) : List (Act ι T) := .push x :: List.replicate 5 .prod

/-- Consumer `t` pops without interruption. -/
def popping (t : ι) : List (Act ι T) := .pop t :: List.replicate 4 (.cons t)

/-- Two items for two consumers, through a queue of size one. -/
theorem delivered_of_safe_two : ∃ q : LockFreeQueue ℕ, LockFreeQueue.init (fun _ => 0) 1 = some q ∧
    ∃ s : State (Fin 2) ℕ, ReachIf next Safe (.ofQueue q) s ∧ s.returned = [(10, some 0), (20, some 1)] ∧
      s.prod = .done true ∧ Delivered s ∧ Results s := by
  have hm : Meets next Safe (.ofQueue ⟨0, 0, 0, 2, fun _ => 0⟩ : State (Fin 2) ℕ)
      (pushing 10 ++ popping 0 ++ pushing 20 ++ popping 1) := by decide
  have hr : (run next (.ofQueue ⟨0, 0, 0, 2, fun _ => 0⟩ : State (Fin 2) ℕ)
      (pushing 10 ++ popping 0 ++ pushing 20 ++ popping 1)).map (fun s => (s.returned, s.prod)) =
      some ([(10, some 0), (20, some 1)], .done true) := by decide
  refine ⟨_, init_one, ?_⟩
  obtain ⟨s, hs, h⟩ := ReachIf.of_run_map hm hr
  obtain ⟨hret, hprod⟩ := Prod.mk.inj h
  obtain ⟨hd, hres, -⟩ := delivered_of_safe (fun _ => 0) 1 (by decide) init_one hs
  exact ⟨s, hs, hret, hprod, hd, hres⟩

/-- **A consumer that stalls for one lap**, on a queue of size one: consumer `0` copies item `0` and stalls
while consumer `1` returns items `0` and `1`; its compare-and-swap then returns item `0` again. -/
theorem not_delivered_of_stall : ∃ q : LockFreeQueue ℕ, LockFreeQueue.init (fun _ => 0) 1 = some q ∧
    ∃ s : State (Fin 2) ℕ, Reach next (.ofQueue q) s ∧ s.accepted = [10, 20] ∧
      s.returned = [(10, some 0), (20, some 1), (10, some 0)] ∧ ¬ Delivered s := by
  have hr : (run next (.ofQueue ⟨0, 0, 0, 2, fun _ => 0⟩ : State (Fin 2) ℕ)
      (pushing 10 ++ (popping 0).take 4 ++ popping 1 ++ pushing 20 ++ popping 1 ++
        [Act.cons 0])).map (fun s => (s.accepted, s.returned)) =
      some ([10, 20], [(10, some 0), (20, some 1), (10, some 0)]) := by decide
  refine ⟨_, init_one, ?_⟩
  obtain ⟨s, hs, h⟩ := Reach.of_run_map hr
  obtain ⟨h1, h2⟩ := Prod.mk.inj h
  refine ⟨s, hs, h1, h2, fun hd => absurd hd.past ?_⟩
  rw [h1, h2]
  decide

end Backend.LockFree.Single
