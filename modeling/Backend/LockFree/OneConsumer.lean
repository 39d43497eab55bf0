import Backend.LockFree.OneProducer

/-!
# One `Single_Push`, one `Single_Pop`: a bounded queue

With a single consumer `m_read_idx` does not change between its read and its compare-and-swap, so that
every compare-and-swap succeeds and is safe.

* `Cons`, `Cons.step`: what the consumer knows;
* `BoundedFifo`: the order, the bound, the slots that the two threads access, what a call has appended or taken when it
  returns `true`, and the moments at which the queue is full or empty when it returns `false`;
* **`boundedFifo_of_reach`**.
-/

set_option autoImplicit false

namespace Backend.LockFree.Single

open Function

variable {T : Type}

/-- What the only consumer knows: `m_read_idx` is the one it has read, the queue is not empty after the
test, and the slot holds what it has copied. -/
def Cons (s : State Unit T) : Prop :=
  match s.pc () with
  | .write r => s.readIdx = r
  | .copy r => s.readIdx = r ∧ r ≠ s.writeIdx
  | .cas r _ g => s.readIdx = r ∧ r ≠ s.writeIdx ∧ s.tag r = g
  | _ => True

theorem Cons.safe {s : State Unit T} (h : Cons s) (a : Act Unit T) : Safe s a := by
  cases a with
  | cons t =>
    cases hp : s.pc () <;> simp only [Safe, hp, SafeAt]
    simp only [Cons, hp] at h
    obtain ⟨rfl, h⟩ := h
    exact fun _ => h
  | push x => trivial
  | prod => trivial
  | pop t => trivial

theorem Cons.frame {s s' : State Unit T} (h : Cons s) (hpc : s'.pc () = s.pc ())
    (hread : s'.readIdx = s.readIdx) (hwrite : s.readIdx ≠ s.writeIdx → s.readIdx ≠ s'.writeIdx)
    (htag : s.readIdx ≠ s.writeIdx → s'.tag s.readIdx = s.tag s.readIdx) : Cons s' := by
  unfold Cons at h ⊢
  rw [hpc, hread]
  split at h
  case h_1 => exact h
  case h_2 =>
    obtain ⟨rfl, h⟩ := h
    exact ⟨rfl, hwrite h⟩
  case h_3 =>
    obtain ⟨rfl, h, hg⟩ := h
    exact ⟨rfl, hwrite h, (htag h).trans hg⟩
  case h_4 => trivial

/-- **A step of the one consumer and the one producer.** -/
theorem Cons.step {s s' : State Unit T} {a : Act Unit T} (hi : Inv s) (h : Cons s) (hs : Step s a s') :
    Cons s' := by
  cases hs with
  | push | pushRead | full | room | old | lost => exact h.frame rfl rfl id fun _ => rfl
  | store x w w' hp =>
    refine h.frame rfl rfl id fun hne => ?_
    have hown := hi.own
    simp only [Own, hp] at hown
    obtain ⟨rfl, -⟩ := hown
    rw [← hi.write]
    exact update_of_ne hne ..
  | publish x o w' hp _ =>
    refine h.frame rfl rfl (fun hne he => ?_) fun _ => rfl
    have hown := hi.own
    simp only [Own, hp] at hown
    have hroom := hown.2.room
    have hle := hi.le
    -- the ring is not closed, so that the indices stay different
    change s.readIdx = w' at he
    rw [hi.read, hown.2.newWrite] at he
    have := slot_inj (r := s.returned.length) le_rfl (by omega) (by omega) (by omega) he
    omega
  | pop t _ => simp [Cons, State.goto]
  | popRead t _ => simp [Cons, State.goto]
  | empty t r _ _ => simp [Cons, State.goto]
  | nonempty t r hp hne =>
    simp only [Cons, hp] at h
    simp only [Cons, State.goto, update_self]
    exact ⟨h, hne⟩
  | copy t r hp =>
    simp only [Cons, hp] at h
    simp only [Cons, State.goto, update_self]
    exact ⟨h.1, h.2, trivial⟩
  | take t r v g _ _ => simp [Cons, State.take, State.goto]
  | retry t r v g _ _ => simp [Cons, State.goto]

/-- The queue is a bounded queue: the values returned are the first ones accepted; at most `size` items
are unconsumed; the producer does not write the slot that the consumer reads; its compare-and-swap does not
fail. A `Single_Push` that returns `true` has appended its item, one that returns `false` has appended nothing and
seen the queue full at some moment of the call. A `Single_Pop` that returns `true` has taken one item, one that
returns `false` has taken nothing and seen the queue empty. A call is in progress until the next one. -/
structure BoundedFifo (size : ℕ) (s : State Unit T) : Prop where
  order : s.returned.map Prod.fst <+: s.accepted
  bound : s.accepted.length ≤ s.returned.length + size
  apart : ∀ x w w' r, s.prod = .store x w w' → s.pc () = .copy r → w ≠ r
  publishes : Publishes s
  pushTrue : ∀ x l s₁ s', next s (.push x) = some s₁ → (∀ y, Act.push y ∉ l) →
    run next s₁ l = some s' → s'.prod = .done true → s'.accepted = s.accepted ++ [x]
  pushFalse : ∀ x l s₁ s', next s (.push x) = some s₁ → (∀ y, Act.push y ∉ l) →
    run next s₁ l = some s' → s'.prod = .done false → s'.accepted = s.accepted ∧
      Moment next s₁ l fun u => u.accepted.length = u.returned.length + size
  popTrue : ∀ l s₁ s', next s (.pop ()) = some s₁ → Act.pop () ∉ l →
    run next s₁ l = some s' → s'.pc () = .done true →
    ∃ v g, taken () s₁ l = [(v, g)] ∧ s'.returned = s.returned ++ [(v, g)]
  popFalse : ∀ l s₁ s', next s (.pop ()) = some s₁ → Act.pop () ∉ l →
    run next s₁ l = some s' → s'.pc () = .done false → s'.returned = s.returned ∧
      Moment next s₁ l fun u => u.accepted.length = u.returned.length

/-- The invariant of the two threads, for a ring of `size + 1` slots. -/
structure Inv₁ (size : ℕ) (s : State Unit T) : Prop where
  inv : Inv s
  cons : Cons s
  size_eq : s.size = size + 1

theorem Step.size_eq {s s' : State Unit T} {a : Act Unit T} (h : Step s a s') : s'.size = s.size := by
  cases h <;> rfl

theorem Inv₁.step {size : ℕ} {s s' : State Unit T} {a : Act Unit T} (h : Inv₁ size s)
    (hs : Step s a s') : Inv₁ size s' :=
  ⟨h.inv.step (h.cons.safe a) hs, h.cons.step h.inv hs, hs.size_eq.trans h.size_eq⟩

/-! ## The moments -/

/-- The test of `Single_Push` that finds the queue full is about the moment at which `m_read_idx` was
read. -/
structure NotFull (size : ℕ) (s : State Unit T) : Prop where
  inv : Inv₁ size s
  ret : s.prod ≠ .done false
  test : ∀ x r, s.prod = .write x r → getIdx s.size (s.writeIdx + 1) ≠ getIdx s.size r

theorem NotFull.step {size : ℕ} {s s' : State Unit T} {a : Act Unit T} (h : NotFull size s)
    (ha : ∀ y, a ≠ .push y) (hs : Step s a s') :
    s.accepted.length = s.returned.length + size ∨ NotFull size s' := by
  have hi := h.inv.step hs
  cases hs with
  | push x _ => exact absurd rfl (ha x)
  | pushRead x hp =>
    refine or_iff_not_imp_left.mpr fun hne => ⟨hi, by simp [State.goProd], fun y r hy => ?_⟩
    cases hy
    have hle := h.inv.inv.le
    have hsize := h.inv.size_eq
    change getIdx s.size (s.writeIdx + 1) ≠ getIdx s.size s.readIdx
    rw [h.inv.inv.write, getIdx_succ h.inv.inv.size, h.inv.inv.read, getIdx_mod h.inv.inv.size,
      ← Nat.add_mod_right s.returned.length]
    intro he
    have := slot_inj (r := s.returned.length + 1) (by omega) (by omega) (by omega) (by omega) he
    omega
  | full x r hp he => exact absurd he (h.test x r hp)
  | room x r _ _ => exact .inr ⟨hi, by simp [State.goProd], by simp [State.goProd]⟩
  | store x w w' _ => exact .inr ⟨hi, by simp [State.store], by simp [State.store]⟩
  | old x w' _ => exact .inr ⟨hi, by simp [State.goProd], by simp [State.goProd]⟩
  | publish x o w' _ _ => exact .inr ⟨hi, by simp [State.publish], by simp [State.publish]⟩
  | lost x o w' _ _ => exact .inr ⟨hi, by simp [State.goProd], by simp [State.goProd]⟩
  | pop | popRead | empty | nonempty | copy | take | retry => exact .inr ⟨hi, h.ret, h.test⟩

/-- The test of `Single_Pop` that finds the queue empty is about that moment. -/
structure NotEmpty (size : ℕ) (s : State Unit T) : Prop where
  inv : Inv₁ size s
  ret : s.pc () ≠ .done false

theorem NotEmpty.step {size : ℕ} {s s' : State Unit T} {a : Act Unit T} (h : NotEmpty size s)
    (hs : Step s a s') : s.accepted.length = s.returned.length ∨ NotEmpty size s' := by
  have hi := h.inv.step hs
  cases hs with
  | push | pushRead | full | room | store | old | publish | lost => exact .inr ⟨hi, h.ret⟩
  | pop t _ => exact .inr ⟨hi, by simp [State.goto]⟩
  | popRead t _ => exact .inr ⟨hi, by simp [State.goto]⟩
  | empty t r hp hr =>
    have hc := h.inv.cons
    simp only [Cons, hp] at hc
    exact .inl (h.inv.inv.read_eq_write.mp (hc.trans hr)).symm
  | nonempty t r _ _ => exact .inr ⟨hi, by simp [State.goto]⟩
  | copy t r _ => exact .inr ⟨hi, by simp [State.goto]⟩
  | take t r v g _ _ => exact .inr ⟨hi, by simp [State.take, State.goto]⟩
  | retry t r v g _ _ => exact .inr ⟨hi, by simp [State.goto]⟩

theorem returned_eq_taken {s s' : State Unit T} {l : List (Act Unit T)} (hr : run next s l = some s') :
    s'.returned = s.returned ++ taken () s l := by
  induction l generalizing s with
  | nil =>
    cases hr
    exact (List.append_nil _).symm
  | cons a l ih =>
    obtain ⟨u, hu, hr⟩ := Option.bind_eq_some_iff.mp hr
    rw [ih hr, returned_of_step (step_of_next hu), taken_cons hu, List.append_assoc]
    cases a <;> rfl

theorem Results.pop_one {s s₁ s' : State Unit T} {l : List (Act Unit T)} {ret : Bool} (h : Results s)
    (hn : next s (.pop ()) = some s₁) (hl : Act.pop () ∉ l) (hr : run next s₁ l = some s')
    (hd : s'.pc () = .done ret) :
    (taken () s₁ l).length = ret.toNat ∧ s'.returned = s.returned ++ taken () s₁ l := by
  refine ⟨(h.pop () l s₁ s' ret hn hl hr hd).1, ?_⟩
  rw [returned_eq_taken hr, returned_of_step (step_of_next hn)]
  simp only [taking, List.append_nil]

theorem Inv₁.boundedFifo {size : ℕ} {s : State Unit T} (h : Inv₁ size s) (hres : Results s) :
    BoundedFifo size s where
  order := h.inv.delivered.values
  bound := by
    have := h.inv.le
    have := h.size_eq
    omega
  apart x w w' r hp hc := by
    have hown := h.inv.own
    simp only [Own, hp] at hown
    have hcons := h.cons
    simp only [Cons, hc] at hcons
    rw [hown.1, ← h.inv.write]
    exact Ne.symm hcons.2
  publishes := hres.publishes
  pushTrue x l s₁ s' hn hl hr hd := hres.push x l s₁ s' true hn hl hr hd
  pushFalse x l s₁ s' hn hl hr hd := by
    refine ⟨(hres.push x l s₁ s' false hn hl hr hd).trans (List.append_nil _), ?_⟩
    have hs := step_of_next hn
    have h₁ : NotFull size s₁ := by
      cases hs
      exact ⟨h.step (.push x ‹_›), by simp [State.goProd], by simp [State.goProd]⟩
    refine (moment_or (fun a => ∀ y, a ≠ Act.push y) h₁
      (fun u a v hu ha hv => hu.step ha (step_of_next hv)) (fun a ha y he => ?_) hr).resolve_right
        fun h' => h'.ret hd
    subst he
    exact hl y ha
  popTrue l s₁ s' hn hl hr hd := by
    obtain ⟨hlen, hret⟩ := hres.pop_one hn hl hr hd
    obtain ⟨⟨v, g⟩, hone⟩ := List.length_eq_one_iff.mp hlen
    exact ⟨v, g, hone, hone ▸ hret⟩
  popFalse l s₁ s' hn hl hr hd := by
    obtain ⟨hlen, hret⟩ := hres.pop_one hn hl hr hd
    refine ⟨by rw [hret, List.eq_nil_of_length_eq_zero hlen, List.append_nil], ?_⟩
    have hs := step_of_next hn
    have h₁ : NotEmpty size s₁ := by
      cases hs
      exact ⟨h.step (.pop () ‹_›), by simp [State.goto]⟩
    exact (moment_or (fun _ => True) h₁ (fun u a v hu _ hv => hu.step (step_of_next hv))
      (fun _ _ => trivial) hr).resolve_right fun h' => h'.ret hd

/-- **One producer and one consumer**: the queue is a bounded queue, failures included. -/
theorem boundedFifo_of_reach (data : ℕ → T) (size : ℕ) (hs : size < 2 ^ 32 - 1) {q : LockFreeQueue T}
    (hq : LockFreeQueue.init data size = some q) {s : State Unit T}
    (h : Reach next (.ofQueue q) s) : BoundedFifo size s := by
  obtain ⟨hi, hsize⟩ : Inv (.ofQueue q : State Unit T) ∧ _ := inv_ofQueue hs hq
  have h₁ : Inv₁ size s := Reach.inv h ⟨hi, trivial, hsize⟩
    fun _ _ _ h₁ hn => h₁.step (step_of_next hn)
  exact h₁.boundedFifo (results_of_reach h)

/-- Two calls that succeed and two that fail, on a queue of size one. -/
theorem boundedFifo_of_reach_one : ∃ q : LockFreeQueue ℕ, LockFreeQueue.init (fun _ => 0) 1 = some q ∧
    ∃ s : State Unit ℕ, Reach next (.ofQueue q) s ∧ s.accepted = [10] ∧ s.returned = [(10, some 0)] ∧
      s.prod = .done false ∧ s.pc () = .done false ∧ BoundedFifo 1 s := by
  have hr : (run next (.ofQueue ⟨0, 0, 0, 2, fun _ => 0⟩ : State Unit ℕ)
      (pushing 10 ++ (pushing 20).take 3 ++ popping () ++ (popping ()).take 3)).map
        (fun s => (s.accepted, s.returned, s.prod, s.pc ())) =
          some ([10], [(10, some 0)], .done false, .done false) := by
    decide
  refine ⟨_, init_one, ?_⟩
  obtain ⟨s, hs, h⟩ := Reach.of_run_map hr
  simp only [Prod.mk.injEq] at h
  obtain ⟨hacc, hret, hprod, hpc⟩ := h
  exact ⟨s, hs, hacc, hret, hprod, hpc, boundedFifo_of_reach (fun _ => 0) 1 (by decide) init_one hs⟩

end Backend.LockFree.Single
