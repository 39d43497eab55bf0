import Backend.LockFree.Single

/-!
# What `Single_Push` and `Single_Pop` return

* `Publishes`: only the producer writes `m_write_idx`, so that its compare-and-swap succeeds;
* `taking`, `taken`: the items that are taken in a step, and by a consumer in a run;
* `Results`, **`results_of_reach`**: a call that returns `true` has published its item or taken one, and a call that
  returns `false` has not.
-/

set_option autoImplicit false
set_option linter.unusedSectionVars false

namespace Backend.LockFree.Single

open Function

variable {ι T : Type} [DecidableEq ι] {s s' : State ι T} {a : Act ι T} {l : List (Act ι T)} {t : ι}

/-! ## The producer -/

/-- `m_write_idx` is the one that the producer has read for its compare-and-swap. -/
def Publishes (s : State ι T) : Prop := ∀ x o w', s.prod = .cas x o w' → s.writeIdx = o

theorem Publishes.step (h : Publishes s) (hs : Step s a s') : Publishes s' := by
  cases hs with
  | old x w' _ =>
    intro y o w hp
    cases hp
    rfl
  | push | pushRead | full | room | store | publish | lost =>
    intro y o w hp
    cases hp
  | pop | popRead | empty | nonempty | copy | take | retry => exact h

theorem publishes_of_reach {q : LockFreeQueue T} (h : Reach next (.ofQueue q) s) : Publishes s := by
  refine Reach.inv h (fun x o w' hp => ?_) fun _ _ _ hi hn => hi.step (step_of_next hn)
  cases hp

/-- The call `Single_Push(x)` is in progress or has returned; `acc` was accepted before it. -/
def Pushing (acc : List T) (x : T) (s : State ι T) : Prop :=
  match s.prod with
  | .idle => False
  | .read y | .write y _ | .store y _ _ | .old y _ | .cas y _ _ => y = x ∧ s.accepted = acc
  | .done ret => s.accepted = acc ++ if ret then [x] else []

theorem Pushing.step {acc : List T} {x : T} (hp : Publishes s) (h : Pushing acc x s) (ha : ∀ y, a ≠ .push y)
    (hs : Step s a s') : Pushing acc x s' := by
  unfold Pushing at h
  cases hs with
  | push y _ => exact absurd rfl (ha y)
  | pushRead y hy => rw [hy] at h; exact h
  | full y r hy _ => rw [hy] at h; exact h.2.trans (List.append_nil acc).symm
  | room y r hy _ => rw [hy] at h; exact h
  | store y w w' hy => rw [hy] at h; exact h
  | old y w' hy => rw [hy] at h; exact h
  | publish y o w' hy _ =>
    rw [hy] at h
    obtain ⟨rfl, rfl⟩ := h
    rfl
  | lost y o w' hy hne => exact absurd (hp y o w' hy) hne
  | pop | popRead | empty | nonempty | copy | take | retry => exact h

theorem Pushing.run {acc : List T} {x : T} (hp : Publishes s) (h : Pushing acc x s) (hl : ∀ y, Act.push y ∉ l)
    (hr : run next s l = some s') : Pushing acc x s' := by
  induction l generalizing s with
  | nil =>
    cases hr
    exact h
  | cons a l ih =>
    obtain ⟨u, hu, hr⟩ := Option.bind_eq_some_iff.mp hr
    have hs := step_of_next hu
    have ha : ∀ y, a ≠ .push y := fun y he => hl y (he ▸ List.mem_cons_self)
    exact ih (hp.step hs) (h.step hp ha hs) (fun y hy => hl y (List.mem_cons_of_mem _ hy)) hr

/-! ## The consumers -/

/-- The item taken in a step: the one that the thread holds, when its compare-and-swap succeeds. -/
def taking (s : State ι T) : Act ι T → List (T × Option ℕ)
  | .cons t => match s.pc t with
    | .cas r v g => if s.readIdx = r then [(v, g)] else []
    | _ => []
  | _ => []

/-- The step is one of consumer `t`. -/
def Act.ofCons (t : ι) : Act ι T → Bool
  | .cons u => u = t
  | _ => false

/-- The items that `t` takes in the run of `l`. -/
def taken (t : ι) : State ι T → List (Act ι T) → List (T × Option ℕ)
  | _, [] => []
  | s, a :: l => (if a.ofCons t then taking s a else []) ++ match next s a with
    | none => []
    | some s' => taken t s' l

theorem taken_cons (h : next s a = some s') :
    taken t s (a :: l) = (if a.ofCons t then taking s a else []) ++ taken t s' l := by
  rw [taken, h]

theorem returned_of_step (hs : Step s a s') : s'.returned = s.returned ++ taking s a := by
  cases hs with
  | take t r v g hp hr =>
    simp only [taking, hp, if_pos hr]
    rfl
  | retry t r v g hp hr =>
    simp only [taking, hp, if_neg hr, List.append_nil]
    rfl
  | popRead t hp => simp [taking, hp, State.goto]
  | empty t r hp _ => simp [taking, hp, State.goto]
  | nonempty t r hp _ => simp [taking, hp, State.goto]
  | copy t r hp => simp [taking, hp, State.goto]
  | push | pushRead | full | room | store | old | publish | lost | pop => exact (List.append_nil _).symm

theorem returned_of_run (t : ι) (hr : run next s l = some s') :
    ∃ rest, s'.returned = s.returned ++ rest ∧ (taken t s l).Sublist rest := by
  induction l generalizing s with
  | nil =>
    cases hr
    exact ⟨[], (List.append_nil _).symm, List.Sublist.refl _⟩
  | cons a l ih =>
    obtain ⟨u, hu, hr⟩ := Option.bind_eq_some_iff.mp hr
    obtain ⟨rest, hrest, hsub⟩ := ih hr
    refine ⟨taking s a ++ rest, ?_, ?_⟩
    · rw [hrest, returned_of_step (step_of_next hu), List.append_assoc]
    · rw [taken_cons hu]
      refine List.Sublist.append ?_ hsub
      split
      · exact List.Sublist.refl _
      · exact List.nil_sublist _

/-- Has returned `true`. -/
def PopPc.gave : PopPc T → ℕ
  | .done true => 1
  | _ => 0

theorem length_taking (ha : a ≠ .pop t) (hs : Step s a s') :
    (if a.ofCons t then taking s a else []).length + (s.pc t).gave = (s'.pc t).gave := by
  have move : ∀ {u : ι} {c : PopPc T}, (taking s (.cons u)).length + (s.pc u).gave = c.gave →
      (if (Act.cons u : Act ι T).ofCons t then taking s (.cons u) else []).length + (s.pc t).gave =
        (update s.pc u c t).gave := by
    intro u c hc
    by_cases hut : u = t
    · subst hut
      have hown : (Act.cons u : Act ι T).ofCons u = true := decide_eq_true rfl
      rwa [update_self, if_pos hown]
    · rw [update_of_ne fun he => hut he.symm, if_neg (by simpa [Act.ofCons] using hut), List.length_nil, Nat.zero_add]
  cases hs with
  | popRead u hp => exact move (by simp [taking, hp, PopPc.gave])
  | empty u r hp _ => exact move (by simp [taking, hp, PopPc.gave])
  | nonempty u r hp _ => exact move (by simp [taking, hp, PopPc.gave])
  | copy u r hp => exact move (by simp [taking, hp, PopPc.gave])
  | take u r v g hp hr => exact move (by simp [taking, hp, hr, PopPc.gave])
  | retry u r v g hp hr => exact move (by simp [taking, hp, hr, PopPc.gave])
  | pop u _ =>
    have hut : t ≠ u := fun he => ha (he ▸ rfl)
    show 0 + _ = (update s.pc u .read t).gave
    rw [update_of_ne hut, Nat.zero_add]
  | push | pushRead | full | room | store | old | publish | lost => exact Nat.zero_add _

theorem length_taken (hl : Act.pop t ∉ l) (hr : run next s l = some s') :
    (taken t s l).length + (s.pc t).gave = (s'.pc t).gave := by
  induction l generalizing s with
  | nil =>
    cases hr
    exact Nat.zero_add _
  | cons a l ih =>
    obtain ⟨u, hu, hr⟩ := Option.bind_eq_some_iff.mp hr
    rw [List.mem_cons, not_or] at hl
    have hstep := length_taking (Ne.symm hl.1) (step_of_next hu)
    have hrest := ih hl.2 hr
    rw [taken_cons hu, List.length_append]
    omega

/-! ## The results -/

/-- What the results of the calls say: the compare-and-swap of `Single_Push` never fails; a call of `Single_Push` has
published its item if it returns `true`, and nothing otherwise; a call of `Single_Pop` has taken one item if it returns
`true`, and none otherwise. A call is in progress until the next one. -/
structure Results (s : State ι T) : Prop where
  publishes : Publishes s
  push : ∀ x l s₁ s' ret, next s (.push x) = some s₁ → (∀ y, Act.push y ∉ l) → run next s₁ l = some s' →
    s'.prod = .done ret → s'.accepted = s.accepted ++ if ret then [x] else []
  pop : ∀ t l s₁ s' ret, next s (.pop t) = some s₁ → Act.pop t ∉ l → run next s₁ l = some s' →
    s'.pc t = .done ret → (taken t s₁ l).length = ret.toNat ∧
      ∃ rest, s'.returned = s.returned ++ rest ∧ (taken t s₁ l).Sublist rest

theorem Publishes.results (h : Publishes s) : Results s where
  publishes := h
  push x l s₁ s' ret hn hl hr hd := by
    have hs := step_of_next hn
    have h₁ : Pushing s.accepted x s₁ := by
      cases hs
      exact ⟨rfl, rfl⟩
    have := h₁.run (h.step hs) hl hr
    rw [Pushing, hd] at this
    exact this
  pop t l s₁ s' ret hn hl hr hd := by
    have hs := step_of_next hn
    have h₁ : (s₁.pc t).gave = 0 ∧ s₁.returned = s.returned := by
      cases hs
      exact ⟨by simp [State.goto, PopPc.gave], rfl⟩
    refine ⟨?_, h₁.2 ▸ returned_of_run t hr⟩
    have := length_taken hl hr
    rw [h₁.1, hd, Nat.add_zero] at this
    rw [this]
    cases ret <;> rfl

/-- **The results of the calls**, in every run. -/
theorem results_of_reach {q : LockFreeQueue T} (h : Reach next (.ofQueue q) s) : Results s :=
  (publishes_of_reach h).results

end Backend.LockFree.Single
