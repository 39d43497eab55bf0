import Backend.Loader.Model

/-!
# `DynamicLoader`: nobody's instance is released

Readers are attributed to an instance by comparing pointers when they give it back, and the
counters are swapped together with the pointers. The counters are `uint32_t`: as long as no
`GetWorkInstance` lets `m_work_instance_num` overflow, they count the readers.

* `Inv`, `Inv.step`: the invariant;
* `Grace`: what holds in every reachable state;
* `getMany`, **`not_grace_of_overflow`**: after `2 ^ 32` references that have not been given back
  the counter is `0` and the instance is released under its readers;
* **`grace_of_reach`**: without an overflow no instance is released under a reader.
-/

set_option autoImplicit false

namespace Backend.Loader

variable {ι P : Type} [DecidableEq ι] [DecidableEq P]

/-- The number of references to `p` that readers hold. -/
def State.holders (s : State ι P) (p : Option P) : ℕ := (s.held.map Prod.snd).count p

theorem holders_erase {l : List (ι × Option P)} {t : ι} {p : Option P} (h : (t, p) ∈ l)
    (q : Option P) : ((l.erase (t, p)).map Prod.snd).count q + (if p = q then 1 else 0) =
      (l.map Prod.snd).count q := by
  rw [((List.perm_cons_erase h).map Prod.snd).count_eq q, List.map_cons, List.count_cons]
  simp only [beq_iff_eq]

omit [DecidableEq ι] in
theorem holders_pos {s : State ι P} {t : ι} {p : Option P} (h : (t, p) ∈ s.held) :
    0 < s.holders p := List.count_pos_iff.mpr (List.mem_map.mpr ⟨(t, p), h, rfl⟩)

omit [DecidableEq ι] in
theorem holders_eq_zero {s : State ι P} {p : Option P} (h : ∀ x ∈ s.held, x.2 ≠ p) :
    s.holders p = 0 := by
  refine List.count_eq_zero.mpr fun hm => ?_
  obtain ⟨x, hx, he⟩ := List.mem_map.mp hm
  exact h x hx he

theorem decr_eq {n : ℕ} (h0 : 0 < n) (h : n < 2 ^ 32) : decr n = n - 1 := by
  unfold decr
  omega

/-- The invariant of the loader. -/
structure Inv (s : State ι P) : Prop where
  workNum : s.workNum = s.holders s.work
  loadNum : s.loadNum = if s.pc.swapped then s.holders s.load else 0
  lt : s.workNum < 2 ^ 32 ∧ s.loadNum < 2 ^ 32
  mem : ∀ x ∈ s.held, x.2 = s.work ∨ s.pc.swapped = true ∧ x.2 = s.load
  ne : s.pc ≠ .idle → s.load ≠ s.work
  temp : ∀ temp, s.pc = .swap temp → temp = s.work
  drained : s.pc = .release → s.loadNum = 0

omit [DecidableEq ι] in
theorem inv_new : Inv (State.new : State ι P) where
  workNum := rfl
  loadNum := rfl
  lt := by simp [State.new]
  mem x hx := by simp [State.new] at hx
  ne h := absurd rfl h
  temp _ h := by cases h
  drained _ := rfl

omit [DecidableEq ι] in
theorem Inv.eq_work {s : State ι P} (h : Inv s) (hp : s.pc.swapped = false) :
    ∀ x ∈ s.held, x.2 = s.work := by
  intro x hx
  rcases h.mem x hx with h1 | ⟨h1, -⟩
  · exact h1
  · rw [hp] at h1; cases h1

omit [DecidableEq ι] in
theorem Inv.not_held {s : State ι P} (h : Inv s) (hp : s.pc = .release) :
    ∀ x ∈ s.held, x.2 ≠ s.load := by
  intro x hx he
  have h1 := h.loadNum
  rw [h.drained hp, hp] at h1
  have h2 := holders_pos (s := s) (t := x.1) (p := s.load) (by rw [← he]; exact hx)
  simp only [Pc.swapped, if_true] at h1
  omega

omit [DecidableEq ι] in
theorem Inv.get {s : State ι P} (h : Inv s) (t : ι) (hlt : s.workNum + 1 < 2 ^ 32) :
    Inv (s.getWorkInstance t) where
  workNum := by
    have := h.workNum
    simp only [State.getWorkInstance, State.holders, incr, List.map_cons, List.count_cons_self] at *
    rw [Nat.mod_eq_of_lt hlt, this]
  loadNum := by
    have h1 := h.loadNum
    simp only [State.getWorkInstance, State.holders, List.map_cons] at *
    by_cases hp : s.pc.swapped = true
    · have hne : s.work ≠ s.load := Ne.symm (h.ne fun e => by rw [e] at hp; cases hp)
      rw [if_pos hp] at h1 ⊢
      rw [List.count_cons_of_ne hne, h1]
    · rw [if_neg hp] at h1 ⊢
      exact h1
  lt := ⟨by simp only [State.getWorkInstance, incr]; exact Nat.mod_lt _ (by decide), h.lt.2⟩
  mem x hx := by
    rcases List.mem_cons.mp hx with rfl | hx
    · exact Or.inl rfl
    · exact h.mem x hx
  ne := h.ne
  temp := h.temp
  drained := h.drained

theorem Inv.put {s : State ι P} (h : Inv s) {t : ι} {p : Option P} (hm : (t, p) ∈ s.held) :
    Inv (s.releaseWorkInstance t p) := by
  have hc : ∀ q, ((s.held.erase (t, p)).map Prod.snd).count q + (if p = q then 1 else 0) =
      s.holders q := holders_erase hm
  have hpos := holders_pos hm
  have hsub : ∀ x ∈ s.held.erase (t, p), x ∈ s.held := fun x hx => List.mem_of_mem_erase hx
  have hw := h.workNum
  have hl := h.loadNum
  have hlt := h.lt
  unfold State.releaseWorkInstance
  split_ifs with h1 h2
  · subst h1
    have hne : s.pc.swapped = true → s.work ≠ s.load := fun hp =>
      Ne.symm (h.ne fun e => by rw [e] at hp; cases hp)
    have e1 := hc s.work
    have e2 := hc s.load
    rw [if_pos rfl] at e1
    refine ⟨?_, ?_, ?_, fun x hx => h.mem x (hsub x hx), h.ne, h.temp, h.drained⟩
    · simp only [State.holders]
      rw [decr_eq (by omega) hlt.1]
      omega
    · simp only [State.holders]
      split_ifs at hl ⊢ with hp
      · rw [if_neg (hne hp)] at e2
        omega
      · exact hl
    · simp only
      rw [decr_eq (by omega) hlt.1]
      omega
  · subst h2
    have hp : s.pc.swapped = true := ((h.mem _ hm).resolve_left h1).1
    have e1 := hc s.work
    have e2 := hc s.load
    rw [if_neg h1] at e1
    rw [if_pos rfl] at e2
    rw [if_pos hp] at hl
    refine ⟨?_, ?_, ?_, fun x hx => h.mem x (hsub x hx), h.ne, h.temp, fun hr => ?_⟩
    · simp only [State.holders]
      omega
    · simp only [State.holders]
      rw [if_pos hp, decr_eq (by omega) hlt.2]
      omega
    · simp only
      rw [decr_eq (by omega) hlt.2]
      omega
    · have := h.drained hr
      omega
  · exact absurd (h.mem _ hm) (by simp [h1, h2])

omit [DecidableEq ι] in
theorem Inv.swap {s : State ι P} (h : Inv s) {temp : Option P} (hp : s.pc = .swap temp) :
    Inv (s.swap temp) := by
  have ht := h.temp temp hp
  have hall := h.eq_work (by rw [hp]; rfl)
  have hne := h.ne (by rw [hp]; nofun)
  subst ht
  refine ⟨?_, ?_, ⟨by simp [State.swap], h.lt.1⟩, fun x hx => Or.inr ⟨rfl, hall x hx⟩,
    fun _ => Ne.symm hne, nofun, nofun⟩
  · exact (holders_eq_zero (s := s) fun x hx he => hne (he.symm.trans (hall x hx))).symm
  · exact h.workNum

omit [DecidableEq ι] in
theorem Inv.release {s : State ι P} (h : Inv s) (hp : s.pc = .release) : Inv s.release := by
  have hnot := h.not_held hp
  have hall : ∀ x ∈ s.held, x.2 = s.work := fun x hx =>
    (h.mem x hx).resolve_right fun e => hnot x hx e.2
  unfold State.release
  split
  all_goals
    exact ⟨h.workNum, h.drained hp, h.lt, fun x hx => Or.inl (hall x hx), fun e => absurd rfl e,
      nofun, nofun⟩

/-- The step does not let `m_work_instance_num` overflow. -/
def NoOverflow (s : State ι P) (a : Act ι P) : Prop := ∀ t, a = .get t → s.workNum + 1 < 2 ^ 32

theorem Inv.step {s s' : State ι P} {a : Act ι P} (h : Inv s) (ha : NoOverflow s a)
    (hs : Step s a s') : Inv s' := by
  cases hs with
  | get t => exact h.get t (ha t rfl)
  | put t p hm => exact h.put hm
  | load p hp hne =>
    have hl := h.loadNum
    have hall := h.eq_work (by rw [hp]; rfl)
    rw [hp] at hl
    exact ⟨h.workNum, hl, h.lt, fun x hx => Or.inl (hall x hx), fun _ => hne,
      nofun, nofun⟩
  | loadFail hp => exact h
  | temp hp =>
    have hl := h.loadNum
    have hall := h.eq_work (by rw [hp]; rfl)
    rw [hp] at hl
    refine ⟨h.workNum, hl, h.lt, fun x hx => Or.inl (hall x hx),
      fun _ => h.ne (by rw [hp]; nofun), fun q e => ?_, nofun⟩
    cases e
    rfl
  | swap temp hp => exact h.swap hp
  | drained hp h0 =>
    have hl := h.loadNum
    rw [hp] at hl
    refine ⟨h.workNum, hl, h.lt, fun x hx => ?_,
      fun _ => h.ne (by rw [hp]; nofun), nofun, fun _ => h0⟩
    rcases h.mem x hx with e | e
    · exact Or.inl e
    · exact Or.inr ⟨rfl, e.2⟩
  | spin hp h0 => exact h
  | release hp => exact h.release hp

/-! ## What readers and the loader see -/

/-- The counters count, nobody holds a stale pointer, and no instance is released in use. -/
structure Grace (s : State ι P) : Prop where
  /-- `m_work_instance_num` is the number of references to the work instance -/
  workNum : s.workNum = s.holders s.work
  /-- `m_load_instance_num` is `0` outside the interval between a swap and the end of that
  `LoadInstance`, and inside it the number of references to the swapped-out instance -/
  loadNum : (s.pc.swapped = false → s.loadNum = 0) ∧
    (s.pc.swapped = true → s.loadNum = s.holders s.load)
  held : ∀ x ∈ s.held, x.2 = s.work ∨ s.pc.swapped = true ∧ x.2 = s.load
  /-- `ReleaseWorkInstance` on a held pointer decrements a counter that is not `0` -/
  decr : ∀ x ∈ s.held, (x.2 = s.work → 0 < s.workNum) ∧
    (x.2 ≠ s.work → x.2 = s.load ∧ 0 < s.loadNum)
  /-- `ReleaseInstance` is called at the end of `LoadInstance`, on an instance no reader holds -/
  freed : ∀ a s', next s a = some s' → s'.freed ≠ s.freed →
    s.pc = .release ∧ ∃ p, s.load = some p ∧ s'.freed = s.freed ++ [p] ∧
      ∀ x ∈ s.held, x.2 ≠ some p

theorem Step.freed_eq {s s' : State ι P} {a : Act ι P} (h : Step s a s') :
    s'.freed = s.freed ∨ s.pc = .release ∧ ∃ p, s.load = some p ∧ s'.freed = s.freed ++ [p] := by
  cases h with
  | put t p hm =>
    left
    unfold State.releaseWorkInstance
    split_ifs <;> rfl
  | release hp =>
    unfold State.release
    split
    · exact Or.inl rfl
    · exact Or.inr ⟨hp, _, ‹_›, rfl⟩
  | _ => exact Or.inl rfl

theorem Inv.grace {s : State ι P} (h : Inv s) : Grace s where
  workNum := h.workNum
  loadNum := by
    have := h.loadNum
    exact ⟨fun hp => by rwa [if_neg (by rw [hp]; exact Bool.false_ne_true)] at this,
      fun hp => by rwa [if_pos hp] at this⟩
  held := h.mem
  decr x hx := by
    refine ⟨fun he => ?_, fun hne => ?_⟩
    · rw [h.workNum, ← he]
      exact holders_pos (t := x.1) hx
    · obtain ⟨hp, he⟩ := (h.mem x hx).resolve_left hne
      have hl := h.loadNum
      rw [if_pos hp, ← he] at hl
      exact ⟨he, hl ▸ holders_pos (t := x.1) hx⟩
  freed a s' hn hne := by
    obtain ⟨hp, p, hl, he⟩ := (step_of_next hn).freed_eq.resolve_left hne
    refine ⟨hp, p, hl, he, fun x hx => ?_⟩
    rw [← hl]
    exact h.not_held hp x hx

/-- **No instance is released under a reader** in any run whose calls of `GetWorkInstance` do not
let the counter overflow. -/
theorem grace_of_reach {s : State ι P} (h : ReachIf next NoOverflow State.new s) : Grace s :=
  (h.inv inv_new fun _ _ _ hi ha hn => hi.step ha (step_of_next hn)).grace

/-- A reader of the first instance outlives the swap to the second one, which waits for it. -/
theorem grace_of_reach_two : ∃ s : State ℕ ℕ, ReachIf next NoOverflow State.new s ∧ s.work = some 2 ∧
    s.load = some 1 ∧ s.loadNum = 1 ∧ Grace s := by
  obtain ⟨s, hs, h1, h2, h3⟩ : ∃ s : State ℕ ℕ, ReachIf next NoOverflow State.new s ∧ s.work = some 2 ∧
      s.load = some 1 ∧ s.loadNum = 1 :=
    ⟨_, ReachIf.of_run (ReachIf.refl _)
      (l := [.load (some 1), .temp, .swap, .test, .release, .get 0, .load (some 2), .temp, .swap])
      ⟨nofun, nofun, nofun, nofun, nofun, fun _ _ => by decide, nofun, nofun, nofun, trivial⟩ rfl, rfl, rfl, rfl⟩
  exact ⟨s, hs, h1, h2, h3, grace_of_reach hs⟩

/-! ## Overflow -/

/-- `n` calls of `GetWorkInstance` by reader `t`. -/
def State.getMany (s : State ι P) (t : ι) (n : ℕ) : State ι P :=
  { s with workNum := (s.workNum + n) % 2 ^ 32, held := List.replicate n (t, s.work) ++ s.held }

theorem reach_getMany {s₀ s : State ι P} (h : Reach next s₀ s) (hlt : s.workNum < 2 ^ 32) (t : ι)
    (n : ℕ) : Reach next s₀ (s.getMany t n) := by
  induction n with
  | zero =>
    rw [State.getMany, Nat.add_zero, Nat.mod_eq_of_lt hlt]
    exact h
  | succ n ih =>
    refine ReachIf.tail ih (a := .get t) trivial (congrArg some ?_)
    simp only [State.getMany, State.getWorkInstance, incr, Nat.mod_add_mod, Nat.add_assoc,
      List.replicate_succ, List.cons_append]

/-- **After `2 ^ 32` references the counter is `0`**: the loader swaps the instance out, finds the
counter at `0` and is about to release the instance under its readers. -/
theorem not_grace_of_overflow : ∃ s : State ℕ ℕ, Reach next State.new s ∧ s.pc = .release ∧
    s.load = some 1 ∧ (0, some 1) ∈ s.held ∧ ¬ Grace s := by
  have h1 : Reach next State.new (⟨some 1, none, 0, 0, .idle, [], []⟩ : State ℕ ℕ) :=
    Reach.of_run (l := [.load (some 1), .temp, .swap, .test, .release]) rfl
  have h2 := reach_getMany h1 (by decide) 0 (2 ^ 32)
  have h3 : Reach next State.new (⟨some 2, some 1, 0, 0, .release,
      List.replicate (2 ^ 32) (0, some 1) ++ [], []⟩ : State ℕ ℕ) :=
    ReachIf.of_run (l := [.load (some 2), .temp, .swap, .test]) h2 (meets_true _ _) rfl
  have hmem : (0, some 1) ∈ List.replicate (2 ^ 32) (0, some 1) ++ ([] : List (ℕ × Option ℕ)) := by
    rw [List.append_nil]
    exact List.mem_replicate.mpr ⟨by decide, rfl⟩
  refine ⟨_, h3, rfl, rfl, hmem, fun hg => ?_⟩
  have := hg.decr _ hmem
  simp at this

end Backend.Loader
