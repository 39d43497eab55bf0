import Backend.Foxea.Http

/-!
# Which HTTP requests are answered once and woken

The event thread waits for one request at a time. A request without a URI is answered by one error
and its session is notified. A request with a URI is either answered twice (`evhttp_uri_parse` fails)
or not answered and not notified at all (the branch reserved for business handlers).

* `Answered`: no lost wake-up and at most one reply for each request;
* `Phase`, `Inv`, `Inv.step`: where the current request is;
* **`answered_of_reach`**: runs in which no request has a URI;
* **`not_answered_of_uri`**: one request with a URI, for either outcome of `evhttp_uri_parse`.
-/

set_option autoImplicit false

namespace Backend.Foxea.Http

open Function

/-- No lost wake-up: the session that the event thread waits for has a positive semaphore, is queued
or is inside `ParseAndDistribute`. And at most one reply is issued for each request. -/
structure Answered (s : State) : Prop where
  awake : ∀ i, s.handler = .wait i →
    0 < s.sem i ∨ i ∈ s.queue.items ∨ s.dist.inside = some i
  once : ∀ r, (s.replies.map Prod.fst).count (some r) ≤ 1

/-- `evhttp_request_get_uri` returns `NULL`. -/
def NoUri (_ : State) : Act → Prop
  | .uri (some _) => False
  | _ => True

instance (s : State) : ∀ a, Decidable (NoUri s a)
  | .uri (some _) => isFalse id
  | .uri none | .request | .handler | .fail | .dist | .timeout | .parse _ | .path _ | .stop =>
    isTrue trivial

/-! ## The current request -/

/-- Outside `ParseAndDistribute`. -/
def Dist.outside : Dist → Bool
  | .test | .count | .pop | .release _ | .returned => true
  | _ => false

/-- Request `r` is the last one and has no reply yet. -/
def Fresh (s : State) (r : ℕ) : Prop :=
  r + 1 = s.calls ∧ ∀ x ∈ s.replies, ∃ q, x.1 = some q ∧ q < r

/-- The event thread before its wait. -/
def Before (s : State) : Prop :=
  match s.handler with
  | .idle | .failed _ | .aborted => True
  | .get r | .fill r _ => Fresh s r
  | .push i => ∃ r, s.req i = some r ∧ Fresh s r
  | .wait _ => False

/-- Where the current request is: with the event thread, in the queue, in `ParseAndDistribute` before
and after its reply, or notified. -/
inductive Phase (s : State) : Prop
  | before : Before s → s.queue.items = [] → s.dist.outside = true → (∀ j, s.sem j = 0) → Phase s
  | queued (i r : ℕ) : s.handler = .wait i → s.queue.items = [i] → s.dist.outside = true →
      (∀ j, s.sem j = 0) → s.req i = some r → Fresh s r → Phase s
  | running (i r : ℕ) : s.handler = .wait i → s.queue.items = [] →
      s.dist = .uri i (some r) ∨ s.dist = .noUri i (some r) → (∀ j, s.sem j = 0) → Fresh s r →
      Phase s
  | replied (i : ℕ) : s.handler = .wait i → s.queue.items = [] → s.dist = .notify i false →
      (∀ j, s.sem j = 0) → Phase s
  | notified (i : ℕ) : s.handler = .wait i → s.queue.items = [] → s.dist.outside = true →
      (∀ j, s.sem j = if j = i then 1 else 0) → Phase s

/-- The invariant. -/
structure Inv (s : State) : Prop where
  phase : Phase s
  lt : ∀ x ∈ s.replies, ∃ q, x.1 = some q ∧ q < s.calls
  nodup : (s.replies.map Prod.fst).Nodup

theorem Inv.answered {s : State} (h : Inv s) : Answered s where
  awake := by
    intro i hw
    cases h.phase with
    | before hb => simp [Before, hw] at hb
    | queued j r hj hq => rw [hw] at hj; cases hj; exact Or.inr (Or.inl (by simp [hq]))
    | running j r hj hq hd =>
      rw [hw] at hj
      cases hj
      rcases hd with hd | hd <;> exact Or.inr (Or.inr (by rw [hd]; rfl))
    | replied j hj hq hd => rw [hw] at hj; cases hj; exact Or.inr (Or.inr (by rw [hd]; rfl))
    | notified j hj hq hd hs => rw [hw] at hj; cases hj; exact Or.inl (by simp [hs])
  once r := List.nodup_iff_count_le_one.mp h.nodup (some r)

/-! ## The steps -/

theorem Inv.around {s : State} (h : Inv s) (ho : s.dist.outside = true) {d : Dist} (p : Fifo ℕ)
    (hd : d.outside = true) : Inv { s with pool := p, dist := d } := by
  refine ⟨?_, h.lt, h.nodup⟩
  cases h.phase with
  | before hb hq _ hs => exact .before hb hq hd hs
  | queued i r hw hq _ hs hr hf => exact .queued i r hw hq hd hs hr hf
  | running i r _ _ hr => rcases hr with hr | hr <;> rw [hr] at ho <;> cases ho
  | replied i _ _ hr => rw [hr] at ho; cases ho
  | notified i hw hq _ hs => exact .notified i hw hq hd hs

theorem Inv.move {s : State} (h : Inv s) (hb : Before s) {c : Handler} {p : Fifo ℕ}
    {req : ℕ → Option ℕ} {n : ℕ} (hn : s.calls ≤ n)
    (hc : Before { s with pool := p, req := req, handler := c, calls := n }) :
    Inv { s with pool := p, req := req, handler := c, calls := n } := by
  refine ⟨?_, fun x hx => ?_, h.nodup⟩
  · cases h.phase with
    | before _ hq hd hs => exact .before hc hq hd hs
    | queued i r hw => simp [Before, hw] at hb
    | running i r hw => simp [Before, hw] at hb
    | replied i hw => simp [Before, hw] at hb
    | notified i hw => simp [Before, hw] at hb
  · obtain ⟨q, hq, hlt⟩ := h.lt x hx
    exact ⟨q, hq, by simp only; omega⟩

theorem Inv.before {s : State} (h : Inv s) (hw : ∀ i, s.handler ≠ .wait i) : Before s := by
  cases h.phase with
  | before hb => exact hb
  | queued i r hi => exact absurd hi (hw i)
  | running i r hi => exact absurd hi (hw i)
  | replied i hi => exact absurd hi (hw i)
  | notified i hi => exact absurd hi (hw i)

/-- After a URI was found, except for the notification. -/
def Dist.decoded : Dist → Bool
  | .parse _ _ _ | .badRequest _ _ | .notFound _ _ | .path _ _ _ | .branch _ _ _ _ | .reply _ _ _
  | .free _ => true
  | _ => false

theorem Inv.not_decoded {s : State} (h : Inv s) : s.dist.decoded ≠ true := by
  cases h.phase with
  | before _ _ hd => cases hp : s.dist <;> simp_all [Dist.decoded, Dist.outside]
  | queued i r _ _ hd => cases hp : s.dist <;> simp_all [Dist.decoded, Dist.outside]
  | running i r _ _ hd => rcases hd with hd | hd <;> simp [hd, Dist.decoded]
  | replied i _ _ hd => simp [hd, Dist.decoded]
  | notified i _ _ hd => cases hp : s.dist <;> simp_all [Dist.decoded, Dist.outside]

theorem Inv.current {s : State} (h : Inv s) {i : ℕ} {r : Option ℕ}
    (hp : s.dist = .uri i r ∨ s.dist = .noUri i r) :
    ∃ q, r = some q ∧ s.handler = .wait i ∧ s.queue.items = [] ∧ (∀ j, s.sem j = 0) ∧ Fresh s q := by
  have hin : s.dist.outside = false := by rcases hp with hp | hp <;> rw [hp] <;> rfl
  cases h.phase with
  | before _ _ hd => rw [hin] at hd; cases hd
  | queued j q _ _ hd => rw [hin] at hd; cases hd
  | running j q hw hq hd hs hf =>
    rcases hp with hp | hp <;> rcases hd with hd | hd <;> rw [hp] at hd <;> cases hd
    · exact ⟨q, rfl, hw, hq, hs, hf⟩
    · exact ⟨q, rfl, hw, hq, hs, hf⟩
  | replied j _ _ hd => rcases hp with hp | hp <;> rw [hp] at hd <;> cases hd
  | notified j _ _ hd => rw [hin] at hd; cases hd

theorem Inv.push {s : State} (h : Inv s) {i : ℕ} {q : Fifo ℕ} (hp : s.handler = .push i)
    (hq : s.queue.push i = some q) : Inv { s with queue := q, handler := .wait i } := by
  have hb := h.before (by simp [hp])
  simp only [Before, hp] at hb
  obtain ⟨r, hr, hf⟩ := hb
  obtain ⟨-, rfl⟩ := Fifo.push_eq_some.mp hq
  refine ⟨?_, h.lt, h.nodup⟩
  cases h.phase with
  | before _ hq hd hs => exact .queued i r rfl (by simp [hq]) hd hs hr hf
  | queued j r hw => simp [hp] at hw
  | running j r hw => simp [hp] at hw
  | replied j hw => simp [hp] at hw
  | notified j hw => simp [hp] at hw

theorem Inv.wake {s : State} (h : Inv s) {i : ℕ} (hp : s.handler = .wait i) (hpos : 0 < s.sem i) :
    Inv { s with sem := update s.sem i (s.sem i - 1), handler := .idle } := by
  refine ⟨?_, h.lt, h.nodup⟩
  cases h.phase with
  | before hb => simp [Before, hp] at hb
  | queued j r _ _ _ hs => simp [hs] at hpos
  | running j r _ _ _ hs => simp [hs] at hpos
  | replied j _ _ _ hs => simp [hs] at hpos
  | notified j hw hq hd hs =>
    rw [hp] at hw
    cases hw
    refine .before trivial hq hd fun k => ?_
    by_cases hk : k = i
    · simp [hk, hs]
    · simp [hk, hs]

/-- The distribute thread takes the session from the queue. -/
theorem Inv.pop {s : State} (h : Inv s) {i : ℕ} {q : Fifo ℕ} (hq : s.queue.pop = some (i, q)) :
    Inv { s with queue := q, dist := .uri i (s.req i) } := by
  obtain ⟨hitems, -⟩ := Fifo.pop_eq_some.mp hq
  refine ⟨?_, h.lt, h.nodup⟩
  cases h.phase with
  | before _ hq => simp [hq] at hitems
  | queued j r hw hq _ hs hr hf =>
    rw [hq] at hitems
    obtain ⟨rfl, hnil⟩ := List.cons.inj hitems
    exact .running j r hw hnil.symm (Or.inl (by simp [hr])) hs hf
  | running j r _ hq => simp [hq] at hitems
  | replied j _ hq => simp [hq] at hitems
  | notified j _ hq => simp [hq] at hitems

theorem Inv.send {s : State} (h : Inv s) {i : ℕ} {r : Option ℕ} (hp : s.dist = .noUri i r)
    (x : Reply) : Inv (s.send r x (.notify i false)) := by
  obtain ⟨q, rfl, hw, hq, hs, hf⟩ := h.current (Or.inr hp)
  refine ⟨.replied i hw hq rfl hs, fun y hy => ?_, ?_⟩
  · rcases List.mem_append.mp hy with hy | hy
    · exact h.lt y hy
    · rw [List.mem_singleton.mp hy]
      exact ⟨q, rfl, by have := hf.1; simp only [State.send]; omega⟩
  · rw [State.send, List.map_append, List.map_singleton, ← List.concat_eq_append]
    refine List.Nodup.concat (fun hm => ?_) h.nodup
    obtain ⟨y, hy, he⟩ := List.mem_map.mp hm
    obtain ⟨p, hp', hlt⟩ := hf.2 y hy
    rw [he] at hp'
    cases hp'
    omega

theorem Inv.notify {s : State} (h : Inv s) {i : ℕ} {decoded : Bool}
    (hp : s.dist = .notify i decoded) :
    Inv { s with sem := update s.sem i (s.sem i + 1),
                 dist := if decoded then .free i else .release i } := by
  refine ⟨?_, h.lt, h.nodup⟩
  cases h.phase with
  | replied j hw hq hd hs =>
    rw [hp] at hd
    cases hd
    refine .notified i hw hq rfl fun k => ?_
    by_cases hk : k = i
    · simp [hk, hs]
    · simp [hk, hs]
  | before _ _ hd => rw [hp] at hd; cases hd
  | queued j q _ _ hd => rw [hp] at hd; cases hd
  | running j q _ _ hd => rcases hd with hd | hd <;> rw [hp] at hd <;> cases hd
  | notified j _ _ hd => rw [hp] at hd; cases hd

/-- **Every step keeps the invariant**, when no request has a URI. -/
theorem Inv.step {s s' : State} {a : Act} (h : Inv s) (ha : NoUri s a) (hs : Step s a s') :
    Inv s' := by
  cases hs with
  | request hp =>
    apply h.move (h.before (by simp [hp])) (Nat.le_succ _)
    exact ⟨rfl, h.lt⟩
  | get r i p hp _ =>
    have hb := h.before (by simp [hp])
    apply h.move hb le_rfl
    simp only [Before, hp] at hb
    exact hb
  | fill r i hp =>
    have hb := h.before (by simp [hp])
    apply h.move hb le_rfl
    simp only [Before, hp] at hb
    exact ⟨r, update_self _ _ _, hb⟩
  | push i q hp hq => exact h.push hp hq
  | failed i p hp _ => exact h.move (h.before (by simp [hp])) le_rfl trivial
  | wait i hp hpos => exact h.wake hp hpos
  | abort r hp => exact h.move (h.before (by simp [hp])) le_rfl trivial
  | fail i hp => exact h.move (h.before (by simp [hp])) le_rfl trivial
  | loop hp => exact h.around (by rcases hp with hp | hp <;> rw [hp] <;> rfl) _ rfl
  | count hp => exact h.around (by rw [hp]; rfl) _ rfl
  | leave hp => exact h.around (by rw [hp]; rfl) _ rfl
  | pop i q hp hq => exact h.pop hq
  | timeout hp => exact h.around (by rw [hp]; rfl) _ rfl
  | noUri i r hp =>
    obtain ⟨q, rfl, hw, hq, hs, hf⟩ := h.current (Or.inl hp)
    exact ⟨.running i q hw hq (Or.inr rfl) hs hf, h.lt, h.nodup⟩
  | uri i r u hp => exact ha.elim
  | sendNoUri i r hp => exact h.send hp _
  | notify i decoded hp => exact h.notify hp
  | release i p hp _ => exact h.around (by rw [hp]; rfl) p rfl
  | stop =>
    refine ⟨?_, h.lt, h.nodup⟩
    cases h.phase with
    | before hb hq hd hs => exact .before hb hq hd hs
    | queued i r hw hq hd hs hr hf => exact .queued i r hw hq hd hs hr hf
    | running i r hw hq hd hs hf => exact .running i r hw hq hd hs hf
    | replied i hw hq hd hs => exact .replied i hw hq hd hs
    | notified i hw hq hd hs => exact .notified i hw hq hd hs
  | parse i r u hp => exact (h.not_decoded (by simp [hp, Dist.decoded])).elim
  | badParse i r u hp => exact (h.not_decoded (by simp [hp, Dist.decoded])).elim
  | badRequest i r hp => exact (h.not_decoded (by simp [hp, Dist.decoded])).elim
  | notFound i r hp => exact (h.not_decoded (by simp [hp, Dist.decoded])).elim
  | path i r u o hp => exact (h.not_decoded (by simp [hp, Dist.decoded])).elim
  | branch i r u p hp => exact (h.not_decoded (by simp [hp, Dist.decoded])).elim
  | reply i r u hp => exact (h.not_decoded (by simp [hp, Dist.decoded])).elim
  | free i hp => exact (h.not_decoded (by simp [hp, Dist.decoded])).elim

theorem inv_init {size : ℕ} {s : State} (h : State.init size = some s) : Inv s := by
  obtain ⟨q, hq, h⟩ := Option.bind_eq_some_iff.mp h
  obtain ⟨p, hp, h⟩ := Option.bind_eq_some_iff.mp h
  cases h
  exact ⟨.before trivial (init_same hq hp).1 rfl fun _ => rfl, nofun, List.nodup_nil⟩

/-! ## The main results -/

/-- **Runs in which no request has a URI**: no wake-up is lost and no request is answered twice. -/
theorem answered_of_reach (size : ℕ) {s₀ s : State} (h₀ : State.init size = some s₀)
    (h : ReachIf next NoUri s₀ s) : Answered s :=
  (ReachIf.inv h (inv_init h₀) fun _ _ _ hi ha hn => hi.step ha (step_of_next hn)).answered

/-- A request without a URI is answered and woken; the next one is being distributed. -/
theorem answered_of_reach_two : ∃ s₀, State.init 1 = some s₀ ∧ ∃ s : State, ReachIf next NoUri s₀ s ∧
    s.handler = .wait 0 ∧ s.calls = 2 ∧ s.replies = [(some 0, .error 404 (some "Document not found"))] ∧
      Answered s := by
  obtain ⟨s₀, h₀⟩ : ∃ s₀, State.init 1 = some s₀ := ⟨_, rfl⟩
  obtain ⟨s, hr, h1, h2, h3⟩ : ∃ s, ReachIf next NoUri s₀ s ∧ s.handler = .wait 0 ∧ s.calls = 2 ∧
      s.replies = [(some 0, .error 404 (some "Document not found"))] := by
    cases h₀
    exact ⟨_, ReachIf.of_run (ReachIf.refl _) (l := [.request, .handler, .handler, .handler, .dist,
      .dist, .uri none, .dist, .dist, .handler, .request, .dist, .handler, .handler, .handler, .dist,
      .dist]) (by decide) rfl, rfl, rfl, rfl⟩
  exact ⟨s₀, h₀, s, hr, h1, h2, h3, answered_of_reach 1 h₀ hr⟩

/-- **A request with a URI.** If it is parsed, no reply is issued and the event thread waits for ever;
if it is not, two replies are issued. -/
theorem not_answered_of_uri : ∃ s₀, State.init 1 = some s₀ ∧
    (∃ s, Reach next s₀ s ∧ s.handler = .wait 0 ∧ s.sem 0 = 0 ∧ s.queue.items = [] ∧
      s.dist = .test ∧ s.replies = [] ∧ ¬ Answered s) ∧
    ∃ s, Reach next s₀ s ∧ s.replies = [(some 0, .error 400 none),
      (some 0, .error 404 (some "Document not found"))] ∧ ¬ Answered s := by
  refine ⟨_, rfl, ⟨_, Reach.of_run (l := [.request, .handler, .handler, .handler, .dist, .dist,
      .uri (some ['/']), .parse true, .path (some ['/']), .dist, .dist, .dist]) rfl, rfl, rfl, rfl,
      rfl, rfl, fun h => ?_⟩,
    ⟨_, Reach.of_run (l := [.request, .handler, .handler, .handler, .dist, .dist,
      .uri (some ['/']), .parse false, .dist, .dist]) rfl, rfl, fun h => ?_⟩⟩
  · rcases h.awake 0 rfl with h | h | h
    · exact absurd h (Nat.lt_irrefl 0)
    · cases h
    · cases h
  · exact absurd (h.once 0) (by decide)

end Backend.Foxea.Http
