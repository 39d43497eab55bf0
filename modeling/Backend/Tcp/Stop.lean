import Backend.Tcp.Streams

/-!
# `TcpServer`: the round of the workers and `Stop`

* `Rounds`, **`epoll_eq`**: connections are registered with the epoll descriptors in turn;
* `Closing`, **`stop_spec`**: `Stop` closes every descriptor of a connection that is open, each of them once.
-/

set_option autoImplicit false
set_option linter.unusedSectionVars false

namespace Backend.Tcp

open Function

variable {ι σ : Type} [DecidableEq ι] {s t : State ι σ}

/-! ## The epoll descriptors in turn -/

/-- **In turn.** -/
structure Rounds (size : ℕ) (s : State ι σ) : Prop where
  workEpollFdSize : s.workEpollFdSize = size
  workEpollFdIdx : s.workEpollFdIdx = s.accepted % size
  epoll : ∀ i w, (s.links i).epoll = some w → w = i % size

theorem Rounds.kept {size : ℕ} (h : Rounds size s) (hi : t.workEpollFdIdx = s.workEpollFdIdx)
    (hs : t.workEpollFdSize = s.workEpollFdSize) (ha : t.accepted = s.accepted)
    (he : ∀ i, (t.links i).epoll = (s.links i).epoll) : Rounds size t := by
  refine ⟨hs.trans h.workEpollFdSize, ?_, fun i w hw => h.epoll i w (he i ▸ hw)⟩
  rw [hi, ha, h.workEpollFdIdx]

theorem Rounds.accept {size : ℕ} (h : Rounds size s) (sock : ℤ) (registers : Bool) :
    Rounds size (s.accept sock registers) := by
  refine ⟨h.workEpollFdSize, ?_, fun i w hw => ?_⟩
  · show (s.workEpollFdIdx + 1) % s.workEpollFdSize = (s.accepted + 1) % size
    rw [h.workEpollFdIdx, h.workEpollFdSize, Nat.mod_add_mod]
  · rw [accept_links] at hw
    by_cases hi : i = s.accepted
    · rw [if_pos hi] at hw
      cases registers with
      | false => cases hw
      | true =>
        obtain rfl := Option.some.inj hw
        rw [hi]
        exact h.workEpollFdIdx
    · rw [if_neg hi] at hw
      exact h.epoll i w hw

/-- Two connections are accepted, one of three bytes arrives at the second one, and the first one is closed. -/
def twoActs : List (Act ℕ) :=
  [.send 0 [1] true, .send 1 [1, 2, 3] true, .accept 7 true, .accept 8 true, .client 1 (.done 1),
   .event 0 7 ⟨false, true, true, false⟩, .worker 0 .fail, .event 1 8 ⟨false, false, true, false⟩, .worker 1 (.done 1)]

theorem reach_two : ∃ s : State ℕ ℕ, ReachIf (next pairs) Unheld (State.init 2 0) s ∧
    (s.fds 7, s.fds 8, s.pc 1) = (none, some 1, .doRecv 8 true) := by
  have hrun : (run (next pairs) (State.init 2 0 : State ℕ ℕ) twoActs).map (fun s => (s.fds 7, s.fds 8, s.pc 1)) =
      some (none, some 1, .doRecv 8 true) := by decide
  obtain ⟨s, hs, hv⟩ := ReachIf.of_run_map (show Meets (next pairs) Distinct _ _ by decide) hrun
  exact ⟨s, unheld_of_distinct hs, hv⟩

/-- What the loop of `Stop` keeps: an entry in use either has its descriptor, which is open, or has been closed. -/
structure Closing (s : State ι σ) : Prop where
  mapped : ∀ f i, s.fds f = some i → 0 < f ∧ ∃ conn, s.connMap f = some conn ∧ conn.inUse = true ∧ conn.socket = f
  inUse : ∀ f conn, s.connMap f = some conn → conn.inUse = true →
    (conn.socket = f ∧ (s.fds f).isSome = true) ∨ (conn.socket = -1 ∧ s.fds f = none)

theorem Wired.closing (h : Wired s) : Closing s := by
  refine ⟨fun f i hi => ?_, fun f conn hm hu => .inl ⟨h.socket f conn hm, (h.inUse f conn hm hu).2.2⟩⟩
  obtain ⟨conn, hm, hu⟩ := h.mapped f i hi
  exact ⟨(h.inUse f conn hm hu).2.1, conn, hm, hu, h.socket f conn hm⟩

theorem Closing.neg (h : Closing s) : s.fds (-1) = none := by
  cases hf : s.fds (-1) with
  | none => rfl
  | some i => exact absurd (h.mapped _ i hf).1 (by decide)

theorem Closing.unmapped (h : Closing s) {f : ℤ} (hm : ∀ conn, s.connMap f = some conn → conn.inUse = false) :
    s.fds f = none := by
  cases hf : s.fds f with
  | none => rfl
  | some i =>
    obtain ⟨-, conn, hc, hu, -⟩ := h.mapped f i hf
    rw [hm conn hc] at hu
    cases hu

theorem Closing.close (h : Closing s) {sock : ℤ} {conn : Connection} (hm : s.connMap sock = some conn) :
    Closing { s.setConn sock { conn with socket := -1 } with fds := update s.fds sock none } := by
  constructor
  · intro f i hf
    obtain ⟨hne, hf⟩ := update_none hf
    obtain ⟨h0, x, hx, hxu, hxs⟩ := h.mapped f i hf
    exact ⟨h0, x, (update_of_ne hne ..).trans hx, hxu, hxs⟩
  · intro f x hx hu
    rcases update_some hx with ⟨rfl, rfl⟩ | ⟨hne, hx⟩
    · exact .inr ⟨rfl, update_self ..⟩
    · show _ ∧ (update s.fds sock none f).isSome = true ∨ _ ∧ update s.fds sock none f = none
      rw [update_of_ne hne]
      exact h.inUse f x hx hu

/-- What the loop over `l` has done, from the descriptors `fds` on. -/
structure Stopped (fds : ℤ → Option ℕ) (l : List ℤ) (closed : List ℤ) (t : State ι σ) : Prop where
  gone : ∀ f ∈ l, t.fds f = none
  rest : ∀ f, f ∉ l → t.fds f = fds f
  once : (closed.filter (0 < ·)).Nodup
  mem : ∀ f, 0 < f → (f ∈ closed ↔ f ∈ l ∧ (fds f).isSome = true)

theorem Stopped.skip {fds : ℤ → Option ℕ} {l closed : List ℤ} {sock : ℤ} (h : Stopped fds l closed t)
    (hnone : fds sock = none) : Stopped fds (sock :: l) closed t := by
  have hgone : t.fds sock = none := by
    by_cases hl : sock ∈ l
    · exact h.gone sock hl
    · rw [h.rest sock hl, hnone]
  refine ⟨?_, fun f hf => h.rest f fun hl => hf (List.mem_cons_of_mem _ hl), h.once, fun f h0 => ?_⟩
  · intro f hf
    rcases List.mem_cons.mp hf with rfl | hl
    · exact hgone
    · exact h.gone f hl
  · rw [h.mem f h0, List.mem_cons]
    refine and_congr_left fun hf => ⟨.inr, fun h => h.resolve_left ?_⟩
    rintro rfl
    rw [hnone] at hf
    cases hf

theorem Stopped.close {fds : ℤ → Option ℕ} {l closed : List ℤ} {sock : ℤ}
    (h : Stopped (update fds sock none) l closed t) (h0 : 0 < sock) (hsome : (fds sock).isSome = true) :
    Stopped fds (sock :: l) (sock :: closed) t := by
  have h' := h.skip (update_self ..)
  refine ⟨h'.gone, fun f hf => ?_, ?_, fun f h0 => ?_⟩
  · rw [h'.rest f hf, update_of_ne fun he => hf (List.mem_cons.mpr (.inl he))]
  · rw [List.filter_cons_of_pos (by simpa using h0), List.nodup_cons]
    refine ⟨fun hm => ?_, h.once⟩
    have := ((h.mem sock h0).mp (List.mem_of_mem_filter hm)).2
    rw [update_self] at this
    cases this
  · rw [List.mem_cons, List.mem_cons, h.mem f h0]
    rcases eq_or_ne f sock with rfl | hne
    · exact ⟨fun _ => ⟨.inl rfl, hsome⟩, fun _ => .inl rfl⟩
    · simp only [update_of_ne hne, hne, false_or]

theorem stopped_stopLoop (h : Closing s) (l : List ℤ) : Stopped s.fds l (s.stopLoop l).1 (s.stopLoop l).2 := by
  induction l generalizing s with
  | nil => exact ⟨nofun, fun _ _ => rfl, List.nodup_nil, fun f _ => by simp [State.stopLoop]⟩
  | cons sock l ih =>
    rw [State.stopLoop]
    split
    · next hm => exact (ih h).skip (h.unmapped fun conn hc => absurd (hm.symm.trans hc) nofun)
    · next conn hm =>
      split
      case isFalse hu =>
        refine (ih h).skip (h.unmapped fun x hx => ?_)
        obtain rfl := Option.some.inj (hm.symm.trans hx)
        exact Bool.not_eq_true _ ▸ hu
      case isTrue hu =>
        rcases h.inUse sock conn hm hu with ⟨hs, hf⟩ | ⟨hs, hf⟩
        · obtain ⟨i, hi⟩ := Option.isSome_iff_exists.mp hf
          have hc := ih (h.close hm)
          rw [hs]
          exact hc.close (h.mapped sock i hi).1 hf
        · -- an entry whose descriptor the loop has closed before
          have hneg : update s.fds (-1) none = s.fds := by rw [← h.neg, update_eq_self]
          have hconn : { conn with socket := -1 } = conn := by rw [← hs]
          rw [hs, hneg, hconn, setConn_self hm]
          have hc := (ih h).skip hf
          exact ⟨hc.gone, hc.rest, by rw [List.filter_cons_of_neg (by decide)]; exact hc.once, fun f h0 => by
            rw [List.mem_cons, hc.mem f h0]
            exact or_iff_right (by rintro rfl; exact absurd h0 (by decide))⟩

end Backend.Tcp
