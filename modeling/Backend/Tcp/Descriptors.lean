import Backend.Tcp.Steps
import Mathlib.Algebra.Order.Group.Nat

/-!
# `TcpServer`: descriptors and workers

* `Wired`: descriptors, entries of `m_conn_map` and connections belong to each other;
* `Unheld`: the condition that a descriptor is not given to a new connection while a worker is still at it;
* **`Tended`**: no two workers are ever at one descriptor.
-/

set_option autoImplicit false
set_option linter.unusedSectionVars false

namespace Backend.Tcp

open Function

variable {ι σ : Type} [DecidableEq ι] {s t : State ι σ}

/-! ## Tables -/

theorem update_some {α β : Type*} [DecidableEq α] {m : α → Option β} {a x : α} {b y : β}
    (h : update m a (some b) x = some y) : (x = a ∧ y = b) ∨ (x ≠ a ∧ m x = some y) := by
  rcases eq_or_ne x a with rfl | hne
  · rw [update_self] at h
    exact .inl ⟨rfl, (Option.some.inj h).symm⟩
  · exact .inr ⟨hne, by rwa [update_of_ne hne] at h⟩

theorem update_some_self {α β : Type*} [DecidableEq α] {m : α → Option β} {a : α} {b y : β}
    (h : update m a (some b) a = some y) : b = y := by
  rw [update_self] at h
  exact Option.some.inj h

theorem update_none {α β : Type*} [DecidableEq α] {m : α → Option β} {a x : α} {y : β}
    (h : update m a none x = some y) : x ≠ a ∧ m x = some y := by
  rcases eq_or_ne x a with rfl | hne
  · rw [update_self] at h
    cases h
  · exact ⟨hne, by rwa [update_of_ne hne] at h⟩

/-! ## Descriptors, entries and connections -/

/-- **Descriptors**: an open one has its entry in `m_conn_map`, which `Stop` will find, and is the only end of its
connection. -/
structure Wired (s : State ι σ) : Prop where
  socket : ∀ f conn, s.connMap f = some conn → conn.socket = f
  mapped : ∀ f i, s.fds f = some i → ∃ conn, s.connMap f = some conn ∧ conn.inUse = true
  inUse : ∀ f conn, s.connMap f = some conn → conn.inUse = true →
    f ∈ s.workSocketList ∧ 0 < f ∧ (s.fds f).isSome = true
  bound : ∀ f i, s.fds f = some i → i < s.accepted
  inj : ∀ f g i, s.fds f = some i → s.fds g = some i → f = g
  accepted_le : s.accepted ≤ s.connected

theorem Wired.congr (h : Wired s) (hm : t.connMap = s.connMap) (hf : t.fds = s.fds)
    (hl : t.workSocketList = s.workSocketList) (ha : t.accepted = s.accepted) (hc : s.connected ≤ t.connected) :
    Wired t := by
  constructor
  · rw [hm]
    exact h.socket
  · rw [hm, hf]
    exact h.mapped
  · rw [hm, hf, hl]
    exact h.inUse
  · rw [hf, ha]
    exact h.bound
  · rw [hf]
    exact h.inj
  · rw [ha]
    exact h.accepted_le.trans hc

theorem Wired.outside (h : Wired s) (ho : Outside s t) : Wired t :=
  h.congr ho.connMap ho.fds ho.workSocketList ho.accepted ho.connected

theorem Wired.goto (h : Wired s) (w : ℕ) (c : Pc) : Wired (s.goto w c) := h.congr rfl rfl rfl rfl le_rfl

theorem Wired.atLink (h : Wired s) (sock : ℤ) (g : Link → Link) : Wired (s.atLink sock g) :=
  h.congr rfl rfl rfl rfl le_rfl

theorem Wired.setConn (h : Wired s) {sock : ℤ} {conn conn' : Connection} (hm : s.connMap sock = some conn)
    (hs : conn'.socket = conn.socket) (hu : conn'.inUse = conn.inUse) : Wired (s.setConn sock conn') := by
  refine ⟨fun f x hx => ?_, fun f i hi => ?_, fun f x hx hx' => ?_, h.bound, h.inj, h.accepted_le⟩
  · rcases update_some hx with ⟨rfl, rfl⟩ | ⟨-, hx⟩
    · exact hs.trans (h.socket f conn hm)
    · exact h.socket f x hx
  · obtain ⟨y, hy, hy'⟩ := h.mapped f i hi
    rcases eq_or_ne f sock with rfl | hne
    · obtain rfl := Option.some.inj (hy.symm.trans hm)
      exact ⟨conn', update_self .., hu.trans hy'⟩
    · exact ⟨y, (update_of_ne hne ..).trans hy, hy'⟩
  · rcases update_some hx with ⟨rfl, rfl⟩ | ⟨-, hx⟩
    · exact h.inUse f conn hm (hu ▸ hx')
    · exact h.inUse f x hx hx'

theorem closeConnection_eq (h : Wired s) {sock : ℤ} {conn : Connection} (hm : s.connMap sock = some conn) :
    s.closeConnection sock =
      { s.setConn sock { conn with inUse := false, readBuf := [], writeBuf := [] } with fds := update s.fds sock none } := by
  rw [State.closeConnection, hm]
  simp only [h.socket sock conn hm]
  rfl

theorem Wired.close (h : Wired s) (sock : ℤ) : Wired (s.closeConnection sock) := by
  cases hm : s.connMap sock with
  | none =>
    rw [State.closeConnection, hm]
    exact h
  | some conn =>
    rw [closeConnection_eq h hm]
    refine ⟨fun f x hx => ?_, fun f i hi => ?_, fun f x hx hx' => ?_, fun f i hi => h.bound f i (update_none hi).2,
      fun f g i hi hi' => h.inj f g i (update_none hi).2 (update_none hi').2, h.accepted_le⟩
    · rcases update_some hx with ⟨rfl, rfl⟩ | ⟨-, hx⟩
      · exact h.socket f conn hm
      · exact h.socket f x hx
    · obtain ⟨hne, hi⟩ := update_none hi
      obtain ⟨y, hy, hy'⟩ := h.mapped f i hi
      exact ⟨y, (update_of_ne hne ..).trans hy, hy'⟩
    · rcases update_some hx with ⟨rfl, rfl⟩ | ⟨hne, hx⟩
      · cases hx'
      · obtain ⟨hl, h0, hf⟩ := h.inUse f x hx hx'
        exact ⟨hl, h0, (congrArg Option.isSome (update_of_ne hne ..)).trans hf⟩

theorem Wired.accept (h : Wired s) {sock : ℤ} (registers : Bool) (hacc : s.accepted < s.connected) (h0 : 0 < sock)
    (hf : s.fds sock = none) : Wired (s.accept sock registers) := by
  refine ⟨fun f x hx => ?_, fun f i hi => ?_, fun f x hx hx' => ?_, fun f i hi => ?_, fun f g i hi hi' => ?_, hacc⟩
  · rcases update_some hx with ⟨rfl, rfl⟩ | ⟨-, hx⟩
    · rfl
    · exact h.socket f x hx
  · rcases update_some hi with ⟨rfl, -⟩ | ⟨hne, hi⟩
    · exact ⟨_, update_self .., rfl⟩
    · obtain ⟨y, hy, hy'⟩ := h.mapped f i hi
      exact ⟨y, (update_of_ne hne ..).trans hy, hy'⟩
  · show f ∈ s.workSocketList ++ [sock] ∧ 0 < f ∧ (update s.fds sock (some s.accepted) f).isSome = true
    rcases update_some hx with ⟨rfl, -⟩ | ⟨hne, hx⟩
    · exact ⟨by simp, h0, by rw [update_self]; rfl⟩
    · obtain ⟨hl, h0, hf⟩ := h.inUse f x hx hx'
      exact ⟨List.mem_append_left _ hl, h0, by rwa [update_of_ne hne]⟩
  · rcases update_some hi with ⟨-, rfl⟩ | ⟨-, hi⟩
    · exact Nat.lt_succ_self _
    · exact (h.bound f i hi).trans (Nat.lt_succ_self _)
  · rcases update_some hi with ⟨rfl, rfl⟩ | ⟨-, hi⟩
    · rcases update_some hi' with ⟨rfl, -⟩ | ⟨-, hi'⟩
      · rfl
      · exact absurd (h.bound g _ hi') (lt_irrefl _)
    · rcases update_some hi' with ⟨-, rfl⟩ | ⟨-, hi'⟩
      · exact absurd (h.bound f _ hi) (lt_irrefl _)
      · exact h.inj f g i hi hi'

/-! ## Workers -/

/-- The condition on the steps: `accept` does not give a descriptor that some worker is still at. -/
def Unheld (s : State ι σ) (a : Act ι) : Prop :=
  ∀ sock registers, a = .accept sock registers → ∀ w, (s.pc w).sock? ≠ some sock

/-- **Workers**: the one that is at an open descriptor is that of its epoll descriptor, and it is there alone. -/
structure Tended (s : State ι σ) : Prop where
  epoll : ∀ w f i, (s.pc w).sock? = some f → s.fds f = some i → (s.links i).epoll = some w
  alone : ∀ w w' f, (s.pc w).sock? = some f → (s.pc w').sock? = some f → w = w'
  listed : ∀ w f, (s.pc w).sock? = some f → f ∈ s.workSocketList

theorem Tended.congr (h : Tended s) (hp : t.pc = s.pc) (hf : ∀ f i, t.fds f = some i → s.fds f = some i)
    (he : ∀ i, (t.links i).epoll = (s.links i).epoll) (hl : t.workSocketList = s.workSocketList) : Tended t := by
  constructor
  · intro w f i hw hi
    rw [hp] at hw
    rw [he]
    exact h.epoll w f i hw (hf f i hi)
  · rw [hp]
    exact h.alone
  · rw [hp, hl]
    exact h.listed

theorem Tended.goto (h : Tended s) {w : ℕ} {c : Pc} (hc : c.sock? = none ∨ c.sock? = (s.pc w).sock?) :
    Tended (s.goto w c) := by
  have back : ∀ v f, (update s.pc w c v).sock? = some f → (s.pc v).sock? = some f := by
    intro v f hv
    rcases eq_or_ne v w with rfl | hne
    · rw [update_self] at hv
      rcases hc with hc | hc
      · rw [hc] at hv
        cases hv
      · rwa [← hc]
    · rwa [update_of_ne hne] at hv
  exact ⟨fun v f i hv hi => h.epoll v f i (back v f hv) hi,
    fun v v' f hv hv' => h.alone v v' f (back v f hv) (back v' f hv'), fun v f hv => h.listed v f (back v f hv)⟩

theorem Tended.event (h : Tended s) (hw : Wired s) {w i : ℕ} {sock : ℤ} {c : Pc} (hi : s.fds sock = some i)
    (he : (s.links i).epoll = some w) (hc : c.sock? = some sock) : Tended (s.goto w c) := by
  have back : ∀ v f, (update s.pc w c v).sock? = some f → (v = w ∧ f = sock) ∨ (s.pc v).sock? = some f := by
    intro v f hv
    rcases eq_or_ne v w with rfl | hne
    · rw [update_self, hc] at hv
      exact .inl ⟨rfl, (Option.some.inj hv).symm⟩
    · exact .inr (by rwa [update_of_ne hne] at hv)
  have only : ∀ v, (s.pc v).sock? = some sock → v = w := fun v hv =>
    Option.some.inj ((h.epoll v sock i hv hi).symm.trans he)
  constructor
  · intro v f j hv hj
    rcases back v f hv with ⟨rfl, rfl⟩ | hv
    · obtain rfl := Option.some.inj (hi.symm.trans hj)
      exact he
    · exact h.epoll v f j hv hj
  · intro v v' f hv hv'
    rcases back v f hv with ⟨rfl, rfl⟩ | hv₁
    · rcases back v' _ hv' with ⟨rfl, -⟩ | hv₂
      · rfl
      · exact (only v' hv₂).symm
    · rcases back v' f hv' with ⟨rfl, rfl⟩ | hv₂
      · exact only v hv₁
      · exact h.alone v v' f hv₁ hv₂
  · intro v f hv
    rcases back v f hv with ⟨rfl, rfl⟩ | hv₁
    · obtain ⟨conn, hm, hu⟩ := hw.mapped f i hi
      exact (hw.inUse f conn hm hu).1
    · exact h.listed v f hv₁

theorem accept_links (s : State ι σ) (sock : ℤ) (registers : Bool) (i : ℕ) :
    (s.accept sock registers).links i = if i = s.accepted then
      { s.links i with epoll := if registers then some s.workEpollFdIdx else none } else s.links i := by
  show (if update s.fds sock (some s.accepted) sock = some i then _ else _) = _
  rw [update_self]
  by_cases hi : i = s.accepted
  · rw [if_pos hi, if_pos (by rw [hi])]
    rfl
  · rw [if_neg hi, if_neg fun h => hi (Option.some.inj h).symm]
    rfl

theorem Tended.accept (h : Tended s) (hw : Wired s) {sock : ℤ} {registers : Bool}
    (hu : ∀ w, (s.pc w).sock? ≠ some sock) : Tended (s.accept sock registers) := by
  refine ⟨fun w f i hp hi => ?_, h.alone, fun w f hp => List.mem_append_left _ (h.listed w f hp)⟩
  rcases update_some hi with ⟨rfl, -⟩ | ⟨-, hi⟩
  · exact absurd hp (hu w)
  · rw [accept_links, if_neg (hw.bound f i hi).ne]
    exact h.epoll w f i hp hi

end Backend.Tcp
