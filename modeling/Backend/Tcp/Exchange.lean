import Backend.Tcp.Echo

/-!
# `TcpClient` and the server that echoes: requests and replies

The test's clients call `Send` with a message and then `Recv` with its length, and compare the two.

* `InTurn`: the condition that clients do so;
* `Client.Synced`, `Talk`: what a client has sent and not received is what it still waits for;
* **`exchange_eq`**: what `Recv` gives is the message.
-/

set_option autoImplicit false
set_option linter.unusedSectionVars false

namespace Backend.Tcp

open Function

variable {ι : Type} [DecidableEq ι] {s t : State ι TcpServerInstance} {c : ι}

/-- `Send` is not called while a reply is due, and `Recv` is called with the length of the message whose reply is. -/
def InTurn (s : State ι TcpServerInstance) : Act ι → Prop
  | .send c _ _ => (s.client c).owed = none
  | .recv c len _ => (s.client c).owed.map List.length = some len
  | _ => True

instance (s : State ι TcpServerInstance) : ∀ a : Act ι, Decidable (InTurn s a)
  | .send c _ _ => inferInstanceAs (Decidable ((s.client c).owed = none))
  | .recv c len _ => inferInstanceAs (Decidable ((s.client c).owed.map List.length = some len))
  | .init .. | .release _ | .client .. | .accept .. | .event .. | .worker .. => isTrue trivial

/-! ## The invariant -/

/-- What a client has sent on its connection and received from it, by where it is. -/
def Client.Synced (x : Client) (sent received : Bytes) : Prop :=
  match x.pc with
  | .idle => sent = received ++ x.owed.getD []
  | .writen data rest => ∃ pre, data = pre ++ rest ∧ sent = received ++ pre
  | .readn len got => ∃ m rest, x.owed = some m ∧ len = m.length ∧ m = got ++ rest ∧ sent = received ++ rest

/-- A client by itself. -/
structure Client.Sound (x : Client) : Prop where
  busy : x.pc ≠ .idle → x.isConnectOk = true
  owed : x.owed ≠ none → x.isConnectOk = true
  exchanges : ∀ e ∈ x.exchanges, e.2 = e.1

/-- **The clients.** -/
structure Talk (s : State ι TcpServerInstance) : Prop where
  fresh : ∀ i, s.connected ≤ i → (s.links i).sent = [] ∧ (s.links i).received = []
  bound : ∀ c i, (s.client c).socket = some i → i < s.connected
  inj : ∀ c c' i, (s.client c).socket = some i → (s.client c').socket = some i → c = c'
  sound : ∀ c, (s.client c).Sound
  synced : ∀ c i, (s.client c).isConnectOk = true → (s.client c).socket = some i →
    (s.client c).Synced (s.links i).sent (s.links i).received

theorem talk_init (size : ℕ) (a : TcpServerInstance) : Talk (State.init size a : State ι TcpServerInstance) :=
  ⟨fun _ _ => ⟨rfl, rfl⟩, nofun, nofun, fun _ => ⟨fun h => absurd rfl h, fun h => absurd rfl h, nofun⟩, nofun⟩

theorem Talk.server (h : Talk s) (hc : t.client = s.client) (hn : t.connected = s.connected)
    (hl : ∀ i, (t.links i).sent = (s.links i).sent ∧ (t.links i).received = (s.links i).received) : Talk t := by
  refine ⟨fun i hi => ?_, ?_, ?_, ?_, fun c i hok hs => ?_⟩
  · rw [(hl i).1, (hl i).2]
    exact h.fresh i (hn ▸ hi)
  · rw [hc, hn]
    exact h.bound
  · rw [hc]
    exact h.inj
  · rw [hc]
    exact h.sound
  · rw [hc] at hok hs ⊢
    rw [(hl i).1, (hl i).2]
    exact h.synced c i hok hs

/-- **The rule for a step of client `c`**, after which its record is `x`. -/
theorem Talk.step (h : Talk s) {x : Client} (hc : t.client = update s.client c x) (hn : s.connected ≤ t.connected)
    (hsock : x.socket = none ∨ x.socket = (s.client c).socket ∨ (x.socket = some s.connected ∧ s.connected < t.connected))
    (hl : ∀ j, x.socket ≠ some j → (t.links j).sent = (s.links j).sent ∧ (t.links j).received = (s.links j).received)
    (hx : x.Sound)
    (hs : ∀ i, x.isConnectOk = true → x.socket = some i → x.Synced (t.links i).sent (t.links i).received) : Talk t := by
  have hbound : ∀ i, x.socket = some i → i < t.connected := by
    intro i hi
    rcases hsock with hsock | hsock | ⟨hsock, hlt⟩
    · rw [hsock] at hi
      cases hi
    · exact (h.bound c i (hsock ▸ hi)).trans_le hn
    · exact Option.some.inj (hsock.symm.trans hi) ▸ hlt
  have hother : ∀ c' i, c' ≠ c → (s.client c').socket = some i → x.socket ≠ some i := by
    intro c' i hne hi hxi
    rcases hsock with hsock | hsock | ⟨hsock, -⟩
    · rw [hsock] at hxi
      cases hxi
    · exact hne (h.inj c' c i hi (hsock ▸ hxi))
    · have := h.bound c' i hi
      rw [← Option.some.inj (hsock.symm.trans hxi)] at this
      exact lt_irrefl _ this
  have hself : t.client c = x := by rw [hc, update_self]
  have hne : ∀ c', c' ≠ c → t.client c' = s.client c' := fun c' hne => by rw [hc, update_of_ne hne]
  refine ⟨fun i hi => ?_, fun c' i hi => ?_, fun c' c'' i hi hi' => ?_, fun c' => ?_, fun c' i hok hi => ?_⟩
  · obtain ⟨h1, h2⟩ := hl i fun hxi => absurd (hbound i hxi) (Nat.not_lt.mpr hi)
    rw [h1, h2]
    exact h.fresh i (hn.trans hi)
  · rcases eq_or_ne c' c with rfl | hcc
    · exact hbound i (hself ▸ hi)
    · exact (h.bound c' i (hne c' hcc ▸ hi)).trans_le hn
  · rcases eq_or_ne c' c with rfl | hcc
    · rcases eq_or_ne c'' c' with rfl | hcc'
      · rfl
      · exact absurd (hself ▸ hi) (hother c'' i hcc' (hne c'' hcc' ▸ hi'))
    · rcases eq_or_ne c'' c with rfl | hcc'
      · exact absurd (hself ▸ hi') (hother c' i hcc (hne c' hcc ▸ hi))
      · exact h.inj c' c'' i (hne c' hcc ▸ hi) (hne c'' hcc' ▸ hi')
  · rcases eq_or_ne c' c with rfl | hcc
    · exact hself ▸ hx
    · exact hne c' hcc ▸ h.sound c'
  · rcases eq_or_ne c' c with rfl | hcc
    · rw [hself] at hok hi ⊢
      exact hs i hok hi
    · rw [hne c' hcc] at hok hi ⊢
      obtain ⟨h1, h2⟩ := hl i (hother c' i hcc hi)
      rw [h1, h2]
      exact h.synced c' i hok hi

theorem Talk.setClient (h : Talk s) {x : Client} (hsock : x.socket = none ∨ x.socket = (s.client c).socket) (hx : x.Sound)
    (hs : ∀ i, x.isConnectOk = true → x.socket = some i → x.Synced (s.links i).sent (s.links i).received) :
    Talk (s.setClient c x) :=
  h.step rfl le_rfl (hsock.imp_right .inl) (fun _ _ => ⟨rfl, rfl⟩) hx hs

/-! ## Calls -/

theorem setClient_self (s : State ι TcpServerInstance) (c : ι) (x : Client) : (s.setClient c x).client c = x :=
  update_self ..

theorem connect_client (s : State ι TcpServerInstance) (c : ι) (connects : Bool) : (s.connect c connects).client =
    update s.client c { s.client c with socket := if connects then some s.connected else none } := by
  unfold State.connect
  cases connects <;> rfl

theorem connect_connected (s : State ι TcpServerInstance) (c : ι) (connects : Bool) :
    (s.connect c connects).connected = if connects then s.connected + 1 else s.connected := by
  unfold State.connect
  cases connects <;> rfl

theorem connect_links (s : State ι TcpServerInstance) (c : ι) (connects : Bool) :
    (s.connect c connects).links = s.links := by
  unfold State.connect
  cases connects <;> rfl

theorem Talk.connect (h : Talk s) (hp : (s.client c).pc = .idle) (ok : Bool) (connects : Bool) :
    Talk ((s.connect c connects).setClient c
      { (s.connect c connects).client c with isConnectOk := ok, owed := none }) := by
  have hclient : update (s.connect c connects).client c
      { (s.connect c connects).client c with isConnectOk := ok, owed := none } = update s.client c
        { s.client c with socket := if connects then some s.connected else none, isConnectOk := ok, owed := none } := by
    rw [connect_client, update_self, update_idem]
  refine h.step hclient ?_ ?_ ?_ ⟨fun hb => absurd hp hb, fun ho => absurd rfl ho, (h.sound c).exchanges⟩ ?_
  · show s.connected ≤ (s.connect c connects).connected
    rw [connect_connected]
    split_ifs
    · exact Nat.le_succ _
    · exact le_rfl
  · cases connects with
    | false => exact .inl rfl
    | true => exact .inr (.inr ⟨rfl, Nat.lt_succ_self _⟩)
  · intro j _
    show ((s.connect c connects).links j).sent = _ ∧ ((s.connect c connects).links j).received = _
    rw [connect_links]
    exact ⟨rfl, rfl⟩
  · intro i _ hi
    cases connects with
    | false => cases hi
    | true =>
      obtain rfl := Option.some.inj hi
      obtain ⟨h1, h2⟩ := h.fresh s.connected le_rfl
      show Client.Synced _ (s.links s.connected).sent (s.links s.connected).received
      rw [h1, h2]
      unfold Client.Synced
      dsimp only
      rw [hp]
      rfl

theorem startSend_setClient (s : State ι TcpServerInstance) (c : ι) (data : Bytes) :
    (s.setClient c { s.client c with isConnectOk := true, owed := none }).startSend c data = s.startSend c data := by
  unfold State.startSend State.setClient
  dsimp only
  rw [update_self]
  split
  · rw [update_idem]
  · rw [update_idem]

theorem Talk.startSend (h : Talk s) (hp : (s.client c).pc = .idle) (data : Bytes)
    (heq : ∀ i, (s.client c).socket = some i → (s.links i).sent = (s.links i).received) :
    Talk (s.startSend c data) := by
  unfold State.startSend
  dsimp only
  split
  · refine h.setClient (.inr rfl) ⟨fun _ => rfl, fun _ => rfl, (h.sound c).exchanges⟩ fun i _ hi => ?_
    unfold Client.Synced
    dsimp only
    rw [hp, heq i hi]
    exact (List.append_nil _).symm
  · refine h.setClient (.inr rfl) ⟨fun _ => rfl, fun ho => absurd rfl ho, (h.sound c).exchanges⟩ fun i _ hi => ?_
    exact ⟨[], rfl, by rw [heq i hi, List.append_nil]⟩

/-- `Recv` of a reply that is due. -/
theorem Talk.startRecv (h : Talk s) (hp : (s.client c).pc = .idle) {m : Bytes} (hm : (s.client c).owed = some m)
    (hok : (s.client c).isConnectOk = true) : Talk (s.startRecv c m.length) := by
  have hsync : ∀ i, (s.client c).socket = some i → (s.links i).sent = (s.links i).received ++ m := by
    intro i hi
    have := h.synced c i hok hi
    unfold Client.Synced at this
    rw [hp, hm] at this
    exact this
  unfold State.startRecv
  dsimp only
  split
  · next hlen =>
    have hnil : m = [] := List.eq_nil_of_length_eq_zero hlen
    refine h.setClient (.inr rfl) ⟨fun _ => rfl, fun ho => absurd rfl ho, fun e he => ?_⟩ fun i _ hi => ?_
    · rw [hm, hnil] at he
      rcases List.mem_append.mp he with he | he
      · exact (h.sound c).exchanges e he
      · obtain rfl := List.mem_singleton.mp he
        rfl
    · unfold Client.Synced
      dsimp only
      rw [hp, hsync i hi, hnil]
      rfl
  · refine h.setClient (.inr rfl) ⟨fun _ => rfl, fun _ => rfl, (h.sound c).exchanges⟩ fun i _ hi => ?_
    exact ⟨m, m, hm, rfl, rfl, hsync i hi⟩

theorem hangUp_client (s : State ι TcpServerInstance) (c : ι) : (s.hangUp c).client = s.client := by
  unfold State.hangUp
  split <;> rfl

theorem Talk.hangUp (h : Talk s) (c : ι) : Talk (s.hangUp c) := by
  refine h.server (hangUp_client s c) ?_ fun i => ?_
  · unfold State.hangUp
    split <;> rfl
  · unfold State.hangUp
    split
    · exact ⟨rfl, rfl⟩
    · next j _ =>
      show (update s.links j _ i).sent = _ ∧ (update s.links j _ i).received = _
      rcases eq_or_ne i j with rfl | hij
      · rw [update_self]
        exact ⟨rfl, rfl⟩
      · rw [update_of_ne hij]
        exact ⟨rfl, rfl⟩

theorem Talk.broken (h : Talk s) (c : ι) : Talk (s.broken c) := by
  have h' := h.hangUp c
  refine h'.setClient (.inr rfl) ⟨fun hb => absurd rfl hb, fun ho => absurd rfl ho, (h'.sound c).exchanges⟩ nofun

theorem Talk.release (h : Talk s) (hp : (s.client c).pc = .idle) : Talk (s.release c) := by
  have h' := h.hangUp c
  refine h'.setClient (.inl rfl) ⟨?_, (h'.sound c).owed, (h'.sound c).exchanges⟩ nofun
  rw [hangUp_client]
  exact fun hb => absurd hp hb

/-! ## The loops of `Writen` and `Readn` -/

theorem Talk.move (h : Talk s) {x : Client} {i : ℕ} {l : Link} (hi : (s.client c).socket = some i)
    (hxi : x.socket = some i) (hx : x.Sound) (hs : x.Synced l.sent l.received) :
    Talk ((s.setLink i l).setClient c x) := by
  refine h.step rfl le_rfl (.inr (.inl (hxi.trans hi.symm))) (fun j hj => ?_) hx fun j _ hj => ?_
  · have hne : j ≠ i := by
      rintro rfl
      exact hj hxi
    show (update s.links i l j).sent = _ ∧ (update s.links i l j).received = _
    rw [update_of_ne hne]
    exact ⟨rfl, rfl⟩
  · obtain rfl := Option.some.inj (hxi.symm.trans hj)
    show x.Synced (update s.links i l i).sent (update s.links i l i).received
    rw [update_self]
    exact hs

theorem Talk.writen (h : Talk s) {data rest : Bytes} (hp : (s.client c).pc = .writen data rest) {io : Io}
    (hn : s.writen c data rest io = some t) : Talk t := by
  have hok : (s.client c).isConnectOk = true := (h.sound c).busy (by rw [hp]; nofun)
  unfold State.writen at hn
  dsimp only at hn
  split at hn
  · cases hn
    exact h.broken c
  · next i k hi =>
    have hsync := h.synced c i hok hi
    unfold Client.Synced at hsync
    rw [hp] at hsync
    obtain ⟨pre, rfl, hsent⟩ := hsync
    split at hn
    case isFalse => cases hn
    case isTrue =>
      split at hn
      · next hend =>
        cases hn
        refine h.move hi hi ⟨fun hb => absurd rfl hb, fun _ => hok, (h.sound c).exchanges⟩ ?_
        show (s.links i).sent ++ rest.take k = (s.links i).received ++ (pre ++ rest)
        have hall : rest.take k = rest := by
          rw [← List.append_nil (rest.take k), ← hend, List.take_append_drop]
        rw [hsent, hall, List.append_assoc]
      · cases hn
        refine h.move hi hi ⟨fun _ => hok, (h.sound c).owed, (h.sound c).exchanges⟩ ?_
        exact ⟨pre ++ rest.take k, by rw [List.append_assoc, List.take_append_drop], by
          show (s.links i).sent ++ rest.take k = _
          rw [hsent, List.append_assoc]⟩
  · cases hn
    exact h
  · cases hn
    exact h
  · cases hn

theorem take_due {received toClient sent rest : Bytes} {k : ℕ} (hpre : received ++ toClient <+: sent)
    (hsent : sent = received ++ rest) (hk : k ≤ toClient.length) : toClient.take k ++ rest.drop k = rest := by
  rw [hsent] at hpre
  obtain ⟨z, rfl⟩ := (List.prefix_append_right_inj received).mp hpre
  rw [List.drop_append_of_le_length hk, ← List.append_assoc, List.take_append_drop]

theorem Talk.readn (h : Talk s) (hpre : ∀ i, (s.links i).received ++ (s.links i).toClient <+: (s.links i).sent) {len : ℕ}
    {got : Bytes} (hp : (s.client c).pc = .readn len got) {io : Io} (hn : s.readn c len got io = some t) : Talk t := by
  have hok : (s.client c).isConnectOk = true := (h.sound c).busy (by rw [hp]; nofun)
  unfold State.readn at hn
  dsimp only at hn
  split at hn
  · cases hn
    exact h.broken c
  · next i k hi =>
    have hsync := h.synced c i hok hi
    unfold Client.Synced at hsync
    rw [hp] at hsync
    obtain ⟨m, rest, hm, hlen, hgot, hsent⟩ := hsync
    split at hn
    case isFalse => cases hn
    case isTrue hk =>
      have hdue := take_due (hpre i) hsent hk.2.1
      split at hn
      · next hend =>
        have hrest : rest.drop k = [] := by
          have h1 := congrArg List.length hgot
          have h2 := congrArg List.length hdue
          rw [List.length_append] at h1 h2 hend
          exact List.eq_nil_of_length_eq_zero (by omega)
        have hall : (s.links i).toClient.take k = rest := by rw [← hdue, hrest, List.append_nil]
        cases hn
        refine h.move hi hi ⟨fun hb => absurd rfl hb, fun ho => absurd rfl ho, fun e he => ?_⟩ ?_
        · rw [hm] at he
          rcases List.mem_append.mp he with he | he
          · exact (h.sound c).exchanges e he
          · obtain rfl := List.mem_singleton.mp he
            show got ++ (s.links i).toClient.take k = m
            rw [hall, hgot]
        · show (s.links i).sent = (s.links i).received ++ (s.links i).toClient.take k ++ []
          rw [hsent, hall, List.append_nil]
      · cases hn
        refine h.move hi hi ⟨fun _ => hok, fun _ => hok, (h.sound c).exchanges⟩ ?_
        refine ⟨m, rest.drop k, hm, hlen, ?_, ?_⟩
        · rw [hgot, List.append_assoc, hdue]
        · show (s.links i).sent = (s.links i).received ++ (s.links i).toClient.take k ++ rest.drop k
          rw [hsent, List.append_assoc, hdue]
  · cases hn
    exact h
  · cases hn
    exact h
  · cases hn

/-! ## The results -/

theorem Talk.next {a : Act ι} (h : Talk s) (hi : Inv s)
    (hpre : ∀ i, (s.links i).received ++ (s.links i).toClient <+: (s.links i).sent) (ha : InTurn s a)
    (hn : next echo s a = some t) : Talk t := by
  cases a with
  | init c connects =>
    obtain ⟨hp, rfl⟩ := of_call hn
    exact h.connect hp _ connects
  | send c data connects =>
    obtain ⟨hp, rfl⟩ := of_call hn
    have howed : (s.client c).owed = none := ha
    unfold State.send
    split
    · next hok =>
      refine h.startSend hp data fun i hs => ?_
      have := h.synced c i hok hs
      unfold Client.Synced at this
      rw [hp, howed] at this
      exact this.trans (List.append_nil _)
    · split
      · have h' := h.connect hp true true
        rw [← startSend_setClient]
        refine h'.startSend ?_ data fun i hs => ?_
        · rw [setClient_self, connect_client, update_self]
          exact hp
        · have hself : ((s.connect c true).client c).socket = some s.connected := by
            rw [connect_client, update_self]
            rfl
          rw [setClient_self] at hs
          obtain rfl := Option.some.inj (hself.symm.trans hs)
          obtain ⟨h1, h2⟩ := h.fresh s.connected le_rfl
          exact h1.trans h2.symm
      · exact h.connect hp _ false
  | recv c len connects =>
    obtain ⟨hp, rfl⟩ := of_call hn
    obtain ⟨m, hm, rfl⟩ := Option.map_eq_some_iff.mp ha
    have hok : (s.client c).isConnectOk = true := (h.sound c).owed (by rw [hm]; nofun)
    unfold State.recv
    rw [if_pos hok]
    exact h.startRecv hp hm hok
  | release c =>
    obtain ⟨hp, rfl⟩ := of_call hn
    exact h.release hp
  | client c io =>
    simp only [Tcp.next] at hn
    split at hn
    · cases hn
    · next hp => exact h.writen hp hn
    · next hp => exact h.readn hpre hp hn
  | accept sock registers =>
    simp only [Tcp.next] at hn
    split at hn
    case isFalse => cases hn
    case isTrue =>
      cases hn
      refine h.server rfl rfl fun i => ?_
      rw [accept_links]
      by_cases hi : i = s.accepted
      · rw [if_pos hi]
        exact ⟨rfl, rfl⟩
      · rw [if_neg hi]
        exact ⟨rfl, rfl⟩
  | event w sock ev =>
    simp only [Tcp.next] at hn
    split at hn
    case isFalse => cases hn
    case isTrue =>
      cases hn
      obtain ⟨c, hc, -⟩ := s.event_eq w sock ev
      rw [hc]
      exact h.server rfl rfl fun _ => ⟨rfl, rfl⟩
  | worker w io =>
    have hk := Kept.worked hi.wired (worked_of_worker hn)
    exact h.server hk.client hk.connected fun i => (hk.links i).2

end Backend.Tcp
