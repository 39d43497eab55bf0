import Backend.Tcp.Model

/-!
# `TcpServer` and `TcpClient`: what a step can do

* `Link.Client`, `Outside`: what a step of a client can do to a connection, and what it does to the rest;
* `Worked`, **`worked_of_worker`**: what the step of a worker can do;
* `Step`, **`step_of_next`**: what any step can do.
-/

set_option autoImplicit false
set_option linter.unusedSectionVars false

namespace Backend.Tcp

open Function

variable {ι σ : Type} [DecidableEq ι]

/-! ## Steps of a client -/

/-- What the client's end of a connection can do with it. -/
structure Link.Client (l l' : Link) : Prop where
  up : ∃ x, l'.sent = l.sent ++ x ∧ l'.toServer = l.toServer ++ x
  down : ∃ x, l'.received = l.received ++ x ∧ l.toClient = x ++ l'.toClient
  epoll : l'.epoll = l.epoll
  taken : l'.taken = l.taken
  posted : l'.posted = l.posted
  shown : l'.shown = l.shown

theorem Link.Client.refl (l : Link) : l.Client l :=
  ⟨⟨[], by simp⟩, ⟨[], by simp⟩, rfl, rfl, rfl, rfl⟩

/-- What a client's step does to the rest. -/
structure Outside (s t : State ι σ) : Prop where
  connMap : t.connMap = s.connMap
  workEpollFdIdx : t.workEpollFdIdx = s.workEpollFdIdx
  workEpollFdSize : t.workEpollFdSize = s.workEpollFdSize
  workSocketList : t.workSocketList = s.workSocketList
  app : t.app = s.app
  fds : t.fds = s.fds
  accepted : t.accepted = s.accepted
  pc : t.pc = s.pc
  connected : s.connected ≤ t.connected
  links : ∀ i, (s.links i).Client (t.links i)

theorem Link.Client.trans {l l' l'' : Link} (h : l.Client l') (h' : l'.Client l'') : l.Client l'' := by
  obtain ⟨x, hx, hx'⟩ := h.up
  obtain ⟨y, hy, hy'⟩ := h'.up
  obtain ⟨z, hz, hz'⟩ := h.down
  obtain ⟨u, hu, hu'⟩ := h'.down
  exact ⟨⟨x ++ y, by rw [hy, hx, List.append_assoc], by rw [hy', hx', List.append_assoc]⟩,
    ⟨z ++ u, by rw [hu, hz, List.append_assoc], by rw [hz', hu', List.append_assoc]⟩,
    h'.epoll.trans h.epoll, h'.taken.trans h.taken, h'.posted.trans h.posted, h'.shown.trans h.shown⟩

theorem Outside.refl (s : State ι σ) : Outside s s :=
  ⟨rfl, rfl, rfl, rfl, rfl, rfl, rfl, rfl, Nat.le_refl _, fun _ => Link.Client.refl _⟩

theorem Outside.trans {s t u : State ι σ} (h : Outside s t) (h' : Outside t u) : Outside s u :=
  ⟨h'.connMap.trans h.connMap, h'.workEpollFdIdx.trans h.workEpollFdIdx, h'.workEpollFdSize.trans h.workEpollFdSize,
    h'.workSocketList.trans h.workSocketList, h'.app.trans h.app, h'.fds.trans h.fds, h'.accepted.trans h.accepted,
    h'.pc.trans h.pc, Nat.le_trans h.connected h'.connected, fun i => (h.links i).trans (h'.links i)⟩

section Client

variable (s : State ι σ) (c : ι)

theorem outside_setClient (x : Client) : Outside s (s.setClient c x) :=
  ⟨rfl, rfl, rfl, rfl, rfl, rfl, rfl, rfl, Nat.le_refl _, fun _ => Link.Client.refl _⟩

theorem outside_setLink {i : ℕ} {l : Link} (h : (s.links i).Client l) : Outside s (s.setLink i l) := by
  refine ⟨rfl, rfl, rfl, rfl, rfl, rfl, rfl, rfl, Nat.le_refl _, fun j => ?_⟩
  show (s.links j).Client (update s.links i l j)
  rcases eq_or_ne j i with rfl | hj
  · rwa [update_self]
  · rw [update_of_ne hj]
    exact Link.Client.refl _

theorem outside_connect (connects : Bool) : Outside s (s.connect c connects) := by
  unfold State.connect
  split
  · exact ⟨rfl, rfl, rfl, rfl, rfl, rfl, rfl, rfl, Nat.le_succ _, fun _ => Link.Client.refl _⟩
  · exact outside_setClient s c _

theorem outside_startSend (data : Bytes) : Outside s (s.startSend c data) := by
  unfold State.startSend
  dsimp only
  split
  · exact outside_setClient s c _
  · exact outside_setClient s c _

theorem outside_startRecv (len : ℕ) : Outside s (s.startRecv c len) := by
  unfold State.startRecv
  dsimp only
  split
  · exact outside_setClient s c _
  · exact outside_setClient s c _

theorem outside_refused : Outside s (s.refused c) :=
  (outside_connect s c false).trans (outside_setClient _ c _)

theorem outside_send (data : Bytes) (connects : Bool) : Outside s (s.send c data connects) := by
  unfold State.send
  split
  · exact outside_startSend s c data
  · split
    · exact (outside_connect s c true).trans (outside_startSend _ c data)
    · exact outside_refused s c

theorem outside_recv (len : ℕ) (connects : Bool) : Outside s (s.recv c len connects) := by
  unfold State.recv
  split
  · exact outside_startRecv s c len
  · split
    · exact (outside_connect s c true).trans (outside_startRecv _ c len)
    · exact outside_refused s c

theorem outside_hangUp : Outside s (s.hangUp c) := by
  unfold State.hangUp
  split
  · exact Outside.refl s
  · exact outside_setLink s ⟨⟨[], by simp⟩, ⟨[], by simp⟩, rfl, rfl, rfl, rfl⟩

theorem outside_broken : Outside s (s.broken c) := (outside_hangUp s c).trans (outside_setClient _ c _)

variable {s c} {t : State ι σ} {io : Io}

theorem outside_of_writen {data rest : Bytes} (h : s.writen c data rest io = some t) : Outside s t := by
  unfold State.writen at h
  dsimp only at h
  split at h
  · cases h
    exact outside_broken s c
  · next i k _ =>
    split at h
    case isFalse => cases h
    case isTrue hk =>
      have hl := outside_setLink s (i := i) (l := { s.links i with
        sent := (s.links i).sent ++ rest.take k, toServer := (s.links i).toServer ++ rest.take k })
        ⟨⟨_, rfl, rfl⟩, ⟨[], by simp⟩, rfl, rfl, rfl, rfl⟩
      split at h <;> cases h <;> exact hl.trans (outside_setClient _ c _)
  · cases h
    exact Outside.refl s
  · cases h
    exact Outside.refl s
  · cases h

theorem outside_of_readn {len : ℕ} {got : Bytes} (h : s.readn c len got io = some t) : Outside s t := by
  unfold State.readn at h
  dsimp only at h
  split at h
  · cases h
    exact outside_broken s c
  · next i k _ =>
    split at h
    case isFalse => cases h
    case isTrue hk =>
      have hl := outside_setLink s (i := i) (l := { s.links i with
        received := (s.links i).received ++ (s.links i).toClient.take k, toClient := (s.links i).toClient.drop k })
        ⟨⟨[], by simp⟩, ⟨_, rfl, (List.take_append_drop ..).symm⟩, rfl, rfl, rfl, rfl⟩
      split at h <;> cases h <;> exact hl.trans (outside_setClient _ c _)
  · cases h
    exact Outside.refl s
  · cases h
    exact Outside.refl s
  · cases h

end Client

/-! ## Steps of a worker -/

/-- What the step of worker `w` can do. -/
inductive Worked (app : App σ) (s : State ι σ) (w : ℕ) (io : Io) : State ι σ → Prop
  /-- nothing but move -/
  | move (sock : ℤ) (c : Pc) (hp : s.pc w = .handleWriteEvent sock ∨ s.pc w = .handleReadEvent sock)
      (hc : c = .closeConnection sock ∨ c = .wait ∨ c = .handleReadEvent sock) : Worked app s w io (s.goto w c)
  /-- `write` of a part of the output buffer -/
  | flush (sock : ℤ) (conn : Connection) (k : ℕ) (c : Pc) (hp : s.pc w = .handleWriteEvent sock)
      (hm : s.connMap sock = some conn) (hk : k ≤ conn.writeBuf.length)
      (hc : c = .closeConnection sock ∨ c = .wait ∨ c = .handleReadEvent sock) :
      Worked app s w io (((s.atLink conn.socket fun l => { l with toClient := l.toClient ++ conn.writeBuf.take k }).setConn sock
        { conn with writeBuf := conn.writeBuf.drop k }).goto w c)
  /-- `read` -/
  | read (sock : ℤ) (conn : Connection) (k i : ℕ) (br : Bool) (hp : s.pc w = .handleReadEvent sock)
      (hm : s.connMap sock = some conn) (hi : s.fds sock = some i) (h0 : 0 < k)
      (hk : k ≤ kMaxConnectionBufSize - conn.readBuf.length) (hl : k ≤ (s.links i).toServer.length) :
      Worked app s w io (((s.setLink i { s.links i with toServer := (s.links i).toServer.drop k }).setConn sock
        { conn with readBuf := conn.readBuf ++ (s.links i).toServer.take k }).goto w (.doRecv sock br))
  /-- `DoRecv` -/
  | recv (sock : ℤ) (br : Bool) (conn : Connection) (hp : s.pc w = .doRecv sock br) (hm : s.connMap sock = some conn) :
      Worked app s w io
        (({ s with app := (app.doRecv s.app sock conn.readBuf).1 }.atLink sock fun l =>
          { l with shown := l.shown + conn.readBuf.length }).goto w
            (.doSend sock br (app.doRecv s.app sock conn.readBuf).2.1 (app.doRecv s.app sock conn.readBuf).2.2))
  /-- `DoSend` -/
  | send (sock : ℤ) (br : Bool) (ret : ℤ) (data : Bytes) (msgs : List Bytes)
      (hp : s.pc w = .doSend sock br ret (data :: msgs)) (hio : s.canWrite sock data io = true) :
      Worked app s w io ((s.doSend sock data io).2.goto w (.doSend sock br ret msgs))
  /-- the bytes that `DoRecv` has taken leave the buffer -/
  | take (sock : ℤ) (br : Bool) (ret : ℤ) (conn : Connection) (c : Pc) (hp : s.pc w = .doSend sock br ret [])
      (hm : s.connMap sock = some conn) (h0 : 0 ≤ ret) (hl : ret ≤ conn.readBuf.length)
      (hc : c = .closeConnection sock ∨ c = .wait ∨ c = .handleReadEvent sock) :
      Worked app s w io (((s.atLink sock fun l => { l with taken := l.taken ++ conn.readBuf.take ret.toNat }).setConn sock
        { conn with readBuf := conn.readBuf.drop ret.toNat }).goto w c)
  /-- `DoRecv` returned a value that it must not return -/
  | bad (sock : ℤ) (br : Bool) (ret : ℤ) (conn : Connection) (hp : s.pc w = .doSend sock br ret [])
      (hm : s.connMap sock = some conn) (hl : ret < 0 ∨ ret > conn.readBuf.length) :
      Worked app s w io (s.goto w (.closeConnection sock))
  /-- `CloseConnection` -/
  | close (sock : ℤ) (hp : s.pc w = .closeConnection sock) :
      Worked app s w io ((s.closeConnection sock).goto w .wait)

theorem State.goto_self (s : State ι σ) (w : ℕ) : s.goto w (s.pc w) = s := by
  rw [State.goto, update_eq_self]

theorem State.enterRead_eq (s : State ι σ) (w : ℕ) (sock : ℤ) :
    ∃ c, s.enterRead w sock = s.goto w c ∧ (c = .closeConnection sock ∨ c = .handleReadEvent sock) := by
  unfold State.enterRead
  split
  · next hm => exact ⟨_, by rw [State.closeConnection, hm], .inl rfl⟩
  · split
    · exact ⟨_, rfl, .inl rfl⟩
    · exact ⟨_, rfl, .inr rfl⟩

theorem State.event_eq (s : State ι σ) (w : ℕ) (sock : ℤ) (ev : Events) :
    ∃ c, s.event w sock ev = s.goto w c ∧
      (c = .closeConnection sock ∨ c = .handleWriteEvent sock ∨ c = .handleReadEvent sock) := by
  unfold State.event
  split
  · exact ⟨_, rfl, .inl rfl⟩
  · split
    · exact ⟨_, rfl, .inr (.inl rfl)⟩
    · obtain ⟨c, h, hc⟩ := s.enterRead_eq w sock
      exact ⟨c, h, hc.imp_right .inr⟩

variable {app : App σ} {s t : State ι σ} {w : ℕ} {io : Io}

theorem worked_of_handleWriteEvent {sock : ℤ} (hp : s.pc w = .handleWriteEvent sock)
    (h : s.handleWriteEvent w sock io = some t) : Worked app s w io t := by
  unfold State.handleWriteEvent at h
  split at h
  case h_1 hm =>
    cases h
    rw [State.closeConnection, hm]
    exact .move sock _ (.inl hp) (.inl rfl)
  case h_2 conn hm =>
    obtain ⟨c, he, hc⟩ := s.enterRead_eq w sock
    have hmove : Worked app s w io (s.enterRead w sock) := he ▸ .move sock c (.inl hp) (hc.imp_right .inr)
    split at h
    · cases h
      exact hmove
    · split at h
      case isFalse => cases h
      case isTrue hio =>
        split at h
        · next k =>
          have hk : k ≤ conn.writeBuf.length := by
            simp only [State.canWrite, Bool.and_eq_true, decide_eq_true_eq] at hio
            exact hio.2
          cases h
          obtain ⟨c, he, hc⟩ := ((s.atLink conn.socket fun l =>
            { l with toClient := l.toClient ++ conn.writeBuf.take k }).setConn sock
              { conn with writeBuf := conn.writeBuf.drop k }).enterRead_eq w sock
          rw [he]
          exact .flush sock conn k c hp hm hk (hc.imp_right .inr)
        · cases h
          exact hmove
        · cases h
          exact hmove
        · cases h
          exact .move sock _ (.inl hp) (.inl rfl)
        · cases h
          exact .move sock _ (.inl hp) (.inl rfl)

theorem worked_of_handleReadEvent {sock : ℤ} (hp : s.pc w = .handleReadEvent sock)
    (h : s.handleReadEvent w sock io = some t) : Worked app s w io t := by
  unfold State.handleReadEvent at h
  split at h
  case h_1 => cases h
  case h_2 conn hm =>
    dsimp only at h
    split at h
    case isFalse => cases h
    case isTrue hio =>
      split at h
      · next k =>
        split at h
        case h_1 => cases h
        case h_2 i hi =>
          cases h
          simp only [State.canRead, hi, Bool.and_eq_true, decide_eq_true_eq] at hio
          exact .read sock conn k i _ hp hm hi hio.1.1 hio.1.2 hio.2
      · cases h
        exact .move sock _ (.inr hp) (.inl rfl)
      · cases h
        exact .move sock _ (.inr hp) (.inl rfl)
      · cases h
        have : Worked app s w .eintr (s.goto w (s.pc w)) := .move sock _ (.inr hp) (.inr (.inr hp))
        rwa [State.goto_self] at this
      · cases h
        exact .move sock _ (.inr hp) (.inr (.inl rfl))

theorem worked_of_afterRecv {sock : ℤ} {br : Bool} {ret : ℤ} (hp : s.pc w = .doSend sock br ret [])
    (h : s.afterRecv w sock br ret = some t) : Worked app s w io t := by
  unfold State.afterRecv at h
  split at h
  case h_1 => cases h
  case h_2 conn hm =>
    split at h
    case isTrue hbad =>
      cases h
      exact .bad sock br ret conn hp hm hbad
    case isFalse hgood =>
      have h0 : 0 ≤ ret := by omega
      have hl : ret ≤ conn.readBuf.length := by omega
      dsimp only at h
      split at h
      · cases h
        exact .take sock br ret conn _ hp hm h0 hl (.inl rfl)
      · split at h
        · cases h
          exact .take sock br ret conn _ hp hm h0 hl (.inr (.inl rfl))
        · cases h
          exact .take sock br ret conn _ hp hm h0 hl (.inr (.inr rfl))

/-- **What the step of a worker can do.** -/
theorem worked_of_worker (h : s.worker app w io = some t) : Worked app s w io t := by
  unfold State.worker at h
  split at h
  case h_1 => cases h
  case h_2 sock hp => exact worked_of_handleWriteEvent hp h
  case h_3 sock hp => exact worked_of_handleReadEvent hp h
  case h_4 sock br hp =>
    unfold State.doRecv at h
    split at h
    case h_1 => cases h
    case h_2 conn hm =>
      cases h
      exact .recv sock br conn hp hm
  case h_5 sock br ret hp => exact worked_of_afterRecv hp h
  case h_6 sock br ret data msgs hp =>
    split at h <;> cases h
    exact .send sock br ret data msgs hp ‹_›
  case h_7 sock hp =>
    cases h
    exact .close sock hp

/-! ## Steps -/

/-- **What a step can do.** -/
inductive Step (app : App σ) (s : State ι σ) : Act ι → State ι σ → Prop
  | outside (a : Act ι) (t : State ι σ) (h : Outside s t) (ha : ∀ sock registers, a ≠ .accept sock registers) :
      Step app s a t
  | accept (sock : ℤ) (registers : Bool) (hacc : s.accepted < s.connected) (h0 : 0 < sock) (hf : s.fds sock = none) :
      Step app s (.accept sock registers) (s.accept sock registers)
  | event (w : ℕ) (sock : ℤ) (ev : Events) (i : ℕ) (c : Pc) (hp : s.pc w = .wait) (hi : s.fds sock = some i)
      (he : (s.links i).epoll = some w)
      (hc : c = .closeConnection sock ∨ c = .handleWriteEvent sock ∨ c = .handleReadEvent sock) :
      Step app s (.event w sock ev) (s.goto w c)
  | worker (w : ℕ) (io : Io) (t : State ι σ) (h : Worked app s w io t) : Step app s (.worker w io) t

theorem of_call {s t u : State ι σ} {c : ι} (h : s.call c t = some u) : (s.client c).pc = .idle ∧ t = u := by
  unfold State.call at h
  split at h
  case isFalse => cases h
  case isTrue hp => exact ⟨hp, Option.some.inj h⟩

theorem step_of_next {app : App σ} {s t : State ι σ} {a : Act ι} (h : next app s a = some t) : Step app s a t := by
  cases a with
  | init c connects =>
    obtain ⟨-, rfl⟩ := of_call h
    exact .outside _ _ ((outside_connect s c connects).trans (outside_setClient _ c _)) nofun
  | send c data connects =>
    obtain ⟨-, rfl⟩ := of_call h
    exact .outside _ _ (outside_send s c data connects) nofun
  | recv c len connects =>
    obtain ⟨-, rfl⟩ := of_call h
    exact .outside _ _ (outside_recv s c len connects) nofun
  | release c =>
    obtain ⟨-, rfl⟩ := of_call h
    exact .outside _ _ ((outside_hangUp s c).trans (outside_setClient _ c _)) nofun
  | client c io =>
    simp only [next] at h
    split at h
    · cases h
    · exact .outside _ _ (outside_of_writen h) nofun
    · exact .outside _ _ (outside_of_readn h) nofun
  | accept sock registers =>
    simp only [next] at h
    split at h
    case isFalse => cases h
    case isTrue hg =>
      cases h
      exact .accept sock registers hg.1 hg.2.1 hg.2.2
  | event w sock ev =>
    simp only [next] at h
    split at h
    case isFalse => cases h
    case isTrue hg =>
      cases h
      obtain ⟨hp, i, hi, he⟩ := hg
      obtain ⟨c, hc, hcs⟩ := s.event_eq w sock ev
      rw [hc]
      exact .event w sock ev i c hp hi he hcs
  | worker w io => exact .worker w io t (worked_of_worker h)

end Backend.Tcp
