import Backend.Tcp.Descriptors
import Mathlib.Data.List.Infix

/-!
# `TcpServer`: streams

* `Link.Open`, `Link.Shut`, `Flows`: where the bytes of a connection are, while the server's end is open and later;
* `posted_of_doSend`: what `DoSend` does;
* **`inv_of_reach`**: `Wired`, `Tended` and `Flows` hold in every state reached by steps that meet `Unheld`;
* `Distinct`, `reachIf_unheld`, `Sends`, **`unheld_of_sends`**: runs that meet `Unheld`;
* **`streams`**: what this says of a server, whatever its `DoRecv` does;
* `Kept`, `Kept.worked`: what no worker changes.
-/

set_option autoImplicit false
set_option linter.unusedSectionVars false

namespace Backend.Tcp

open Function

variable {ι σ : Type} [DecidableEq ι] {s t : State ι σ}

/-! ## Bytes -/

/-- **An open connection**, with `r` in the input and `w` in the output buffer. -/
structure Link.Open (l : Link) (r w : Bytes) : Prop where
  up : l.sent = l.taken ++ r ++ l.toServer
  down : l.posted = l.received ++ l.toClient ++ w

/-- A connection, also after the server has closed its end. -/
structure Link.Shut (l : Link) : Prop where
  up : l.taken <+: l.sent
  down : l.received ++ l.toClient <+: l.posted

/-- A connection that has not been accepted. -/
structure Link.Fresh (l : Link) : Prop where
  sent : l.sent = l.toServer
  received : l.received = []
  toClient : l.toClient = []
  taken : l.taken = []
  posted : l.posted = []
  shown : l.shown = 0
  epoll : l.epoll = none

theorem Link.Open.shut {l : Link} {r w : Bytes} (h : l.Open r w) : l.Shut :=
  ⟨⟨r ++ l.toServer, by rw [h.up, List.append_assoc]⟩, ⟨w, h.down.symm⟩⟩

theorem Link.Fresh.open {l : Link} (h : l.Fresh) : l.Open [] [] := by
  constructor
  · rw [h.taken, h.sent]
    rfl
  · rw [h.posted, h.received, h.toClient]
    rfl

theorem Link.Client.open {l l' : Link} (h : l.Client l') {r w : Bytes} (ho : l.Open r w) : l'.Open r w := by
  obtain ⟨x, hx, hx'⟩ := h.up
  obtain ⟨y, hy, hy'⟩ := h.down
  constructor
  · rw [hx, hx', h.taken, ho.up, List.append_assoc _ _ x]
  · rw [h.posted, ho.down, hy, hy', List.append_assoc _ y]

theorem Link.Client.shut {l l' : Link} (h : l.Client l') (hs : l.Shut) : l'.Shut := by
  obtain ⟨x, hx, -⟩ := h.up
  obtain ⟨y, hy, hy'⟩ := h.down
  constructor
  · rw [h.taken, hx]
    exact hs.up.trans (List.prefix_append ..)
  · rw [h.posted, hy, List.append_assoc, ← hy']
    exact hs.down

theorem Link.Client.fresh {l l' : Link} (h : l.Client l') (hf : l.Fresh) : l'.Fresh := by
  obtain ⟨x, hx, hx'⟩ := h.up
  obtain ⟨y, hy, hy'⟩ := h.down
  rw [hf.toClient] at hy'
  obtain ⟨rfl, hnil⟩ := List.append_eq_nil_iff.mp hy'.symm
  exact ⟨by rw [hx, hx', hf.sent], by rw [hy, hf.received]; rfl, hnil, h.taken.trans hf.taken,
    h.posted.trans hf.posted, h.shown.trans hf.shown, h.epoll.trans hf.epoll⟩

/-- **Where the bytes are.** -/
structure Flows (s : State ι σ) : Prop where
  opened : ∀ f i conn, s.fds f = some i → s.connMap f = some conn → (s.links i).Open conn.readBuf conn.writeBuf
  shut : ∀ i, (s.links i).Shut
  fresh : ∀ i, s.accepted ≤ i → (s.links i).Fresh
  room : ∀ f conn, s.connMap f = some conn →
    conn.readBuf.length ≤ kMaxConnectionBufSize ∧ conn.writeBuf.length ≤ kMaxConnectionBufSize

theorem Flows.goto (h : Flows s) (w : ℕ) (c : Pc) : Flows (s.goto w c) := ⟨h.opened, h.shut, h.fresh, h.room⟩

theorem Flows.outside (h : Flows s) (ho : Outside s t) : Flows t := by
  constructor
  · rw [ho.fds, ho.connMap]
    exact fun f i conn hi hm => (ho.links i).open (h.opened f i conn hi hm)
  · exact fun i => (ho.links i).shut (h.shut i)
  · rw [ho.accepted]
    exact fun i hi => (ho.links i).fresh (h.fresh i hi)
  · rw [ho.connMap]
    exact h.room

theorem Flows.accept (h : Flows s) (hw : Wired s) {sock : ℤ} (registers : Bool) : Flows (s.accept sock registers) := by
  have hfresh := h.fresh s.accepted le_rfl
  constructor
  · intro f i conn hi hm
    rw [accept_links]
    rcases update_some hi with ⟨rfl, rfl⟩ | ⟨hne, hi⟩
    · rcases update_some hm with ⟨-, rfl⟩ | ⟨hne, -⟩
      · rw [if_pos rfl]
        exact ⟨hfresh.open.up, hfresh.open.down⟩
      · exact absurd rfl hne
    · rcases update_some hm with ⟨rfl, -⟩ | ⟨-, hm⟩
      · exact absurd rfl hne
      · rw [if_neg (hw.bound f i hi).ne]
        exact h.opened f i conn hi hm
  · intro i
    rw [accept_links]
    by_cases hi : i = s.accepted
    · rw [if_pos hi]
      exact ⟨(h.shut i).up, (h.shut i).down⟩
    · rw [if_neg hi]
      exact h.shut i
  · intro i hi
    rw [accept_links, if_neg (Nat.ne_of_gt hi)]
    exact h.fresh i (Nat.le_of_succ_le hi)
  · intro f conn hm
    rcases update_some hm with ⟨-, rfl⟩ | ⟨-, hm⟩
    · exact ⟨Nat.zero_le _, Nat.zero_le _⟩
    · exact h.room f conn hm

/-- **The rule for a step at one descriptor**: what it does to the connection and to the buffers goes together. -/
theorem Flows.update (h : Flows s) (hw : Wired s) {sock : ℤ} {conn conn' : Connection} {g : Link → Link}
    (hm : s.connMap sock = some conn)
    (hg : ∀ i, s.fds sock = some i → (s.links i).Open conn.readBuf conn.writeBuf →
      (g (s.links i)).Open conn'.readBuf conn'.writeBuf)
    (hr : conn'.readBuf.length ≤ kMaxConnectionBufSize ∧ conn'.writeBuf.length ≤ kMaxConnectionBufSize) :
    Flows ((s.atLink sock g).setConn sock conn') := by
  constructor
  · intro f i x hi hx
    show Link.Open (if s.fds sock = some i then g (s.links i) else s.links i) x.readBuf x.writeBuf
    rcases update_some hx with ⟨rfl, rfl⟩ | ⟨hne, hx⟩
    · rw [if_pos (show s.fds f = some i from hi)]
      exact hg i hi (h.opened f i conn hi hm)
    · rw [if_neg fun hs => hne (hw.inj f sock i hi hs)]
      exact h.opened f i x hi hx
  · intro i
    show Link.Shut (if s.fds sock = some i then g (s.links i) else s.links i)
    split_ifs with hi
    · exact (hg i hi (h.opened sock i conn hi hm)).shut
    · exact h.shut i
  · intro i hi
    have hne : s.fds sock ≠ some i := fun hs => absurd (hw.bound sock i hs) (Nat.not_lt.mpr hi)
    show Link.Fresh (if s.fds sock = some i then g (s.links i) else s.links i)
    rw [if_neg hne]
    exact h.fresh i hi
  · intro f x hx
    rcases update_some hx with ⟨-, rfl⟩ | ⟨-, hx⟩
    · exact hr
    · exact h.room f x hx

theorem Flows.updateClose (h : Flows s) (hw : Wired s) {sock : ℤ} {conn : Connection} {g : Link → Link}
    (hm : s.connMap sock = some conn) (hg : ∀ l : Link, l.Open conn.readBuf conn.writeBuf → (g l).Shut) :
    Flows ((s.atLink sock g).closeConnection sock) := by
  rw [closeConnection_eq (hw.atLink sock g) hm]
  constructor
  · intro f i x hi hx
    obtain ⟨hne, hi⟩ := update_none hi
    show Link.Open (if s.fds sock = some i then g (s.links i) else s.links i) x.readBuf x.writeBuf
    rw [if_neg fun hs => hne (hw.inj f sock i hi hs)]
    rcases update_some hx with ⟨rfl, -⟩ | ⟨-, hx⟩
    · exact absurd rfl hne
    · exact h.opened f i x hi hx
  · intro i
    show Link.Shut (if s.fds sock = some i then g (s.links i) else s.links i)
    split_ifs with hi
    · exact hg _ (h.opened sock i conn hi hm)
    · exact h.shut i
  · intro i hi
    have hne : s.fds sock ≠ some i := fun hs => absurd (hw.bound sock i hs) (Nat.not_lt.mpr hi)
    show Link.Fresh (if s.fds sock = some i then g (s.links i) else s.links i)
    rw [if_neg hne]
    exact h.fresh i hi
  · intro f x hx
    rcases update_some hx with ⟨-, rfl⟩ | ⟨-, hx⟩
    · exact ⟨Nat.zero_le _, Nat.zero_le _⟩
    · exact h.room f x hx

theorem atLink_id (s : State ι σ) (sock : ℤ) : s.atLink sock id = s := by
  unfold State.atLink
  simp only [id, ite_self]

theorem Flows.close (h : Flows s) (hw : Wired s) (sock : ℤ) : Flows (s.closeConnection sock) := by
  cases hm : s.connMap sock with
  | none =>
    rw [State.closeConnection, hm]
    exact h
  | some conn =>
    have := h.updateClose hw (g := id) hm fun l hl => hl.shut
    rwa [atLink_id] at this

/-! ## `DoSend` -/

/-- What `DoSend` does to a connection where it writes `k` bytes at once. -/
def Link.post (data : Bytes) (k : ℕ) (l : Link) : Link :=
  { l with posted := l.posted ++ data, toClient := l.toClient ++ data.take k }

theorem Link.post_zero (data : Bytes) : (fun l : Link => { l with posted := l.posted ++ data }) = Link.post data 0 := by
  funext l
  simp only [Link.post, List.take_zero, List.append_nil]

theorem atLink_atLink (s : State ι σ) (sock : ℤ) (g g' : Link → Link) :
    (s.atLink sock g).atLink sock g' = s.atLink sock fun l => g' (g l) := by
  unfold State.atLink
  simp only [State.mk.injEq, true_and, and_true]
  funext i
  split_ifs <;> rfl

theorem setConn_self {sock : ℤ} {conn : Connection} (hm : s.connMap sock = some conn) : s.setConn sock conn = s := by
  unfold State.setConn
  rw [← hm, update_eq_self]

/-- Which bytes of `data` are written at once, which are kept. -/
structure Posted (s t : State ι σ) (sock : ℤ) (conn : Connection) (data : Bytes) (k : ℕ) : Prop where
  le : k ≤ data.length
  later : conn.writeBuf ≠ [] → k = 0
  eq : (t = (s.atLink sock (Link.post data k)).setConn sock { conn with writeBuf := conn.writeBuf ++ data.drop k } ∧
      (conn.writeBuf ++ data.drop k).length ≤ kMaxConnectionBufSize) ∨
    t = (s.atLink sock (Link.post data k)).closeConnection sock

/-- **What `DoSend` does.** -/
theorem posted_of_doSend (hw : Wired s) {sock : ℤ} {conn : Connection} (hm : s.connMap sock = some conn) {data : Bytes}
    {io : Io} (hio : s.canWrite sock data io = true) : ∃ k, Posted s (s.doSend sock data io).2 sock conn data k := by
  obtain rfl := hw.socket sock conn hm
  unfold State.doSend
  rw [hm]
  dsimp only
  rw [Link.post_zero]
  split
  · next hne =>
    split
    · exact ⟨0, Nat.zero_le _, fun _ => rfl, .inr rfl⟩
    · next hle => exact ⟨0, Nat.zero_le _, fun _ => rfl, .inl ⟨rfl, by rw [List.drop_zero, List.length_append]; omega⟩⟩
  · next he =>
    have he : conn.writeBuf = [] := not_not.mp he
    have hlate : ∀ k, conn.writeBuf ≠ [] → k = 0 := fun _ hne => absurd he hne
    cases io with
    | done k =>
      simp only [State.canWrite, Bool.and_eq_true, decide_eq_true_eq] at hio
      have hpost : ((s.atLink conn.socket (Link.post data 0)).atLink conn.socket fun l =>
          { l with toClient := l.toClient ++ data.take k }) = s.atLink conn.socket (Link.post data k) := by
        rw [atLink_atLink]
        simp only [Link.post, List.take_zero, List.append_nil]
        rfl
      refine ⟨k, hio.2, hlate k, ?_⟩
      dsimp only
      rw [hpost]
      split
      · next hk =>
        refine .inl ⟨?_, by rw [hk, List.drop_length, he]; exact Nat.zero_le _⟩
        rw [hk, List.drop_length, List.append_nil, setConn_self (by exact hm)]
      · split
        · exact .inr rfl
        · exact .inl ⟨by rw [he, List.nil_append], by rw [he, List.nil_append]; omega⟩
    | eof => cases hio
    | eintr =>
      refine ⟨0, Nat.zero_le _, fun _ => rfl, ?_⟩
      dsimp only
      split
      · exact .inr rfl
      · exact .inl ⟨by rw [he]; rfl, by rw [he]; simpa using Nat.not_lt.mp ‹_›⟩
    | again =>
      refine ⟨0, Nat.zero_le _, fun _ => rfl, ?_⟩
      dsimp only
      split
      · exact .inr rfl
      · exact .inl ⟨by rw [he]; rfl, by rw [he]; simpa using Nat.not_lt.mp ‹_›⟩
    | fail => exact ⟨0, Nat.zero_le _, fun _ => rfl, .inr rfl⟩

theorem Link.Open.post {l : Link} {conn : Connection} (h : l.Open conn.readBuf conn.writeBuf) {data : Bytes} {k : ℕ}
    (hl : conn.writeBuf ≠ [] → k = 0) : (l.post data k).Open conn.readBuf (conn.writeBuf ++ data.drop k) := by
  refine ⟨h.up, ?_⟩
  show l.posted ++ data = l.received ++ (l.toClient ++ data.take k) ++ (conn.writeBuf ++ data.drop k)
  rw [h.down]
  by_cases hw : conn.writeBuf = []
  · rw [hw, List.append_nil, List.nil_append, ← List.append_assoc l.received, List.append_assoc _ (data.take k),
      List.take_append_drop]
  · rw [hl hw, List.take_zero, List.drop_zero, List.append_nil, List.append_assoc]

/-! ## The invariant -/

/-- **The invariant.** -/
structure Inv (s : State ι σ) : Prop where
  wired : Wired s
  tended : Tended s
  flows : Flows s

theorem inv_init (size : ℕ) (a : σ) : Inv (State.init size a : State ι σ) := by
  refine ⟨⟨nofun, nofun, nofun, nofun, nofun, le_rfl⟩, ⟨nofun, nofun, nofun⟩,
    ⟨nofun, fun _ => ⟨List.prefix_rfl, List.prefix_rfl⟩, fun _ _ => ⟨rfl, rfl, rfl, rfl, rfl, rfl, rfl⟩, nofun⟩⟩

theorem Inv.goto (h : Inv s) {w : ℕ} {c : Pc} (hc : c.sock? = none ∨ c.sock? = (s.pc w).sock?) : Inv (s.goto w c) :=
  ⟨h.wired.goto w c, h.tended.goto hc, h.flows.goto w c⟩

theorem Inv.outside (h : Inv s) (ho : Outside s t) : Inv t :=
  ⟨h.wired.outside ho, h.tended.congr ho.pc (fun _ _ hi => ho.fds ▸ hi) (fun i => (ho.links i).epoll)
    ho.workSocketList, h.flows.outside ho⟩

theorem Inv.update (h : Inv s) {sock : ℤ} {conn conn' : Connection} {g : Link → Link}
    (hm : s.connMap sock = some conn) (hs : conn'.socket = conn.socket) (hu : conn'.inUse = conn.inUse)
    (hg : ∀ i, s.fds sock = some i → (s.links i).Open conn.readBuf conn.writeBuf →
      (g (s.links i)).Open conn'.readBuf conn'.writeBuf)
    (he : ∀ l, (g l).epoll = l.epoll)
    (hr : conn'.readBuf.length ≤ kMaxConnectionBufSize ∧ conn'.writeBuf.length ≤ kMaxConnectionBufSize) :
    Inv ((s.atLink sock g).setConn sock conn') := by
  refine ⟨(h.wired.atLink sock g).setConn hm hs hu, h.tended.congr rfl (fun _ _ hi => hi) (fun i => ?_) rfl,
    h.flows.update h.wired hm hg hr⟩
  show (if s.fds sock = some i then g (s.links i) else s.links i).epoll = _
  split_ifs
  · exact he _
  · rfl

theorem closeConnection_pc (s : State ι σ) (sock : ℤ) : (s.closeConnection sock).pc = s.pc := by
  unfold State.closeConnection
  split <;> rfl

theorem closeConnection_links (s : State ι σ) (sock : ℤ) : (s.closeConnection sock).links = s.links := by
  unfold State.closeConnection
  split <;> rfl

theorem closeConnection_workSocketList (s : State ι σ) (sock : ℤ) :
    (s.closeConnection sock).workSocketList = s.workSocketList := by
  unfold State.closeConnection
  split <;> rfl

theorem Tended.close (h : Tended s) (hw : Wired s) (sock : ℤ) : Tended (s.closeConnection sock) := by
  refine h.congr (closeConnection_pc s sock) (fun f i hi => ?_) (fun i => by rw [closeConnection_links])
    (closeConnection_workSocketList s sock)
  cases hm : s.connMap sock with
  | none => rwa [State.closeConnection, hm] at hi
  | some conn =>
    rw [closeConnection_eq hw hm] at hi
    exact (update_none hi).2

theorem Inv.close (h : Inv s) (sock : ℤ) : Inv (s.closeConnection sock) :=
  ⟨h.wired.close sock, h.tended.close h.wired sock, h.flows.close h.wired sock⟩

theorem doSend_pc (hw : Wired s) {sock : ℤ} {data : Bytes} {io : Io} (hio : s.canWrite sock data io = true) :
    (s.doSend sock data io).2.pc = s.pc := by
  cases hm : s.connMap sock with
  | none =>
    rw [State.doSend, hm]
    exact closeConnection_pc s sock
  | some conn =>
    obtain ⟨k, hk⟩ := posted_of_doSend hw hm hio
    rcases hk.eq with ⟨he, -⟩ | he
    · rw [he]
      rfl
    · rw [he, closeConnection_pc]
      rfl

theorem Inv.posted (h : Inv s) {sock : ℤ} {conn : Connection} (hm : s.connMap sock = some conn) {data : Bytes} {k : ℕ}
    (hp : Posted s t sock conn data k) : Inv t := by
  rcases hp.eq with ⟨rfl, hle⟩ | rfl
  · exact h.update hm rfl rfl (fun _ _ hl => hl.post hp.later) (fun _ => rfl) ⟨(h.flows.room sock conn hm).1, hle⟩
  · have hw := h.wired.atLink sock (Link.post data k)
    have ht : Tended (s.atLink sock (Link.post data k)) := by
      refine h.tended.congr rfl (fun _ _ hi => hi) (fun i => ?_) rfl
      show (if s.fds sock = some i then Link.post data k (s.links i) else s.links i).epoll = _
      split_ifs <;> rfl
    exact ⟨hw.close sock, ht.close hw sock, h.flows.updateClose h.wired hm fun l hl => (hl.post hp.later).shut⟩

theorem sock?_of_next {sock : ℤ} {c p : Pc} (hp : p.sock? = some sock)
    (hc : c = .closeConnection sock ∨ c = .wait ∨ c = .handleReadEvent sock) : c.sock? = none ∨ c.sock? = p.sock? := by
  rw [hp]
  rcases hc with rfl | rfl | rfl
  · exact .inr rfl
  · exact .inl rfl
  · exact .inr rfl

theorem setLink_eq_atLink {sock : ℤ} {i : ℕ} (hi : s.fds sock = some i) (g : Link → Link) :
    s.setLink i (g (s.links i)) = s.atLink sock g := by
  unfold State.setLink State.atLink
  congr 1
  funext j
  rw [hi, update_apply]
  by_cases hj : j = i
  · rw [if_pos hj, if_pos (by rw [hj]), hj]
  · rw [if_neg hj, if_neg fun h => hj (Option.some.inj h).symm]

/-- **One step of a worker.** -/
theorem Inv.worked {app : App σ} {w : ℕ} {io : Io} (h : Inv s) (hw : Worked app s w io t) : Inv t := by
  cases hw with
  | move sock c hp hc =>
    have hs : (s.pc w).sock? = some sock := by
      rcases hp with hp | hp
      · rw [hp]
        rfl
      · rw [hp]
        rfl
    exact h.goto (sock?_of_next hs hc)
  | flush sock conn k c hp hm hk hc =>
    have hroom := h.flows.room sock conn hm
    rw [h.wired.socket sock conn hm]
    refine Inv.goto ?_ (sock?_of_next (congrArg Pc.sock? hp) hc)
    refine h.update hm (h.wired.socket sock conn hm).symm rfl ?_ (fun _ => rfl) ⟨hroom.1, ?_⟩
    · intro i hi hl
      refine ⟨hl.up, ?_⟩
      show (s.links i).posted =
        (s.links i).received ++ ((s.links i).toClient ++ conn.writeBuf.take k) ++ conn.writeBuf.drop k
      rw [hl.down, ← List.append_assoc (s.links i).received, List.append_assoc _ (conn.writeBuf.take k),
        List.take_append_drop]
    · show (conn.writeBuf.drop k).length ≤ _
      rw [List.length_drop]
      exact (Nat.sub_le ..).trans hroom.2
  | read sock conn k i br hp hm hi h0 hk hl =>
    have hroom := h.flows.room sock conn hm
    rw [setLink_eq_atLink hi fun l => { l with toServer := l.toServer.drop k }]
    refine Inv.goto ?_ (.inr (congrArg Pc.sock? hp).symm)
    refine h.update hm rfl rfl ?_ (fun _ => rfl) ⟨?_, hroom.2⟩
    · intro j hj ho
      obtain rfl := Option.some.inj (hi.symm.trans hj)
      refine ⟨?_, ho.down⟩
      show (s.links i).sent =
        (s.links i).taken ++ (conn.readBuf ++ (s.links i).toServer.take k) ++ (s.links i).toServer.drop k
      rw [ho.up, ← List.append_assoc (s.links i).taken, List.append_assoc _ ((s.links i).toServer.take k),
        List.take_append_drop]
    · show (conn.readBuf ++ (s.links i).toServer.take k).length ≤ _
      rw [List.length_append, List.length_take]
      omega
  | recv sock br conn hp hm =>
    have ha : Inv { s with app := (app.doRecv s.app sock conn.readBuf).1 } := ⟨⟨h.wired.socket, h.wired.mapped,
      h.wired.inUse, h.wired.bound, h.wired.inj, h.wired.accepted_le⟩, ⟨h.tended.epoll, h.tended.alone, h.tended.listed⟩,
      ⟨h.flows.opened, h.flows.shut, h.flows.fresh, h.flows.room⟩⟩
    refine Inv.goto ?_ (.inr (congrArg Pc.sock? hp).symm)
    have hself : ({ s with app := (app.doRecv s.app sock conn.readBuf).1 }.atLink sock fun l =>
        { l with shown := l.shown + conn.readBuf.length }).setConn sock conn = _ := setConn_self hm
    rw [← hself]
    exact ha.update hm rfl rfl (fun _ _ hl => ⟨hl.up, hl.down⟩) (fun _ => rfl) (h.flows.room sock conn hm)
  | send sock br ret data msgs hp hio =>
    have hsock : (s.pc w).sock? = some sock := congrArg Pc.sock? hp
    cases hm : s.connMap sock with
    | none =>
      rw [State.doSend, hm]
      exact (h.close sock).goto (.inr (by rw [closeConnection_pc, hsock]; rfl))
    | some conn =>
      obtain ⟨k, hk⟩ := posted_of_doSend h.wired hm hio
      exact (h.posted hm hk).goto (.inr (by rw [doSend_pc h.wired hio, hsock]; rfl))
  | take sock br ret conn c hp hm h0 hl hc =>
    have hroom := h.flows.room sock conn hm
    refine Inv.goto ?_ (sock?_of_next (congrArg Pc.sock? hp) hc)
    refine h.update hm rfl rfl ?_ (fun _ => rfl) ⟨?_, hroom.2⟩
    · intro i hi ho
      refine ⟨?_, ho.down⟩
      show (s.links i).sent =
        (s.links i).taken ++ conn.readBuf.take ret.toNat ++ conn.readBuf.drop ret.toNat ++ (s.links i).toServer
      rw [ho.up, List.append_assoc _ (conn.readBuf.take ret.toNat), List.take_append_drop]
    · show (conn.readBuf.drop ret.toNat).length ≤ _
      rw [List.length_drop]
      exact (Nat.sub_le ..).trans hroom.1
  | bad sock br ret conn hp hm hl => exact h.goto (.inr (congrArg Pc.sock? hp).symm)
  | close sock hp => exact (h.close sock).goto (.inl rfl)

/-- **One step.** -/
theorem Inv.step {app : App σ} {a : Act ι} (h : Inv s) (hu : Unheld s a) (hn : next app s a = some t) : Inv t := by
  cases step_of_next hn with
  | outside a t ho hne => exact h.outside ho
  | accept sock registers hacc h0 hf =>
    exact ⟨h.wired.accept registers hacc h0 hf, h.tended.accept h.wired (hu sock registers rfl),
      h.flows.accept h.wired registers⟩
  | event w sock ev i c hp hi he hc =>
    have hsock : c.sock? = some sock := by rcases hc with rfl | rfl | rfl <;> rfl
    exact ⟨h.wired.goto w c, h.tended.event h.wired hi he hsock, h.flows.goto w c⟩
  | worker w io t hw => exact h.worked hw

/-- **Every run.** -/
theorem inv_of_reach {app : App σ} {size : ℕ} {a : σ} (h : ReachIf (next app) Unheld (State.init size a) s) : Inv s :=
  h.inv (inv_init size a) fun _ _ _ hi ha hn => hi.step ha hn

/-! ## What the workers leave alone -/

/-- What no worker changes. -/
structure Kept (s t : State ι σ) : Prop where
  workEpollFdIdx : t.workEpollFdIdx = s.workEpollFdIdx
  workEpollFdSize : t.workEpollFdSize = s.workEpollFdSize
  accepted : t.accepted = s.accepted
  connected : t.connected = s.connected
  client : t.client = s.client
  links : ∀ i, (t.links i).epoll = (s.links i).epoll ∧ (t.links i).sent = (s.links i).sent ∧
    (t.links i).received = (s.links i).received

theorem Kept.of_links (hi : t.workEpollFdIdx = s.workEpollFdIdx) (hs : t.workEpollFdSize = s.workEpollFdSize)
    (ha : t.accepted = s.accepted) (hc : t.connected = s.connected) (hx : t.client = s.client) (hl : t.links = s.links) :
    Kept s t :=
  ⟨hi, hs, ha, hc, hx, fun _ => by rw [hl]; exact ⟨rfl, rfl, rfl⟩⟩

theorem Kept.trans {u : State ι σ} (h : Kept s t) (h' : Kept t u) : Kept s u :=
  ⟨h'.workEpollFdIdx.trans h.workEpollFdIdx, h'.workEpollFdSize.trans h.workEpollFdSize, h'.accepted.trans h.accepted,
    h'.connected.trans h.connected, h'.client.trans h.client, fun i => ⟨(h'.links i).1.trans (h.links i).1,
      (h'.links i).2.1.trans (h.links i).2.1, (h'.links i).2.2.trans (h.links i).2.2⟩⟩

theorem Kept.goto (h : Kept s t) (w : ℕ) (c : Pc) : Kept s (t.goto w c) :=
  ⟨h.workEpollFdIdx, h.workEpollFdSize, h.accepted, h.connected, h.client, h.links⟩

theorem Kept.atLink (s : State ι σ) (sock : ℤ) {g : Link → Link}
    (hg : ∀ l, (g l).epoll = l.epoll ∧ (g l).sent = l.sent ∧ (g l).received = l.received) : Kept s (s.atLink sock g) := by
  refine ⟨rfl, rfl, rfl, rfl, rfl, fun i => ?_⟩
  show (if s.fds sock = some i then g (s.links i) else s.links i).epoll = _ ∧
    (if s.fds sock = some i then g (s.links i) else s.links i).sent = _ ∧
    (if s.fds sock = some i then g (s.links i) else s.links i).received = _
  by_cases hi : s.fds sock = some i
  · rw [if_pos hi]
    exact hg _
  · rw [if_neg hi]
    exact ⟨rfl, rfl, rfl⟩

theorem Kept.atSock (s : State ι σ) (sock : ℤ) (conn : Connection) {g : Link → Link}
    (hg : ∀ l, (g l).epoll = l.epoll ∧ (g l).sent = l.sent ∧ (g l).received = l.received) :
    Kept s ((s.atLink sock g).setConn sock conn) :=
  (Kept.atLink s sock hg).trans (Kept.of_links rfl rfl rfl rfl rfl rfl)

theorem Kept.close (s : State ι σ) (sock : ℤ) : Kept s (s.closeConnection sock) := by
  unfold State.closeConnection
  split <;> exact Kept.of_links rfl rfl rfl rfl rfl rfl

theorem Kept.worked {app : App σ} {w : ℕ} {io : Io} (hw : Wired s) (h : Worked app s w io t) : Kept s t := by
  cases h with
  | move sock c => exact (Kept.of_links rfl rfl rfl rfl rfl rfl).goto w c
  | flush sock conn k c hp hm =>
    rw [hw.socket sock conn hm]
    refine Kept.goto ?_ w c
    exact Kept.atSock s sock _ fun _ => ⟨rfl, rfl, rfl⟩
  | read sock conn k i br hp hm hi =>
    rw [setLink_eq_atLink hi fun l => { l with toServer := l.toServer.drop k }]
    refine Kept.goto ?_ w _
    exact Kept.atSock s sock _ fun _ => ⟨rfl, rfl, rfl⟩
  | recv sock br conn =>
    have happ : Kept s { s with app := (app.doRecv s.app sock conn.readBuf).1 } :=
      Kept.of_links rfl rfl rfl rfl rfl rfl
    refine Kept.goto (happ.trans ?_) w _
    exact Kept.atLink _ sock fun _ => ⟨rfl, rfl, rfl⟩
  | send sock br ret data msgs hp hio =>
    refine Kept.goto ?_ w _
    cases hm : s.connMap sock with
    | none =>
      rw [State.doSend, hm]
      exact Kept.close s sock
    | some conn =>
      obtain ⟨k, hk⟩ := posted_of_doSend hw hm hio
      rcases hk.eq with ⟨he, -⟩ | he
      · rw [he]
        exact Kept.atSock s sock _ fun _ => ⟨rfl, rfl, rfl⟩
      · rw [he]
        have hpost : Kept s (s.atLink sock (Link.post data k)) := Kept.atLink s sock fun _ => ⟨rfl, rfl, rfl⟩
        exact hpost.trans (Kept.close _ sock)
  | take sock br ret conn c =>
    refine Kept.goto ?_ w c
    exact Kept.atSock s sock _ fun _ => ⟨rfl, rfl, rfl⟩
  | bad sock => exact (Kept.of_links rfl rfl rfl rfl rfl rfl).goto w _
  | close sock => exact (Kept.close s sock).goto w _

/-! ## Runs that meet `Unheld` -/

/-- The condition that no descriptor is given twice. -/
def Distinct (s : State ι σ) : Act ι → Prop
  | .accept sock _ => sock ∉ s.workSocketList
  | _ => True

instance (s : State ι σ) (a : Act ι) : Decidable (Distinct s a) := by
  unfold Distinct
  split <;> infer_instance

theorem reachIf_unheld {app : App σ} {size : ℕ} {a : σ} {ok : State ι σ → Act ι → Prop}
    (h : ReachIf (next app) ok (State.init size a) s) (hd : ∀ s a, ok s a → Distinct s a) :
    ReachIf (next app) (fun s a => Unheld s a ∧ ok s a) (State.init size a) s := by
  induction h with
  | refl => exact ReachIf.refl _
  | tail _ hst ih =>
    obtain ⟨act, hok, hn⟩ := hst
    refine ReachIf.tail ih ⟨fun sock registers ha w hw => ?_, hok⟩ hn
    subst ha
    exact hd _ _ hok ((inv_of_reach (ih.mono fun _ _ => And.left)).tended.listed w sock hw)

theorem unheld_of_distinct {app : App σ} {size : ℕ} {a : σ} (h : ReachIf (next app) Distinct (State.init size a) s) :
    ReachIf (next app) Unheld (State.init size a) s :=
  (reachIf_unheld h fun _ _ hd => hd).mono fun _ _ => And.left

/-- The condition that no `DoSend` returns `-1`. -/
def Sends (s : State ι σ) : Act ι → Prop
  | .worker w io =>
    match s.pc w with
    | .doSend sock _ _ (data :: _) => (s.doSend sock data io).1 = 0
    | _ => True
  | _ => True

instance (s : State ι σ) (a : Act ι) : Decidable (Sends s a) := by
  unfold Sends
  split
  · split <;> infer_instance
  · infer_instance

theorem doSend_fds (s : State ι σ) (sock : ℤ) (data : Bytes) (io : Io) :
    (s.doSend sock data io).1 = -1 ∨ (s.doSend sock data io).2.fds = s.fds := by
  unfold State.doSend
  split
  · exact .inl rfl
  · dsimp only
    split
    · split
      · exact .inl rfl
      · exact .inr rfl
    · split
      · split
        · exact .inr rfl
        · split
          · exact .inl rfl
          · exact .inr rfl
      · split
        · exact .inl rfl
        · exact .inr rfl
      · split
        · exact .inl rfl
        · exact .inr rfl
      · exact .inl rfl
      · exact .inl rfl

/-- Every worker is at an open descriptor. -/
def Held (s : State ι σ) : Prop := ∀ w f, (s.pc w).sock? = some f → (s.fds f).isSome = true

theorem Held.goto (h : Held s) (hf : t.fds = s.fds) {w : ℕ} {c : Pc} (hp : t.pc = update s.pc w c)
    (hc : ∀ f, c.sock? = some f → (s.fds f).isSome = true) : Held t := by
  intro v f hv
  rw [hp] at hv
  rw [hf]
  rcases eq_or_ne v w with rfl | hne
  · rw [update_self] at hv
    exact hc f hv
  · rw [update_of_ne hne] at hv
    exact h v f hv

theorem Held.worked {app : App σ} {w : ℕ} {io : Io} (h : Held s) (hi : Inv s) (hs : Sends s (.worker w io))
    (hw : Worked app s w io t) : Held t := by
  -- where the worker stays at its descriptor, which stays open
  have stay : ∀ {sock : ℤ} {c : Pc}, (s.pc w).sock? = some sock → (c.sock? = none ∨ c.sock? = (s.pc w).sock?) →
      ∀ f, c.sock? = some f → (s.fds f).isSome = true := by
    intro sock c hsock hc f hf
    rcases hc with hc | hc
    · rw [hc] at hf
      cases hf
    · exact h w f (hc ▸ hf)
  cases hw with
  | move sock c hp hc =>
    have hsock : (s.pc w).sock? = some sock := by
      rcases hp with hp | hp
      · rw [hp]
        rfl
      · rw [hp]
        rfl
    exact h.goto rfl rfl (stay hsock (sock?_of_next hsock hc))
  | flush sock conn k c hp hm hk hc =>
    have hsock : (s.pc w).sock? = some sock := congrArg Pc.sock? hp
    exact h.goto rfl rfl (stay hsock (sock?_of_next hsock hc))
  | read sock conn k i br hp hm hf =>
    have hsock : (s.pc w).sock? = some sock := congrArg Pc.sock? hp
    exact h.goto rfl rfl (stay (c := .doRecv sock br) hsock (.inr hsock.symm))
  | recv sock br conn hp =>
    have hsock : (s.pc w).sock? = some sock := congrArg Pc.sock? hp
    refine h.goto rfl rfl (stay hsock (.inr hsock.symm))
  | send sock br ret data msgs hp hio =>
    have hsock : (s.pc w).sock? = some sock := congrArg Pc.sock? hp
    have hfds : (s.doSend sock data io).2.fds = s.fds := by
      have hret : (s.doSend sock data io).1 = 0 := by
        unfold Sends at hs
        dsimp only at hs
        rwa [hp] at hs
      refine (doSend_fds s sock data io).resolve_left ?_
      rw [hret]
      decide
    refine h.goto (w := w) (c := .doSend sock br ret msgs) hfds ?_ (stay hsock (.inr hsock.symm))
    show update (s.doSend sock data io).2.pc w _ = _
    rw [doSend_pc hi.wired hio]
  | take sock br ret conn c hp hm h0 hl hc =>
    have hsock : (s.pc w).sock? = some sock := congrArg Pc.sock? hp
    exact h.goto rfl rfl (stay hsock (sock?_of_next hsock hc))
  | bad sock br ret conn hp =>
    have hsock : (s.pc w).sock? = some sock := congrArg Pc.sock? hp
    exact h.goto rfl rfl (stay (c := .closeConnection sock) hsock (.inr hsock.symm))
  | close sock hp =>
    have hsock : (s.pc w).sock? = some sock := congrArg Pc.sock? hp
    intro v f hv
    show ((s.closeConnection sock).fds f).isSome = true
    have hpc : (update (s.closeConnection sock).pc w .wait v).sock? = some f := hv
    rcases eq_or_ne v w with rfl | hne
    · rw [update_self] at hpc
      cases hpc
    · rw [update_of_ne hne, closeConnection_pc] at hpc
      have hfs : f ≠ sock := by
        rintro rfl
        exact hne (hi.tended.alone v w f hpc hsock)
      cases hm : s.connMap sock with
      | none =>
        rw [State.closeConnection, hm]
        exact h v f hpc
      | some conn =>
        rw [closeConnection_eq hi.wired hm]
        show (update s.fds sock none f).isSome = true
        rw [update_of_ne hfs]
        exact h v f hpc

/-- A `DoRecv` that leaves an odd byte in the buffer and answers the others with their number. -/
def pairs : App ℕ where
  doRecv n _ buf := (n + 1, (buf.length / 2 * 2 : ℕ), [[UInt8.ofNat (buf.length / 2 * 2)]])

/-- Three bytes arrive; the answer waits in the output buffer. -/
def pairsActs : List (Act ℕ) :=
  [.send 0 [1, 2, 3] true, .client 0 (.done 3), .accept 7 true, .event 0 7 ⟨false, false, true, false⟩,
   .worker 0 (.done 3), .worker 0 .fail, .worker 0 .again, .worker 0 .fail]

end Backend.Tcp
