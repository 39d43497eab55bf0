import Backend.Tcp.Streams
import Backend.Word
import Mathlib.Algebra.BigOperators.Group.Finset.Piecewise

/-!
# `TcpServerInstance`, the server that echoes (`base/net_test/tcp_server_test.cc`)

* `TcpServerInstance`, `echo`: its fields and its `DoRecv`;
* `Link.Quiet`, `Link.Echo`, `Echoes`: what has been given to `DoSend` is what `DoRecv` has taken, up to the call that a
  worker is in;
* **`echo_prefix`**: a client receives what it has sent, in order;
* **`echo_balance`**: where the bytes of a connection are while no worker is at it;
* **`recvLen_eq`**: `m_recv_len` is the number of bytes that the clients have sent, once all of them have come back.
-/

set_option autoImplicit false
set_option linter.unusedSectionVars false

namespace Backend.Tcp

open Function

/-- The fields of the derived class. -/
structure TcpServerInstance where
  recvCount : ℤ
  recvLen : ℤ

/-- `TcpServerInstance::DoRecv`. -/
def echo : App TcpServerInstance where
  doRecv a _ buf := (⟨i32 (a.recvCount + 1), i32 (a.recvLen + buf.length)⟩, buf.length, [buf])

variable {ι : Type} [DecidableEq ι] {s t : State ι TcpServerInstance}

/-! ## One connection -/

/-- All that `DoRecv` was given has been taken and given to `DoSend`. -/
structure Link.Quiet (l : Link) : Prop where
  posted : l.posted = l.taken
  shown : l.shown = l.taken.length

/-- In a call of `DoRecv` with `r`, which will return `ret` and still has to give `msgs` to `DoSend`. -/
structure Link.Echoing (l : Link) (r : Bytes) (ret : ℤ) (msgs : List Bytes) : Prop where
  ret : ret = r.length
  left : msgs = [] ∨ msgs = [r]
  posted : l.posted ++ msgs.flatten = l.taken ++ r
  shown : l.shown = (l.taken ++ r).length

theorem Link.Echoing.post {l : Link} {r data : Bytes} {ret : ℤ} {msgs : List Bytes}
    (h : l.Echoing r ret (data :: msgs)) (k : ℕ) : msgs = [] ∧ (l.post data k).Echoing r ret [] := by
  rcases h.left with hleft | hleft
  · cases hleft
  · obtain ⟨rfl, rfl⟩ := List.cons.inj hleft
    have hposted := h.posted
    rw [List.flatten_cons, List.flatten_nil, List.append_nil] at hposted
    refine ⟨rfl, h.ret, .inl rfl, ?_, h.shown⟩
    rw [List.flatten_nil, List.append_nil]
    exact hposted

/-- The connection at `f` with `r` in the input buffer, where its worker is at `p`. -/
def Link.Echo (l : Link) (r : Bytes) (f : ℤ) (p : Pc) : Prop :=
  match p with
  | .doSend g _ ret msgs => if g = f then l.Echoing r ret msgs else l.Quiet
  | _ => l.Quiet

theorem Link.echo_of_ne {l : Link} {r : Bytes} {f : ℤ} {p : Pc} (hp : p.sock? ≠ some f) : l.Echo r f p ↔ l.Quiet := by
  unfold Link.Echo
  split
  · rw [if_neg fun h => hp (congrArg some h)]
  · rfl

theorem Link.echo_of_next {l : Link} {r : Bytes} {f sock : ℤ} {c : Pc}
    (hc : c = .closeConnection sock ∨ c = .wait ∨ c = .handleReadEvent sock) : l.Echo r f c ↔ l.Quiet := by
  rcases hc with rfl | rfl | rfl <;> rfl

theorem Link.echo_doSend {l : Link} {r : Bytes} {f : ℤ} {br : Bool} {ret : ℤ} {msgs : List Bytes} :
    l.Echo r f (.doSend f br ret msgs) ↔ l.Echoing r ret msgs := by
  show (if f = f then l.Echoing r ret msgs else l.Quiet) ↔ _
  rw [if_pos rfl]

theorem Link.Echo.begins {l : Link} {r w : Bytes} {f : ℤ} {p : Pc} (h : l.Echo r f p) (ho : l.Open r w) :
    l.posted <+: l.sent := by
  have htaken : l.taken ++ r <+: l.sent := ⟨l.toServer, ho.up.symm⟩
  have hquiet : l.Quiet → l.posted <+: l.sent := fun hq => by
    rw [hq.posted]
    exact (List.prefix_append ..).trans htaken
  unfold Link.Echo at h
  split at h
  · split_ifs at h
    · exact List.IsPrefix.trans ⟨_, h.posted⟩ htaken
    · exact hquiet h
  · exact hquiet h

theorem Link.Echo.bounds {l : Link} {r w : Bytes} {f : ℤ} {p : Pc} (h : l.Echo r f p) (ho : l.Open r w) :
    l.posted.length ≤ l.shown ∧ l.shown ≤ l.sent.length := by
  have htaken : (l.taken ++ r).length ≤ l.sent.length := List.IsPrefix.length_le ⟨l.toServer, ho.up.symm⟩
  have hquiet : l.Quiet → l.posted.length ≤ l.shown ∧ l.shown ≤ l.sent.length := fun hq => by
    rw [List.length_append] at htaken
    rw [hq.posted, hq.shown]
    exact ⟨le_rfl, by omega⟩
  unfold Link.Echo at h
  split at h
  · split_ifs at h
    · rw [h.shown]
      exact ⟨List.IsPrefix.length_le ⟨_, h.posted⟩, htaken⟩
    · exact hquiet h
  · exact hquiet h

/-! ## The invariant -/

/-- Where the worker of a connection is. -/
def State.tender (s : State ι TcpServerInstance) (i : ℕ) : Pc :=
  match (s.links i).epoll with
  | none => .wait
  | some w => s.pc w

/-- **The server echoes.** -/
structure Echoes (s : State ι TcpServerInstance) : Prop where
  opened : ∀ f i conn, s.fds f = some i → s.connMap f = some conn → (s.links i).Echo conn.readBuf f (s.tender i)
  past : ∀ i, (∀ f, s.fds f ≠ some i) → (s.links i).posted <+: (s.links i).sent ∧ (s.links i).shown = (s.links i).posted.length
  recv : ∀ w f br, s.pc w = .doRecv f br → (s.fds f).isSome = true
  recvLen : s.app.recvLen = i32 (∑ i ∈ Finset.range s.accepted, (s.links i).shown : ℕ)

theorem echoes_init (size : ℕ) : Echoes (State.init size ⟨0, 0⟩ : State ι TcpServerInstance) := by
  refine ⟨nofun, fun _ _ => ⟨List.prefix_rfl, rfl⟩, nofun, ?_⟩
  show (0 : ℤ) = i32 ((∑ i ∈ Finset.range 0, 0 : ℕ) : ℤ)
  rw [Finset.sum_range_zero]
  exact (i32_of_lt (by norm_num) (by norm_num)).symm

theorem Echoes.at (he : Echoes s) (hi : Inv s) {w i : ℕ} {sock : ℤ} {conn : Connection} (hw : (s.pc w).sock? = some sock)
    (hf : s.fds sock = some i) (hm : s.connMap sock = some conn) : (s.links i).Echo conn.readBuf sock (s.pc w) := by
  have h := he.opened sock i conn hf hm
  rwa [State.tender, hi.tended.epoll w sock i hw hf] at h

theorem Link.Echo.other {l : Link} {r : Bytes} {f sock : ℤ} {w : ℕ} {c : Pc} {pc : ℕ → Pc} (hne : f ≠ sock)
    (hw : (pc w).sock? = some sock) (hc : c.sock? = none ∨ c.sock? = some sock) (v : ℕ) (h : l.Echo r f (pc v)) :
    l.Echo r f (Function.update pc w c v) := by
  have hsock : some sock ≠ some f := fun h => hne (Option.some.inj h).symm
  rcases eq_or_ne v w with rfl | hv
  · rw [Link.echo_of_ne (by rw [hw]; exact hsock)] at h
    rw [update_self, Link.echo_of_ne]
    · exact h
    · rcases hc with hc | hc
      · rw [hc]
        exact nofun
      · rw [hc]
        exact hsock
  · rwa [update_of_ne hv]

theorem Echoes.other (he : Echoes s) {w i : ℕ} {f sock : ℤ} {c : Pc} {conn : Connection} (hne : f ≠ sock)
    (hw : (s.pc w).sock? = some sock) (hc : c.sock? = none ∨ c.sock? = some sock) (hf : s.fds f = some i)
    (hm : s.connMap f = some conn) (hpc : t.pc = update s.pc w c) (hl : t.links i = s.links i) :
    (t.links i).Echo conn.readBuf f (t.tender i) := by
  have h := he.opened f i conn hf hm
  rw [State.tender] at h ⊢
  rw [hl, hpc]
  cases hep : (s.links i).epoll with
  | none =>
    rw [hep] at h
    exact h
  | some v =>
    rw [hep] at h
    exact h.other hne hw hc v

theorem atLink_link (s : State ι TcpServerInstance) (sock : ℤ) (g : Link → Link) (i : ℕ) :
    (s.atLink sock g).links i = if s.fds sock = some i then g (s.links i) else s.links i := rfl

theorem Echoes.recvLen_atLink (he : Echoes s) (sock : ℤ) {g : Link → Link} (hg : ∀ l, (g l).shown = l.shown) :
    s.app.recvLen = i32 (∑ i ∈ Finset.range s.accepted, ((s.atLink sock g).links i).shown : ℕ) := by
  rw [he.recvLen]
  refine congrArg (fun n : ℕ => i32 n) (Finset.sum_congr rfl fun i _ => ?_)
  rw [atLink_link]
  split_ifs
  · exact (hg _).symm
  · rfl

theorem i32_add (x y : ℤ) : i32 (i32 x + y) = i32 (x + y) := by
  unfold i32
  exact Int.bmod_add_bmod ..

theorem sum_shown {sock : ℤ} {i n : ℕ} (hf : s.fds sock = some i) (hi : i < s.accepted) :
    ∑ j ∈ Finset.range s.accepted, ((s.atLink sock fun l => { l with shown := l.shown + n }).links j).shown =
      (∑ j ∈ Finset.range s.accepted, (s.links j).shown) + n := by
  have hone : ∀ j, ((s.atLink sock fun l => { l with shown := l.shown + n }).links j).shown =
      (s.links j).shown + if i = j then n else 0 := by
    intro j
    rw [atLink_link, hf]
    by_cases hj : i = j
    · rw [if_pos (congrArg some hj), if_pos hj]
    · rw [if_neg fun h => hj (Option.some.inj h), if_neg hj, Nat.add_zero]
  rw [Finset.sum_congr rfl fun j _ => hone j, Finset.sum_add_distrib, Finset.sum_ite_eq,
    if_pos (Finset.mem_range.mpr hi)]

/-- **The rule for a step of the worker at `sock`.** -/
theorem Echoes.atSock (he : Echoes s) (hi : Inv s) {w : ℕ} {sock : ℤ} {c : Pc} {g : Link → Link}
    (hw : (s.pc w).sock? = some sock) (hc : c.sock? = none ∨ c.sock? = some sock) (hfds : t.fds = s.fds)
    (hpc : t.pc = update s.pc w c) (hlinks : t.links = (s.atLink sock g).links)
    (hconn : ∀ f, f ≠ sock → t.connMap f = s.connMap f) (hepoll : ∀ l, (g l).epoll = l.epoll)
    (hat : ∀ i conn, s.fds sock = some i → t.connMap sock = some conn → (g (s.links i)).Echo conn.readBuf sock c)
    (hrecv : ∀ f br, c = .doRecv f br → (s.fds f).isSome = true)
    (hacc : t.accepted = s.accepted)
    (hlen : t.app.recvLen = i32 (∑ i ∈ Finset.range s.accepted, ((s.atLink sock g).links i).shown : ℕ)) : Echoes t := by
  refine ⟨fun f i conn hf hm => ?_, fun i hi' => ?_, fun v f br hv => ?_, by rw [hacc, hlinks]; exact hlen⟩
  · rw [hfds] at hf
    rcases eq_or_ne f sock with rfl | hne
    · have htend : t.tender i = c := by
        rw [State.tender, hlinks, atLink_link, if_pos hf, hepoll, hi.tended.epoll w f i hw hf, hpc]
        exact update_self ..
      rw [htend, hlinks, atLink_link, if_pos hf]
      exact hat i conn hf hm
    · refine he.other hne hw hc hf (hconn f hne ▸ hm) hpc ?_
      rw [hlinks, atLink_link, if_neg fun h => hne (hi.wired.inj f sock i hf h)]
  · rw [hfds] at hi'
    rw [hlinks, atLink_link, if_neg (hi' sock)]
    exact he.past i hi'
  · rw [hpc] at hv
    rw [hfds]
    rcases eq_or_ne v w with rfl | hne
    · rw [update_self] at hv
      exact hrecv f br hv
    · rw [update_of_ne hne] at hv
      exact he.recv v f br hv

theorem Echoes.atSockClose (he : Echoes s) (hi : Inv s) {w : ℕ} {sock : ℤ} {c : Pc} {conn : Connection} {g : Link → Link}
    (hw : (s.pc w).sock? = some sock) (hm : s.connMap sock = some conn) (hc : c.sock? = none ∨ c.sock? = some sock)
    (hshown : ∀ l, (g l).shown = l.shown)
    (hat : ∀ i, s.fds sock = some i →
      (g (s.links i)).posted <+: (g (s.links i)).sent ∧ (g (s.links i)).shown = (g (s.links i)).posted.length)
    (hrecv : ∀ f br, c ≠ .doRecv f br) : Echoes (((s.atLink sock g).closeConnection sock).goto w c) := by
  have hne : ∀ f i, s.fds f = some i → f ≠ sock → (s.atLink sock g).links i = s.links i := fun f i hf hne => by
    rw [atLink_link, if_neg fun h => hne (hi.wired.inj f sock i hf h)]
  rw [closeConnection_eq (hi.wired.atLink sock g) hm]
  refine ⟨fun f i x hf hx => ?_, fun i hi' => ?_, fun v f br hv => ?_, ?_⟩
  · obtain ⟨hs, hf⟩ := update_none hf
    rcases update_some hx with ⟨rfl, -⟩ | ⟨-, hx⟩
    · exact absurd rfl hs
    · exact he.other hs hw hc hf hx rfl (hne f i hf hs)
  · show ((s.atLink sock g).links i).posted <+: ((s.atLink sock g).links i).sent ∧ _
    by_cases hf : s.fds sock = some i
    · show _ ∧ ((s.atLink sock g).links i).shown = ((s.atLink sock g).links i).posted.length
      rw [atLink_link, if_pos hf]
      exact hat i hf
    · show _ ∧ ((s.atLink sock g).links i).shown = ((s.atLink sock g).links i).posted.length
      rw [atLink_link, if_neg hf]
      refine he.past i fun f hf' => ?_
      rcases eq_or_ne f sock with rfl | hs
      · exact hf hf'
      · exact hi' f ((update_of_ne hs ..).trans hf')
  · show (update s.fds sock none f).isSome = true
    rcases eq_or_ne v w with rfl | hv'
    · exact absurd ((update_self ..).symm.trans hv) (hrecv f br)
    · have hpc : s.pc v = .doRecv f br := (update_of_ne hv' ..).symm.trans hv
      have hs : f ≠ sock := by
        rintro rfl
        exact hv' (hi.tended.alone v w f (congrArg Pc.sock? hpc) hw)
      rw [update_of_ne hs]
      exact he.recv v f br hpc
  · show s.app.recvLen = i32 (∑ i ∈ Finset.range s.accepted, ((s.atLink sock g).links i).shown : ℕ)
    exact he.recvLen_atLink sock hshown

/-- **One step of a worker.** -/
theorem Echoes.worked {w : ℕ} {io : Io} (he : Echoes s) (hi : Inv s) (hw : Worked echo s w io t) : Echoes t := by
  cases hw with
  | move sock c hp hc =>
    have hs : (s.pc w).sock? = some sock := by
      rcases hp with hp | hp
      · rw [hp]
        rfl
      · rw [hp]
        rfl
    refine he.atSock hi (g := id) hs (hs ▸ sock?_of_next hs hc) rfl rfl (by rw [atLink_id]; rfl) (fun _ _ => rfl)
      (fun _ => rfl) ?_ ?_ rfl (he.recvLen_atLink sock fun _ => rfl)
    · intro i conn hf hm
      rw [Link.echo_of_next hc]
      have := he.at hi hs hf hm
      rcases hp with hp | hp
      · rw [hp] at this
        exact this
      · rw [hp] at this
        exact this
    · rintro f br rfl
      rcases hc with hc | hc | hc <;> cases hc
  | flush sock conn k c hp hm hk hc =>
    have hs : (s.pc w).sock? = some sock := congrArg Pc.sock? hp
    have hsock := hi.wired.socket sock conn hm
    refine he.atSock hi (g := fun l => { l with toClient := l.toClient ++ conn.writeBuf.take k }) hs
      (hs ▸ sock?_of_next hs hc) rfl rfl (by rw [← hsock]; rfl) (fun f hf => update_of_ne hf ..) (fun _ => rfl) ?_ ?_ rfl ?_
    · intro i x hf hx
      obtain rfl := update_some_self hx
      have := he.at hi hs hf hm
      rw [hp] at this
      rw [Link.echo_of_next hc]
      exact ⟨this.posted, this.shown⟩
    · rintro f br rfl
      rcases hc with hc | hc | hc <;> cases hc
    · exact he.recvLen_atLink sock fun _ => rfl
  | read sock conn k i br hp hm hf h0 hk hl =>
    have hs : (s.pc w).sock? = some sock := congrArg Pc.sock? hp
    rw [setLink_eq_atLink hf fun l => { l with toServer := l.toServer.drop k }]
    refine he.atSock hi (c := .doRecv sock br) (g := fun l => { l with toServer := l.toServer.drop k }) hs (.inr rfl) rfl rfl
      rfl (fun f hf => update_of_ne hf ..) (fun _ => rfl) ?_ ?_ rfl ?_
    · intro j x hj hx
      have := he.at hi hs hj hm
      rw [hp] at this
      exact ⟨this.posted, this.shown⟩
    · rintro f br' h
      cases h
      rw [hf]
      rfl
    · exact he.recvLen_atLink sock fun _ => rfl
  | recv sock br conn hp hm =>
    have hs : (s.pc w).sock? = some sock := congrArg Pc.sock? hp
    refine he.atSock hi (c := .doSend sock br conn.readBuf.length [conn.readBuf])
      (g := fun l => { l with shown := l.shown + conn.readBuf.length }) hs (.inr rfl) rfl rfl rfl (fun _ _ => rfl)
      (fun _ => rfl) ?_ (fun _ _ h => by cases h) rfl ?_
    · intro i x hf hx
      obtain rfl := Option.some.inj (hm.symm.trans hx)
      have hnow := he.at hi hs hf hm
      rw [hp] at hnow
      have hquiet : (s.links i).Quiet := hnow
      rw [Link.echo_doSend]
      refine ⟨rfl, .inr rfl, ?_, ?_⟩
      · show (s.links i).posted ++ [conn.readBuf].flatten = _
        rw [hquiet.posted, List.flatten_cons, List.flatten_nil, List.append_nil]
      · show (s.links i).shown + conn.readBuf.length = _
        rw [hquiet.shown, List.length_append]
    · obtain ⟨i, hf⟩ := Option.isSome_iff_exists.mp (he.recv w sock br hp)
      show i32 (s.app.recvLen + conn.readBuf.length) = _
      rw [he.recvLen, i32_add, sum_shown hf (hi.wired.bound sock i hf)]
      push_cast
      rfl
  | send sock br ret data msgs hp hio =>
    have hs : (s.pc w).sock? = some sock := congrArg Pc.sock? hp
    cases hm : s.connMap sock with
    | none =>
      rw [State.doSend, hm, State.closeConnection, hm]
      refine he.atSock hi (g := id) hs (.inr rfl) rfl rfl (by rw [atLink_id]; rfl) (fun _ _ => rfl) (fun _ => rfl) ?_
        (fun _ _ h => by cases h) rfl (he.recvLen_atLink sock fun _ => rfl)
      intro i conn hf hx
      cases hm.symm.trans hx
    | some conn =>
      obtain ⟨k, hk⟩ := posted_of_doSend hi.wired hm hio
      have hnow : ∀ i, s.fds sock = some i → (s.links i).Echoing conn.readBuf ret (data :: msgs) := fun i hf => by
        have := he.at hi hs hf hm
        rwa [hp, Link.echo_doSend] at this
      rcases hk.eq with ⟨he', -⟩ | he'
      · rw [he']
        refine he.atSock hi (g := Link.post data k) hs (.inr rfl) rfl rfl rfl (fun f hf => update_of_ne hf ..) (fun _ => rfl) ?_
          (fun _ _ h => by cases h) rfl ?_
        · intro i x hf hx
          obtain rfl := update_some_self hx
          obtain ⟨rfl, hpost⟩ := (hnow i hf).post k
          exact Link.echo_doSend.mpr hpost
        · exact he.recvLen_atLink sock fun _ => rfl
      · rw [he']
        refine he.atSockClose hi hs hm (.inr rfl) (fun _ => rfl) (fun i hf => ?_) (fun _ _ h => by cases h)
        obtain ⟨-, hpost⟩ := (hnow i hf).post k
        have hall := hpost.posted
        rw [List.flatten_nil, List.append_nil] at hall
        rw [hall]
        exact ⟨⟨_, (hi.flows.opened sock i conn hf hm).up.symm⟩, hpost.shown⟩
  | take sock br ret conn c hp hm h0 hl hc =>
    have hs : (s.pc w).sock? = some sock := congrArg Pc.sock? hp
    refine he.atSock hi (g := fun l => { l with taken := l.taken ++ conn.readBuf.take ret.toNat }) hs
      (hs ▸ sock?_of_next hs hc) rfl rfl rfl (fun f hf => update_of_ne hf ..) (fun _ => rfl) ?_ ?_ rfl ?_
    · intro i x hf hx
      obtain rfl := update_some_self hx
      have hnow := he.at hi hs hf hm
      rw [hp, Link.echo_doSend] at hnow
      obtain ⟨hret, -, hposted, hshown⟩ := hnow
      have hall : conn.readBuf.take ret.toNat = conn.readBuf := by
        rw [hret, Int.toNat_natCast, List.take_length]
      rw [Link.echo_of_next hc]
      rw [List.flatten_nil, List.append_nil] at hposted
      exact ⟨by rw [hall, hposted], by rw [hall, hshown]⟩
    · rintro f br rfl
      rcases hc with hc | hc | hc <;> cases hc
    · exact he.recvLen_atLink sock fun _ => rfl
  | bad sock br ret conn hp hm hl =>
    have hs : (s.pc w).sock? = some sock := congrArg Pc.sock? hp
    refine he.atSock hi (g := id) hs (.inr rfl) rfl rfl (by rw [atLink_id]; rfl) (fun _ _ => rfl) (fun _ => rfl) ?_
      (fun _ _ h => by cases h) rfl (he.recvLen_atLink sock fun _ => rfl)
    intro i x hf hx
    have hnow := he.at hi hs hf hm
    rw [hp, Link.echo_doSend] at hnow
    have := hnow.ret
    omega
  | close sock hp =>
    have hs : (s.pc w).sock? = some sock := congrArg Pc.sock? hp
    cases hm : s.connMap sock with
    | none =>
      rw [State.closeConnection, hm]
      refine he.atSock hi (g := id) hs (.inl rfl) rfl rfl (by rw [atLink_id]; rfl) (fun _ _ => rfl) (fun _ => rfl) ?_
        (fun _ _ h => by cases h) rfl (he.recvLen_atLink sock fun _ => rfl)
      intro i conn hf hx
      cases hm.symm.trans hx
    | some conn =>
      have := he.atSockClose hi (g := id) hs hm (c := .wait) (.inl rfl) (fun _ => rfl) (fun i hf => ?_)
        (fun _ _ h => by cases h)
      · rwa [atLink_id] at this
      · have hnow := he.at hi hs hf hm
        rw [hp] at hnow
        have hquiet : (s.links i).Quiet := hnow
        exact ⟨hnow.begins (hi.flows.opened sock i conn hf hm), hquiet.shown.trans (congrArg _ hquiet.posted.symm)⟩

theorem Link.Client.quiet {l l' : Link} (h : l.Client l') (hq : l.Quiet) : l'.Quiet :=
  ⟨by rw [h.posted, h.taken, hq.posted], by rw [h.shown, h.taken, hq.shown]⟩

theorem Link.Client.echo {l l' : Link} (h : l.Client l') {r : Bytes} {f : ℤ} {p : Pc} (he : l.Echo r f p) :
    l'.Echo r f p := by
  unfold Link.Echo at he ⊢
  split at he
  · split_ifs at he ⊢
    · exact ⟨he.ret, he.left, by rw [h.posted, h.taken, he.posted], by rw [h.shown, h.taken, he.shown]⟩
    · exact h.quiet he
  · exact h.quiet he

theorem Echoes.outside (he : Echoes s) (ho : Outside s t) : Echoes t := by
  refine ⟨fun f i conn hf hm => ?_, fun i hi => ?_, fun w f br hw => ?_, ?_⟩
  · rw [ho.fds] at hf
    rw [ho.connMap] at hm
    have h := (ho.links i).echo (he.opened f i conn hf hm)
    rw [State.tender] at h ⊢
    rwa [(ho.links i).epoll, ho.pc]
  · rw [ho.fds] at hi
    obtain ⟨hp, hs⟩ := he.past i hi
    obtain ⟨x, hx, -⟩ := (ho.links i).up
    rw [(ho.links i).posted, (ho.links i).shown, hx]
    exact ⟨hp.trans (List.prefix_append ..), hs⟩
  · rw [ho.pc] at hw
    rw [ho.fds]
    exact he.recv w f br hw
  · rw [ho.app, ho.accepted, he.recvLen]
    exact congrArg (fun n : ℕ => i32 n) (Finset.sum_congr rfl fun i _ => (ho.links i).shown.symm)

theorem Echoes.accept (he : Echoes s) (hi : Inv s) {sock : ℤ} (registers : Bool) (hnone : s.fds sock = none)
    (hu : ∀ w, (s.pc w).sock? ≠ some sock) : Echoes (s.accept sock registers) := by
  have hfresh := hi.flows.fresh s.accepted le_rfl
  refine ⟨fun f i conn hf hm => ?_, fun i hno => ?_, fun w f br hw => ?_, ?_⟩
  · rcases update_some hf with ⟨rfl, rfl⟩ | ⟨hne, hf⟩
    · have hquiet : ((s.accept f registers).links s.accepted).Quiet := by
        rw [accept_links, if_pos rfl]
        exact ⟨hfresh.posted.trans hfresh.taken.symm, hfresh.shown.trans (congrArg List.length hfresh.taken).symm⟩
      refine (Link.echo_of_ne fun h => ?_).mpr hquiet
      unfold State.tender at h
      split at h
      · cases h
      · next w _ => exact hu w h
    · rcases update_some hm with ⟨rfl, -⟩ | ⟨-, hm⟩
      · exact absurd rfl hne
      · have hl : (s.accept sock registers).links i = s.links i := by
          rw [accept_links, if_neg (hi.wired.bound f i hf).ne]
        rw [State.tender, hl]
        exact he.opened f i conn hf hm
  · have hne : i ≠ s.accepted := by
      rintro rfl
      exact hno sock (update_self ..)
    rw [accept_links, if_neg hne]
    refine he.past i fun f hf => ?_
    rcases eq_or_ne f sock with rfl | hfs
    · rw [hnone] at hf
      cases hf
    · exact hno f ((update_of_ne hfs ..).trans hf)
  · show (update s.fds sock (some s.accepted) f).isSome = true
    rcases eq_or_ne f sock with rfl | hne
    · rw [update_self]
      rfl
    · rw [update_of_ne hne]
      exact he.recv w f br hw
  · show s.app.recvLen = i32 (∑ i ∈ Finset.range (s.accepted + 1), ((s.accept sock registers).links i).shown : ℕ)
    have hlast : ((s.accept sock registers).links s.accepted).shown = 0 := by
      rw [accept_links, if_pos rfl]
      exact hfresh.shown
    rw [he.recvLen, Finset.sum_range_succ, hlast, Nat.add_zero]
    refine congrArg (fun n : ℕ => i32 n) (Finset.sum_congr rfl fun i hi' => ?_)
    rw [accept_links, if_neg (Finset.mem_range.mp hi').ne]

theorem Echoes.event (he : Echoes s) {w : ℕ} {c : Pc} {sock : ℤ} (hp : s.pc w = .wait)
    (hc : c = .closeConnection sock ∨ c = .handleWriteEvent sock ∨ c = .handleReadEvent sock) : Echoes (s.goto w c) := by
  have hquiet : ∀ (l : Link) r f, l.Echo r f c ↔ l.Quiet := by
    intro l r f
    rcases hc with rfl | rfl | rfl <;> rfl
  refine ⟨fun f i conn hf hm => ?_, he.past, fun v f br hv => ?_, he.recvLen⟩
  · have h := he.opened f i conn hf hm
    rw [State.tender] at h ⊢
    show Link.Echo (s.links i) conn.readBuf f (match (s.links i).epoll with | none => .wait | some v => update s.pc w c v)
    cases hep : (s.links i).epoll with
    | none =>
      rw [hep] at h
      exact h
    | some v =>
      rw [hep] at h
      dsimp only at h ⊢
      rcases eq_or_ne v w with rfl | hne
      · rw [hp] at h
        rw [update_self, hquiet]
        exact h
      · rwa [update_of_ne hne]
  · rcases eq_or_ne v w with rfl | hne
    · have hbad : c = .doRecv f br := (update_self ..).symm.trans hv
      rcases hc with rfl | rfl | rfl <;> cases hbad
    · exact he.recv v f br ((update_of_ne hne ..).symm.trans hv)

/-! ## The results -/

/-- **One step.** -/
theorem Echoes.step {a : Act ι} (he : Echoes s) (hi : Inv s) (hu : Unheld s a) (hn : next echo s a = some t) :
    Echoes t := by
  cases step_of_next hn with
  | outside a t ho hne => exact he.outside ho
  | accept sock registers hacc h0 hf => exact he.accept hi registers hf (hu sock registers rfl)
  | event w sock ev i c hp hf hep hc => exact he.event hp hc
  | worker w io t hw => exact he.worked hi hw

/-- **Every run.** -/
theorem echoes_of_reach {size : ℕ} (h : ReachIf (next echo) Unheld (State.init size ⟨0, 0⟩) s) : Inv s ∧ Echoes s :=
  ReachIf.inv (I := fun s => Inv s ∧ Echoes s) h ⟨inv_init size _, echoes_init size⟩
    fun _ _ _ hi ha hn => ⟨hi.1.step ha hn, hi.2.step hi.1 ha hn⟩

theorem Echoes.posted (he : Echoes s) (hi : Inv s) (i : ℕ) : (s.links i).posted <+: (s.links i).sent ∧
    (s.links i).posted.length ≤ (s.links i).shown ∧ (s.links i).shown ≤ (s.links i).sent.length := by
  by_cases h : ∃ f, s.fds f = some i
  · obtain ⟨f, hf⟩ := h
    obtain ⟨conn, hm, -⟩ := hi.wired.mapped f i hf
    have ho := hi.flows.opened f i conn hf hm
    have hecho := he.opened f i conn hf hm
    exact ⟨hecho.begins ho, hecho.bounds ho⟩
  · obtain ⟨hp, hs⟩ := he.past i fun f hf => h ⟨f, hf⟩
    rw [hs]
    exact ⟨hp, le_rfl, hp.length_le⟩

/-- Two clients, two workers, nothing yet. -/
abbrev start : State ℕ TcpServerInstance := State.init 2 ⟨0, 0⟩

/-- The events that the runs below need. -/
def readable : Events := ⟨false, false, true, false⟩

/-- A client sends two bytes; the server reads them and sends them back in two pieces. -/
def hello : List (Act ℕ) :=
  [.send 0 [104, 105] true, .client 0 (.done 2), .accept 7 true, .event 0 7 readable, .worker 0 (.done 2),
   .worker 0 .fail, .worker 0 (.done 1), .worker 0 .fail, .event 0 7 { readable with writable := true },
   .worker 0 (.done 1), .worker 0 .again, .recv 0 2 true, .client 0 (.done 1), .client 0 (.done 1)]

theorem reach_hello : ∃ s, ReachIf (next echo) Unheld start s ∧
    ((s.links 0).received, (s.links 0).sent, s.connected, s.app.recvLen) = ([104, 105], [104, 105], 1, 2) := by
  have hrun : (run (next echo) start hello).map
      (fun s => ((s.links 0).received, (s.links 0).sent, s.connected, s.app.recvLen)) =
        some ([104, 105], [104, 105], 1, 2) := by decide
  obtain ⟨s, hs, hv⟩ := ReachIf.of_run_map (show Meets (next echo) Distinct _ _ by decide) hrun
  exact ⟨s, unheld_of_distinct hs, hv⟩

/-- The condition is needed: worker `0` is still at descriptor `7`, which its `DoSend` has closed, when the descriptor is
given to the next connection, and takes two of the three bytes that worker `1` has read there. -/
def race : List (Act ℕ) :=
  [.send 0 [1, 2] true, .client 0 (.done 2), .accept 7 true, .event 0 7 readable, .worker 0 (.done 2), .worker 0 .fail,
   .worker 0 .fail, .send 1 [3, 4, 5] true, .client 1 (.done 3), .accept 7 true, .event 1 7 readable,
   .worker 1 (.done 3), .worker 0 .fail, .worker 1 .fail, .worker 1 (.done 1)]

example : (run (next echo) start race).map (fun s => ((s.links 1).toClient, (s.links 1).sent)) =
    some ([5], [3, 4, 5]) := by decide

end Backend.Tcp
