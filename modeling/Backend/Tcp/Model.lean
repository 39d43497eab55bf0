import Backend.Lib.Run
import Mathlib.Data.Int.Notation

/-!
# `TcpServer` and `TcpClient` (`base/net/tcp_server.cc`, `base/net/tcp_client.cc`)

The machine interleaves the listening thread, one worker thread for each epoll descriptor and any number of
clients. A step is a call of a client, a system call of a client, an `accept`, an event that `epoll_wait` gives to a
worker, or what a worker does up to its next system call; the result of every system call and the events that come
are chosen by the environment.

* `Connection`, `Link`, `Client`, `State`: the entries of `m_conn_map`, the connections as the kernel has them and the
  objects;
* `App`: what `DoRecv` does, a parameter since it is `virtual`;
* `State.closeConnection`, `State.doSend`, `State.handleWriteEvent`, `State.handleReadEvent`, `State.doRecv`,
  `State.afterRecv`, `State.event`, `State.accept`, `State.stop`: the server;
* `State.connect`, `State.send`, `State.recv`, `State.writen`, `State.readn`: the client;
* `Act`, `next`: the labels and the step.
-/

set_option autoImplicit false
set_option linter.unusedSectionVars false

namespace Backend.Tcp

open Function

abbrev Bytes := List UInt8

def kMaxConnectionBufSize : ℕ := 65536

/-- An entry of `m_conn_map`; the buffers hold what is below `m_read_off` and `m_write_off`. -/
structure Connection where
  socket : ℤ
  workEpollIdx : ℕ
  inUse : Bool
  readBuf : Bytes
  writeBuf : Bytes

/-- A connection in the kernel: the bytes under way to the server and to the client, whether the client has closed its
end, and the epoll descriptor with which the server's end is registered. The other fields are monitors: what the client
has sent and received, what `DoRecv` has taken, what was given to `DoSend`, and how many bytes the calls of `DoRecv` were
given. -/
structure Link where
  toServer : Bytes
  toClient : Bytes
  hungUp : Bool
  epoll : Option ℕ
  sent : Bytes
  received : Bytes
  taken : Bytes
  posted : Bytes
  shown : ℕ

def Link.new : Link := ⟨[], [], false, none, [], [], [], [], 0⟩

/-- Where a client is. -/
inductive ClientPc
  /-- outside `Send` and `Recv` -/
  | idle
  /-- in the loop of `Writen`; `rest` is still to be sent -/
  | writen (data rest : Bytes)
  /-- in the loop of `Readn`; `got` has been received -/
  | readn (len : ℕ) (got : Bytes)
  deriving DecidableEq

/-- The fields of a `TcpClient`, `m_socket` as the connection it is an end of. The last two are monitors: the message of a
`Send` that returned `true` and was not followed by a `Recv`, and the messages with what the following `Recv` gave. -/
structure Client where
  isConnectOk : Bool
  socket : Option ℕ
  pc : ClientPc
  owed : Option Bytes
  exchanges : List (Bytes × Bytes)

/-- The constructor. -/
def Client.new : Client := ⟨false, none, .idle, none, []⟩

/-- What `DoRecv(socket, buf, len)` does: the fields of the derived class, the value it returns and what it gives to
`DoSend`. -/
structure App (σ : Type) where
  doRecv : σ → ℤ → Bytes → σ × ℤ × List Bytes

/-- Where a worker is. -/
inductive Pc
  /-- in `epoll_wait` -/
  | wait
  /-- in `HandleWriteEvent` -/
  | handleWriteEvent (sock : ℤ)
  /-- in the loop of `HandleReadEvent`, before `read` -/
  | handleReadEvent (sock : ℤ)
  /-- before `DoRecv` -/
  | doRecv (sock : ℤ) (isBreak : Bool)
  /-- in `DoRecv`, which will return `ret`, before the calls of `DoSend` with `msgs` -/
  | doSend (sock : ℤ) (isBreak : Bool) (ret : ℤ) (msgs : List Bytes)
  /-- before the `CloseConnection` of the worker's own loop -/
  | closeConnection (sock : ℤ)
  deriving DecidableEq

/-- The descriptor of the event that a worker is handling. -/
def Pc.sock? : Pc → Option ℤ
  | .wait => none
  | .handleWriteEvent sock => some sock
  | .handleReadEvent sock => some sock
  | .doRecv sock _ => some sock
  | .doSend sock _ _ _ => some sock
  | .closeConnection sock => some sock

/-- The result of `read`, `write`, `recv` or `send`: a number of bytes, `0`, or `-1` with the `errno`. -/
inductive Io
  | done (k : ℕ)
  | eof
  | eintr
  | again
  | fail
  deriving DecidableEq

/-- The flags of an `epoll_event`. -/
structure Events where
  err : Bool
  hup : Bool
  readable : Bool
  writable : Bool

variable {ι σ : Type} [DecidableEq ι]

/-- The object, the derived class, the descriptors of the process with the connections they are ends of, the connections
(`connected` so far, the first `accepted` of them taken from the listening socket; those that follow are `Link.new`), the
workers and the clients. -/
structure State (ι σ : Type) where
  connMap : ℤ → Option Connection
  workEpollFdIdx : ℕ
  workEpollFdSize : ℕ
  workSocketList : List ℤ
  app : σ
  fds : ℤ → Option ℕ
  links : ℕ → Link
  connected : ℕ
  accepted : ℕ
  pc : ℕ → Pc
  client : ι → Client

/-- The server after `Init` with one worker for each of `size` epoll descriptors, and clients without a connection. -/
def State.init (size : ℕ) (app : σ) : State ι σ :=
  { connMap := fun _ => none, workEpollFdIdx := 0, workEpollFdSize := size, workSocketList := [], app := app
    fds := fun _ => none, links := fun _ => Link.new, connected := 0, accepted := 0, pc := fun _ => .wait
    client := fun _ => Client.new }

def State.goto (s : State ι σ) (w : ℕ) (c : Pc) : State ι σ := { s with pc := update s.pc w c }

def State.setConn (s : State ι σ) (sock : ℤ) (conn : Connection) : State ι σ :=
  { s with connMap := update s.connMap sock (some conn) }

def State.setLink (s : State ι σ) (i : ℕ) (l : Link) : State ι σ := { s with links := update s.links i l }

def State.setClient (s : State ι σ) (c : ι) (x : Client) : State ι σ := { s with client := update s.client c x }

/-- Change the connection that a descriptor is an end of. -/
def State.atLink (s : State ι σ) (sock : ℤ) (f : Link → Link) : State ι σ :=
  { s with links := fun i => if s.fds sock = some i then f (s.links i) else s.links i }

/-! ## The server -/

/-- What `write(sock, data, len)` can give. A descriptor that is not open gives `EBADF`; a `write` of no bytes gives `0`,
and the code then looks at the `errno` of an earlier call. -/
def State.canWrite (s : State ι σ) (sock : ℤ) (data : Bytes) : Io → Bool
  | .done k => (s.fds sock).isSome && decide (0 < k) && decide (k ≤ data.length)
  | .eof => false
  | .eintr => (s.fds sock).isSome
  | .again => (s.fds sock).isSome
  | .fail => true

/-- What `read(sock, buf, room)` can give. -/
def State.canRead (s : State ι σ) (sock : ℤ) (room : ℕ) (io : Io) : Bool :=
  match s.fds sock with
  | none => decide (io = .fail)
  | some i => match io with
    | .done k => decide (0 < k) && decide (k ≤ room) && decide (k ≤ (s.links i).toServer.length)
    | .eof => (s.links i).hungUp && (s.links i).toServer.isEmpty
    | _ => true

/-- `CloseConnection`. -/
def State.closeConnection (s : State ι σ) (sock : ℤ) : State ι σ :=
  match s.connMap sock with
  | none => s
  | some conn =>
    let s := s.setConn sock { conn with inUse := false, readBuf := [], writeBuf := [] }
    { s with fds := update s.fds conn.socket none }

/-- `DoSend`, where its `write`, if it makes one, gives `io`: what it returns and the state after it. -/
def State.doSend (s : State ι σ) (sock : ℤ) (data : Bytes) (io : Io) : ℤ × State ι σ :=
  match s.connMap sock with
  | none => (-1, s.closeConnection sock)
  | some conn =>
    let s := s.atLink sock fun l => { l with posted := l.posted ++ data }
    if conn.writeBuf ≠ [] then
      if conn.writeBuf.length + data.length > kMaxConnectionBufSize then (-1, s.closeConnection sock)
      else (0, s.setConn sock { conn with writeBuf := conn.writeBuf ++ data })
    else match io with
      | .done k =>
        let s := s.atLink conn.socket fun l => { l with toClient := l.toClient ++ data.take k }
        if k = data.length then (0, s)
        else if (data.drop k).length > kMaxConnectionBufSize then (-1, s.closeConnection sock)
        else (0, s.setConn sock { conn with writeBuf := data.drop k })
      | .eintr | .again =>
        if data.length > kMaxConnectionBufSize then (-1, s.closeConnection sock)
        else (0, s.setConn sock { conn with writeBuf := data })
      | .eof | .fail => (-1, s.closeConnection sock)

/-- The first lines of `HandleReadEvent`. -/
def State.enterRead (s : State ι σ) (w : ℕ) (sock : ℤ) : State ι σ :=
  match s.connMap sock with
  | none => (s.closeConnection sock).goto w (.closeConnection sock)
  | some conn =>
    if conn.readBuf.length ≥ kMaxConnectionBufSize then s.goto w (.closeConnection sock)
    else s.goto w (.handleReadEvent sock)

/-- `HandleWriteEvent`, and what the worker does after it. -/
def State.handleWriteEvent (s : State ι σ) (w : ℕ) (sock : ℤ) (io : Io) : Option (State ι σ) :=
  match s.connMap sock with
  | none => some ((s.closeConnection sock).goto w (.closeConnection sock))
  | some conn =>
    if conn.writeBuf = [] then some (s.enterRead w sock)
    else if s.canWrite conn.socket conn.writeBuf io = true then
      match io with
      | .done k =>
        let s := s.atLink conn.socket fun l => { l with toClient := l.toClient ++ conn.writeBuf.take k }
        let s := s.setConn sock { conn with writeBuf := conn.writeBuf.drop k }
        some (s.enterRead w sock)
      | .eintr | .again => some (s.enterRead w sock)
      | .eof | .fail => some (s.goto w (.closeConnection sock))
    else none

/-- One round of the loop of `HandleReadEvent`, up to `DoRecv`. A worker that leaves the loop asks `HasToWrite` which
events to register; the events that come are chosen by the environment. -/
def State.handleReadEvent (s : State ι σ) (w : ℕ) (sock : ℤ) (io : Io) : Option (State ι σ) :=
  match s.connMap sock with
  | none => none
  | some conn =>
    let room := kMaxConnectionBufSize - conn.readBuf.length
    if s.canRead sock room io = true then
      match io with
      | .done k =>
        match s.fds sock with
        | none => none
        | some i =>
          let l := s.links i
          let s := s.setLink i { l with toServer := l.toServer.drop k }
          let s := s.setConn sock { conn with readBuf := conn.readBuf ++ l.toServer.take k }
          some (s.goto w (.doRecv sock (decide (k < room))))
      | .eof | .fail => some (s.goto w (.closeConnection sock))
      | .eintr => some s
      | .again => some (s.goto w .wait)
    else none

/-- `DoRecv` up to its calls of `DoSend`. -/
def State.doRecv (app : App σ) (s : State ι σ) (w : ℕ) (sock : ℤ) (isBreak : Bool) : Option (State ι σ) :=
  match s.connMap sock with
  | none => none
  | some conn =>
    match app.doRecv s.app sock conn.readBuf with
    | (a, ret, msgs) =>
      let s := { s with app := a }.atLink sock fun l => { l with shown := l.shown + conn.readBuf.length }
      some (s.goto w (.doSend sock isBreak ret msgs))

/-- The rest of a round of `HandleReadEvent`, after `DoRecv` has returned `ret`. -/
def State.afterRecv (s : State ι σ) (w : ℕ) (sock : ℤ) (isBreak : Bool) (ret : ℤ) : Option (State ι σ) :=
  match s.connMap sock with
  | none => none
  | some conn =>
    if ret < 0 ∨ ret > conn.readBuf.length then some (s.goto w (.closeConnection sock))
    else
      let left := conn.readBuf.drop ret.toNat
      let s := s.atLink sock fun l => { l with taken := l.taken ++ conn.readBuf.take ret.toNat }
      let s := s.setConn sock { conn with readBuf := left }
      if left.length ≥ kMaxConnectionBufSize then some (s.goto w (.closeConnection sock))
      else if isBreak then some (s.goto w .wait)
      else some (s.goto w (.handleReadEvent sock))

/-- What a worker does with an event. -/
def State.event (s : State ι σ) (w : ℕ) (sock : ℤ) (ev : Events) : State ι σ :=
  if ev.err || ev.hup || !ev.readable then s.goto w (.closeConnection sock)
  else if ev.writable then s.goto w (.handleWriteEvent sock)
  else s.enterRead w sock

/-- `accept` gives `sock` to the oldest connection, and `GetWorkEpollFd(sock)` and `epoll_ctl`, which may fail, follow. -/
def State.accept (s : State ι σ) (sock : ℤ) (registers : Bool) : State ι σ :=
  let idx := s.workEpollFdIdx
  let s := { s with fds := update s.fds sock (some s.accepted), accepted := s.accepted + 1 }
  let s := s.setConn sock ⟨sock, idx, true, [], []⟩
  let s := { s with workEpollFdIdx := (idx + 1) % s.workEpollFdSize, workSocketList := s.workSocketList ++ [sock] }
  s.atLink sock fun l => { l with epoll := if registers then some idx else none }

/-- The loop of `Stop` over `m_work_socket_list`, with the descriptors it closes. -/
def State.stopLoop : List ℤ → State ι σ → List ℤ × State ι σ
  | [], s => ([], s)
  | sock :: l, s =>
    match s.connMap sock with
    | none => State.stopLoop l s
    | some conn =>
      if conn.inUse then
        let t := { s.setConn sock { conn with socket := -1 } with fds := update s.fds conn.socket none }
        let r := State.stopLoop l t
        (conn.socket :: r.1, r.2)
      else State.stopLoop l s

/-- `Stop`, once the threads have been joined: the descriptors of connections it closes, and the state after it. -/
def State.stop (s : State ι σ) : List ℤ × State ι σ := State.stopLoop s.workSocketList s

/-! ## The client -/

/-- `Connect`: a new connection, or a failure that leaves no open descriptor in `m_socket`. -/
def State.connect (s : State ι σ) (c : ι) (connects : Bool) : State ι σ :=
  if connects then
    { s.setClient c { s.client c with socket := some s.connected } with connected := s.connected + 1 }
  else s.setClient c { s.client c with socket := none }

/-- `Init`, after the address has been stored. -/
def State.initClient (s : State ι σ) (c : ι) (connects : Bool) : State ι σ :=
  let s := s.connect c connects
  let x := s.client c
  s.setClient c { x with isConnectOk := connects || x.isConnectOk, owed := none }

/-- The start of `Writen` or of `Readn`. Without a byte to send or to receive the loop ends after its first system call,
whatever that gives, and the call returns `true`. -/
def State.startSend (s : State ι σ) (c : ι) (data : Bytes) : State ι σ :=
  let x := s.client c
  if data = [] then s.setClient c { x with isConnectOk := true, owed := some [] }
  else s.setClient c { x with isConnectOk := true, pc := .writen data data, owed := none }

def State.startRecv (s : State ι σ) (c : ι) (len : ℕ) : State ι σ :=
  let x := s.client c
  if len = 0 then
    s.setClient c { x with isConnectOk := true, owed := none, exchanges := x.exchanges ++ (x.owed.map (·, [])).toList }
  else s.setClient c { x with isConnectOk := true, pc := .readn len [] }

/-- A call that returns `false` before it has sent or received anything: `Connect` failed. -/
def State.refused (s : State ι σ) (c : ι) : State ι σ :=
  let s := s.connect c false
  s.setClient c { s.client c with owed := none }

/-- The beginning of `Send`. -/
def State.send (s : State ι σ) (c : ι) (data : Bytes) (connects : Bool) : State ι σ :=
  if (s.client c).isConnectOk then s.startSend c data
  else if connects then (s.connect c true).startSend c data
  else s.refused c

/-- The beginning of `Recv`. -/
def State.recv (s : State ι σ) (c : ι) (len : ℕ) (connects : Bool) : State ι σ :=
  if (s.client c).isConnectOk then s.startRecv c len
  else if connects then (s.connect c true).startRecv c len
  else s.refused c

/-- `close(m_socket)`. -/
def State.hangUp (s : State ι σ) (c : ι) : State ι σ :=
  match (s.client c).socket with
  | none => s
  | some i => s.setLink i { s.links i with hungUp := true }

/-- The end of a `Send` or a `Recv` that has not moved all its bytes. -/
def State.broken (s : State ι σ) (c : ι) : State ι σ :=
  let s := s.hangUp c
  s.setClient c { s.client c with isConnectOk := false, pc := .idle, owed := none }

/-- A round of the loop of `Writen`, and the end of `Send` after the last one. -/
def State.writen (s : State ι σ) (c : ι) (data rest : Bytes) (io : Io) : Option (State ι σ) :=
  let x := s.client c
  match x.socket, io with
  | _, .fail => some (s.broken c)
  | some i, .done k =>
    if 0 < k ∧ k ≤ rest.length then
      let l := s.links i
      let s := s.setLink i { l with sent := l.sent ++ rest.take k, toServer := l.toServer ++ rest.take k }
      if rest.drop k = [] then some (s.setClient c { x with pc := .idle, owed := some data })
      else some (s.setClient c { x with pc := .writen data (rest.drop k) })
    else none
  | some _, .eintr => some s
  | some _, .again => some s
  | _, _ => none

/-- A round of the loop of `Readn`, and the end of `Recv` after the last one. A `recv` that gives `0` is followed by what
follows an error or by another round, as the `errno` of an earlier call has it. -/
def State.readn (s : State ι σ) (c : ι) (len : ℕ) (got : Bytes) (io : Io) : Option (State ι σ) :=
  let x := s.client c
  match x.socket, io with
  | _, .fail => some (s.broken c)
  | some i, .done k =>
    let l := s.links i
    if 0 < k ∧ k ≤ l.toClient.length ∧ got.length + k ≤ len then
      let got := got ++ l.toClient.take k
      let s := s.setLink i { l with received := l.received ++ l.toClient.take k, toClient := l.toClient.drop k }
      if got.length = len then
        some (s.setClient c { x with pc := .idle, owed := none, exchanges := x.exchanges ++ (x.owed.map (·, got)).toList })
      else some (s.setClient c { x with pc := .readn len got })
    else none
  | some _, .eintr => some s
  | some _, .again => some s
  | _, _ => none

/-- `Release`. -/
def State.release (s : State ι σ) (c : ι) : State ι σ :=
  let s := s.hangUp c
  s.setClient c { s.client c with socket := none }

/-! ## The machine -/

/-- Calls of a client, its next system call, a connection accepted, an event for a worker, and a worker that goes on. -/
inductive Act (ι : Type)
  | init (c : ι) (connects : Bool)
  | send (c : ι) (data : Bytes) (connects : Bool)
  | recv (c : ι) (len : ℕ) (connects : Bool)
  | release (c : ι)
  | client (c : ι) (io : Io)
  | accept (sock : ℤ) (registers : Bool)
  | event (w : ℕ) (sock : ℤ) (ev : Events)
  | worker (w : ℕ) (io : Io)

/-- A call, where the client is outside any other. -/
def State.call (s : State ι σ) (c : ι) (t : State ι σ) : Option (State ι σ) :=
  if (s.client c).pc = .idle then some t else none

/-- What a worker does up to its next system call, where the one before it gives `io`. -/
def State.worker (app : App σ) (s : State ι σ) (w : ℕ) (io : Io) : Option (State ι σ) :=
  match s.pc w with
  | .wait => none
  | .handleWriteEvent sock => s.handleWriteEvent w sock io
  | .handleReadEvent sock => s.handleReadEvent w sock io
  | .doRecv sock isBreak => s.doRecv app w sock isBreak
  | .doSend sock isBreak ret [] => s.afterRecv w sock isBreak ret
  | .doSend sock isBreak ret (data :: msgs) =>
    if s.canWrite sock data io = true then some ((s.doSend sock data io).2.goto w (.doSend sock isBreak ret msgs))
    else none
  | .closeConnection sock => some ((s.closeConnection sock).goto w .wait)

/-- One step. -/
def next (app : App σ) (s : State ι σ) : Act ι → Option (State ι σ)
  | .init c connects => s.call c (s.initClient c connects)
  | .send c data connects => s.call c (s.send c data connects)
  | .recv c len connects => s.call c (s.recv c len connects)
  | .release c => s.call c (s.release c)
  | .client c io =>
    match (s.client c).pc with
    | .idle => none
    | .writen data rest => s.writen c data rest io
    | .readn len got => s.readn c len got io
  | .accept sock registers =>
    if s.accepted < s.connected ∧ 0 < sock ∧ s.fds sock = none then some (s.accept sock registers) else none
  | .event w sock ev =>
    if s.pc w = .wait ∧ ∃ i ∈ s.fds sock, (s.links i).epoll = some w then some (s.event w sock ev) else none
  | .worker w io => s.worker app w io

end Backend.Tcp
