import Backend.XServer.Model
import Mathlib.Data.List.Basic

/-!
# `XServer`: the bytes of one connection (`base/longconn/xserver.cc`)

`on_conn_read` and `close_conn` on one `CONN`, with the writes to `m_in_buf` and the calls of `Process` as events.

* `Event`, `recvLoop`, `connLoop`: the two loops of `on_conn_read` with their events;
* `recvLoop_fill`, **`onConnRead_conn`**: the callback of the server does this to its slot;
* `ConnOp`, `connRun`: callbacks and closings of a connection;
* **`connLoop_spec`**: from an empty buffer a callback drains the input;
* **`processed_eq_received`**: the byte stream is delivered once and in order;
* **`written_in_buf_iff`**: the writes stay in `m_in_buf` if no callback finds `kConnBufLen` bytes or more.
-/

set_option autoImplicit false

namespace Backend.XServer

open Function List

/-- What `on_conn_read` does, in order. -/
inductive Event
  /-- `bufferevent_read` stores `bytes` at `m_in_buf + pos` -/
  | recv (pos : ℕ) (bytes : List UInt8)
  /-- `m_in_buf[pos] = '\0'` -/
  | term (pos : ℕ)
  /-- `Process`, with the bytes `m_in_buf[0 .. m_in_buf_len)` -/
  | process (bytes : List UInt8)
  /-- `close_conn` -/
  | close

/-- The indices of `m_in_buf` that are written. -/
def Event.written : Event → List ℕ
  | recv pos bytes => range' pos bytes.length
  | term pos => [pos]
  | _ => []

/-- What `Process` sees. -/
def Event.processed : Event → Option (List UInt8)
  | process bytes => some bytes
  | _ => none

/-- The inner loop of `on_conn_read`, as `fillLoop`. -/
def recvLoop : ℕ → List UInt8 → List UInt8 → Option (List UInt8 × List UInt8 × ℕ × List Event)
  | 0, _, _ => none
  | fuel + 1, buf, input =>
    let free := kConnBufLen - buf.length
    if 0 = free then some (buf, input, free, [])
    else
      let got := input.take free
      if got.length = 0 then some (buf, input, free, [])
      else (recvLoop fuel (buf ++ got) (input.drop free)).map fun r =>
        (r.1, r.2.1, r.2.2.1, .recv buf.length got :: r.2.2.2)

/-- The bytes `m_in_buf[0 .. m_in_buf_len)` and the input buffer of `m_bufev`. -/
structure ConnBuf where
  inBuf : List UInt8
  input : List UInt8

/-- The outer loop; `ok k` is the result of the `k`-th call of `CheckValid`. `m_in_buf_len` becomes `0` after
`Process` and in `close_conn`. -/
def connLoop (ok : ℕ → Bool) : ℕ → ℕ → ConnBuf → Option (ConnBuf × List Event)
  | 0, _, _ => none
  | fuel + 1, k, c =>
    match recvLoop 3 c.inBuf c.input with
    | none => none
    | some (buf, input, free, events) =>
      let events := events ++ [.term buf.length]
      let events := if buf.length > 0 then events ++ [if ok k then .process buf else .close] else events
      let c : ConnBuf := ⟨if buf.length > 0 then [] else buf, input⟩
      if 0 ≠ free then some (c, events)
      else (connLoop ok fuel (if buf.length > 0 then k + 1 else k) c).map fun r => (r.1, events ++ r.2)

/-- What happens to a connection. -/
inductive ConnOp
  /-- `data` arrives and `on_conn_read` is called -/
  | read (data : List UInt8) (ok : ℕ → Bool)
  /-- `close_conn` -/
  | close

/-- `on_conn_read` after `data` has arrived, or `close_conn`. -/
def ConnBuf.step (c : ConnBuf) : ConnOp → Option (ConnBuf × List Event)
  | .read data ok => connLoop ok ((c.input ++ data).length + 2) 0 ⟨c.inBuf, c.input ++ data⟩
  | .close => some (⟨[], c.input⟩, [.close])

/-- A sequence of callbacks and closings, with their events. -/
def connRun : ConnBuf → List ConnOp → Option (ConnBuf × List Event)
  | c, [] => some (c, [])
  | c, op :: ops => do
    let r ← c.step op
    let t ← connRun r.1 ops
    some (t.1, r.2 ++ t.2)

/-! ## The slots of the server -/

variable {n : ℕ}

theorem recvLoop_fill (fuel : ℕ) (buf input : List UInt8) :
    (recvLoop fuel buf input).map (fun r => (r.1, r.2.1, r.2.2.1)) = fillLoop fuel buf input := by
  induction fuel generalizing buf input with
  | zero => rfl
  | succ fuel ih =>
    rw [recvLoop, fillLoop]
    simp only
    split_ifs
    · rfl
    · rfl
    · rw [Option.map_map, ← ih]
      rfl

/-- The bytes of a slot. -/
def Conn.buf (c : Conn n) : ConnBuf := ⟨c.inBuf, c.input⟩

theorem handle_buf (w : Worker n) (i : Fin (n + 1)) (ok : Bool) :
    ((w.handle i ok).conn i).buf = ⟨[], (w.conn i).input⟩ := by
  cases ok with
  | true => simp [Worker.handle, Worker.use, Worker.set, Conn.buf]
  | false =>
    by_cases h : i = w.tail
    · subst h
      simp [Worker.handle, Worker.use, Worker.set, Worker.closeConn, Worker.putFreeConn, Conn.buf]
    · simp [Worker.handle, Worker.use, Worker.set, Worker.closeConn, Worker.putFreeConn, Conn.buf, update_of_ne h]

theorem readLoop_conn (ok : ℕ → Bool) (i : Fin (n + 1)) (fuel k : ℕ) (w : Worker n) :
    (readLoop ok i fuel k w).map (fun w' => (w'.conn i).buf) =
      (connLoop ok fuel k (w.conn i).buf).map fun r => r.1 := by
  induction fuel generalizing k w with
  | zero => rfl
  | succ fuel ih =>
    rw [readLoop, connLoop, Conn.buf, ← recvLoop_fill]
    cases recvLoop 3 (w.conn i).inBuf (w.conn i).input with
    | none => rfl
    | some r =>
      obtain ⟨buf, input, free, events⟩ := r
      simp only [Option.map_some]
      obtain ⟨w₁, hw₁⟩ : ∃ w₁, w₁ = w.set i { w.conn i with inBuf := buf, input := input } := ⟨_, rfl⟩
      have hbuf₁ : (w₁.conn i).buf = ⟨buf, input⟩ := by
        simp [hw₁, Worker.set, Conn.buf]
      have hbuf : ((if buf.length > 0 then w₁.handle i (ok k) else w₁).conn i).buf =
          ⟨if buf.length > 0 then [] else buf, input⟩ := by
        split_ifs
        · rw [handle_buf]
          exact congrArg (ConnBuf.mk [] ∘ ConnBuf.input) hbuf₁
        · exact hbuf₁
      rw [← hw₁]
      by_cases hfree : 0 ≠ free
      · rw [if_pos hfree, if_pos hfree, Option.map_some, Option.map_some, hbuf]
      · rw [if_neg hfree, if_neg hfree, ih, hbuf, Option.map_map]
        rfl

/-- **The callback of the server** does to its slot what `ConnBuf.step` says. -/
theorem onConnRead_conn (w : Worker n) (i : Fin (n + 1)) (data : List UInt8) (ok : ℕ → Bool) :
    (w.onConnRead i data ok).map (fun w' => (w'.conn i).buf) =
      ((w.conn i).buf.step (.read data ok)).map fun r => r.1 := by
  rw [Worker.onConnRead, readLoop_conn]
  simp [Worker.set, Conn.buf, ConnBuf.step]

/-! ## One callback -/

/-- The events of one round of the outer loop. -/
def roundEvents (ok : Bool) (bytes : List UInt8) : List Event :=
  [.recv 0 bytes, .term bytes.length, if ok then .process bytes else .close]

theorem recvLoop_nil (input : List UInt8) (h : input ≠ []) :
    recvLoop 3 [] input = some (input.take kConnBufLen, input.drop kConnBufLen, kConnBufLen - input.length,
      [.recv 0 (input.take kConnBufLen)]) := by
  have hpos := length_pos_iff.mpr h
  have hk : 0 < kConnBufLen := by decide
  have hgot : (input.take kConnBufLen).length = min kConnBufLen input.length := length_take
  have hne : (input.take kConnBufLen).length ≠ 0 := by omega
  have hfree : kConnBufLen - (input.take kConnBufLen).length = kConnBufLen - input.length := by omega
  have hlast : recvLoop 2 (input.take kConnBufLen) (input.drop kConnBufLen) =
      some (input.take kConnBufLen, input.drop kConnBufLen, kConnBufLen - input.length, []) := by
    rw [recvLoop]
    simp only [hfree]
    split_ifs with hfull hdone
    · rfl
    · rfl
    · rw [length_take, length_drop] at hdone
      omega
  rw [recvLoop]
  simp only [length_nil, Nat.sub_zero, nil_append, hlast]
  rw [if_neg hk.ne, if_neg hne]
  rfl

theorem connLoop_nil (ok : ℕ → Bool) (fuel k : ℕ) :
    connLoop ok (fuel + 1) k ⟨[], []⟩ = some (⟨[], []⟩, [.term 0]) := rfl

theorem connLoop_round (ok : ℕ → Bool) (fuel k : ℕ) {input : List UInt8} (h : input ≠ []) :
    connLoop ok (fuel + 1) k ⟨[], input⟩ =
      if input.length < kConnBufLen then some (⟨[], []⟩, roundEvents (ok k) input)
      else (connLoop ok fuel (k + 1) ⟨[], input.drop kConnBufLen⟩).map fun r =>
        (r.1, roundEvents (ok k) (input.take kConnBufLen) ++ r.2) := by
  have hpos := length_pos_iff.mpr h
  have hk : 0 < kConnBufLen := by decide
  have hgot : (input.take kConnBufLen).length > 0 := by
    rw [length_take]
    omega
  rw [connLoop, recvLoop_nil input h]
  simp only [hgot, if_true]
  by_cases hlt : input.length < kConnBufLen
  · rw [if_pos hlt, if_pos (by omega), take_of_length_le hlt.le, drop_of_length_le hlt.le]
    rfl
  · rw [if_neg hlt, if_neg (by omega)]
    rfl

/-- All writes of the events are in `m_in_buf`. -/
def InBuf (events : List Event) : Prop := ∀ e ∈ events, ∀ idx ∈ e.written, idx < kConnBufLen

theorem inBuf_append {es es' : List Event} : InBuf (es ++ es') ↔ InBuf es ∧ InBuf es' := forall_mem_append

theorem inBuf_roundEvents (ok : Bool) (bytes : List UInt8) :
    InBuf (roundEvents ok bytes) ↔ bytes.length < kConnBufLen := by
  constructor
  · intro h
    exact h (.term bytes.length) (by simp [roundEvents]) bytes.length mem_cons_self
  · intro h e he idx hidx
    simp only [roundEvents, mem_cons, not_mem_nil, or_false] at he
    rcases he with rfl | rfl | rfl
    · have := (mem_range'_1.mp hidx).2
      omega
    · rw [mem_singleton.mp hidx]
      exact h
    · cases ok <;> exact absurd hidx not_mem_nil

/-- The buffers that `Process` sees. -/
def processed (events : List Event) : List (List UInt8) := events.filterMap Event.processed

theorem processed_append (es es' : List Event) : processed (es ++ es') = processed es ++ processed es' :=
  filterMap_append

theorem processed_roundEvents (bytes : List UInt8) : processed (roundEvents true bytes) = [bytes] := rfl

/-- **A callback from an empty buffer** returns, and it has drained the input. -/
theorem connLoop_spec (ok : ℕ → Bool) (fuel : ℕ) {k : ℕ} {input : List UInt8} (hf : input.length < fuel) :
    ∃ events, connLoop ok fuel k ⟨[], input⟩ = some (⟨[], []⟩, events) ∧
      (InBuf events ↔ input.length < kConnBufLen) ∧
      ((∀ k, ok k = true) → (processed events).flatten = input ∧
        ∀ b ∈ processed events, 1 ≤ b.length ∧ b.length ≤ kConnBufLen) := by
  induction fuel generalizing k input with
  | zero => omega
  | succ fuel ih =>
    have hk : 0 < kConnBufLen := by decide
    by_cases hnil : input = []
    · subst hnil
      refine ⟨_, connLoop_nil ok fuel k, ⟨fun _ => hk, fun _ e he idx hidx => ?_⟩, fun _ => ⟨rfl, fun b hb => ?_⟩⟩
      · rw [mem_singleton.mp he] at hidx
        rw [mem_singleton.mp hidx]
        exact hk
      · exact absurd hb not_mem_nil
    · have hpos := length_pos_iff.mpr hnil
      rw [connLoop_round ok fuel k hnil]
      by_cases hlt : input.length < kConnBufLen
      · rw [if_pos hlt]
        refine ⟨_, rfl, inBuf_roundEvents _ _, fun hok => ?_⟩
        rw [hok, processed_roundEvents]
        refine ⟨by rw [flatten_singleton], fun b hb => ?_⟩
        rw [mem_singleton.mp hb]
        exact ⟨hpos, hlt.le⟩
      · obtain ⟨events, he, -, hp⟩ := ih (k := k + 1)
          (show (input.drop kConnBufLen).length < fuel by rw [length_drop]; omega)
        have htake : (input.take kConnBufLen).length = kConnBufLen := by
          rw [length_take]
          omega
        rw [if_neg hlt, he, Option.map_some]
        refine ⟨_, rfl, ⟨fun h => ?_, fun h => absurd h hlt⟩, fun hok => ?_⟩
        · have := (inBuf_roundEvents _ _).mp (inBuf_append.mp h).1
          omega
        · obtain ⟨hflat, hlen⟩ := hp hok
          rw [hok, processed_append, processed_roundEvents]
          refine ⟨?_, fun b hb => ?_⟩
          · rw [flatten_append, flatten_singleton, hflat, take_append_drop]
          · rcases mem_append.mp hb with hb | hb
            · rw [mem_singleton.mp hb]
              exact ⟨by omega, htake.le⟩
            · exact hlen b hb

/-! ## Runs -/

/-- The bytes that arrive with an operation. -/
def ConnOp.received : ConnOp → List UInt8
  | read data _ => data
  | close => []

theorem connRun_cons {c c' c'' : ConnBuf} {op : ConnOp} {ops : List ConnOp} {es es' : List Event}
    (h : c.step op = some (c', es)) (h' : connRun c' ops = some (c'', es')) :
    connRun c (op :: ops) = some (c'', es ++ es') := by
  rw [connRun, h]
  simp only [Option.bind_eq_bind, Option.bind_some, h']

theorem step_spec (op : ConnOp) : ∃ events, ConnBuf.step ⟨[], []⟩ op = some (⟨[], []⟩, events) ∧
    (InBuf events ↔ op.received.length < kConnBufLen) := by
  cases op with
  | read data ok =>
    obtain ⟨events, he, hin, -⟩ := connLoop_spec ok (data.length + 2) (k := 0) (show data.length < _ by omega)
    exact ⟨events, he, hin⟩
  | close =>
    refine ⟨_, rfl, ⟨fun _ => by decide, fun _ e he idx hidx => ?_⟩⟩
    rw [mem_singleton.mp he] at hidx
    exact absurd hidx not_mem_nil

/-- **The byte stream is delivered exactly once and in order**: on a connection on which `CheckValid` returns
`true`, every callback returns with an empty buffer, `Process` sees between `1` and `kConnBufLen` bytes, and its
buffers one after the other are the bytes received so far. -/
theorem processed_eq_received (datas : List (List UInt8)) :
    ∃ c events, connRun ⟨[], []⟩ (datas.map fun data => .read data fun _ => true) = some (c, events) ∧
      c.inBuf = [] ∧ (processed events).flatten = datas.flatten ∧
      ∀ b ∈ processed events, 1 ≤ b.length ∧ b.length ≤ kConnBufLen := by
  suffices h : ∃ events, connRun ⟨[], []⟩ (datas.map fun data => .read data fun _ => true) =
      some (⟨[], []⟩, events) ∧ (processed events).flatten = datas.flatten ∧
      ∀ b ∈ processed events, 1 ≤ b.length ∧ b.length ≤ kConnBufLen by
    obtain ⟨events, he, h⟩ := h
    exact ⟨_, events, he, rfl, h⟩
  induction datas with
  | nil => exact ⟨[], rfl, rfl, fun b hb => absurd hb not_mem_nil⟩
  | cons data datas ih =>
    obtain ⟨events', he', hflat', hlen'⟩ := ih
    obtain ⟨events, he, -, hp⟩ := connLoop_spec (fun _ => true) (data.length + 2) (k := 0)
      (show data.length < _ by omega)
    obtain ⟨hflat, hlen⟩ := hp fun _ => rfl
    refine ⟨events ++ events', ?_, ?_, ?_⟩
    · exact connRun_cons he he'
    · rw [processed_append, flatten_append, hflat, hflat', flatten_cons]
    · intro b hb
      rw [processed_append, mem_append] at hb
      exact hb.elim (hlen b) (hlen' b)

/-- **The writes stay in `m_in_buf`** in a run of callbacks and closings, whatever `CheckValid` returns, if and only
if no callback finds `kConnBufLen` bytes or more. -/
theorem written_in_buf_iff (ops : List ConnOp) : ∃ c events, connRun ⟨[], []⟩ ops = some (c, events) ∧
    (InBuf events ↔ ∀ op ∈ ops, op.received.length < kConnBufLen) := by
  suffices h : ∃ events, connRun ⟨[], []⟩ ops = some (⟨[], []⟩, events) ∧
      (InBuf events ↔ ∀ op ∈ ops, op.received.length < kConnBufLen) by
    obtain ⟨events, h⟩ := h
    exact ⟨_, events, h⟩
  induction ops with
  | nil => exact ⟨[], rfl, ⟨fun _ op hop => absurd hop not_mem_nil, fun _ e he => absurd he not_mem_nil⟩⟩
  | cons op ops ih =>
    obtain ⟨events', he', hin'⟩ := ih
    obtain ⟨events, he, hin⟩ := step_spec op
    refine ⟨events ++ events', ?_, ?_⟩
    · exact connRun_cons he he'
    · rw [inBuf_append, forall_mem_cons, hin, hin']

/-- A callback that finds exactly `kConnBufLen` bytes writes the terminator behind the buffer. -/
theorem term_outside_buf : ∃ c events,
    connRun ⟨[], []⟩ [.read (replicate kConnBufLen 0) fun _ => true] = some (c, events) ∧ ¬ InBuf events := by
  obtain ⟨events, he, hin⟩ := step_spec (.read (replicate kConnBufLen 0) fun _ => true)
  refine ⟨⟨[], []⟩, events ++ [], connRun_cons he rfl, fun h => ?_⟩
  rw [append_nil, hin, ConnOp.received, length_replicate] at h
  exact lt_irrefl _ h

end Backend.XServer
