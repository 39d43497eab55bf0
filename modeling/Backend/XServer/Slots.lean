import Backend.XServer.Model
import Backend.Lib.Chain
import Backend.Lib.Tally

/-!
# `XServer`: when connection slots are conserved

A slot is free, in the pipe or active. `on_conn_read` goes round its loop again after it has closed a
connection whenever the chunk that `CheckValid` rejected filled the buffer; with more data buffered it
then uses and closes a connection that is no longer handed out.

* `Conserved`: slots, descriptors and calls, for one worker;
* `Accepts`: the condition on a read callback;
* **`readLoop_spec`**: what the read callback does under this condition;
* `Inv`, `Inv.closeConn`, `Inv.getFreeConn`, `Inv.notify`: the invariant and the ways of a slot;
* **`conserved_of_reach`**: runs whose read callbacks all meet the condition;
* **`readLoop_again`**, **`not_conserved_of_rejected`**: a rejected full chunk with one more byte
  buffered.
-/

set_option autoImplicit false
set_option linter.unusedSectionVars false

namespace Backend.XServer

open Function

variable {m n : ℕ}

/-- The links of the free list. -/
def Worker.links (w : Worker n) (i : Fin (n + 1)) : Option (Fin (n + 1)) := (w.conn i).next

/-- Slots of a worker are conserved: the nodes from `m_head` to `m_tail` are distinct, and each slot is
once among them, in the pipe or active; a descriptor that was assigned to a slot is closed once, unless
its slot is still in the pipe or active; and no closed slot was used. -/
structure Conserved (w : Worker n) : Prop where
  slots : ∃ l, Chain w.links w.head l (some w.tail) ∧ (l ++ [w.tail]).Nodup ∧
    ∀ i, (l ++ [w.tail]).count i + w.pipe.count i + (w.conn i).enabled.toNat = 1
  closes : ∀ d ∈ w.assigned, w.closed.count (some d) =
    if ∃ i, (i ∈ w.pipe ∨ (w.conn i).enabled = true) ∧ (w.conn i).fd = some d then 0 else 1
  unused : w.stale = false

/-- In a read callback every chunk that is followed by further buffered bytes is accepted: `k + 1`
chunks are `kConnBufLen * (k + 1)` bytes. -/
def Accepts (s : State m n) : Act m n → Prop
  | .read w i data ok => ∀ k,
      kConnBufLen * (k + 1) < (((s.worker w).conn i).input ++ data).length → ok k = true
  | _ => True

instance Accepts.decidable (s : State m n) : ∀ a, Decidable (Accepts s a)
  | .read w i data ok => decidable_of_iff
      (∀ k < (((s.worker w).conn i).input ++ data).length,
        kConnBufLen * (k + 1) < (((s.worker w).conn i).input ++ data).length → ok k = true)
      ⟨fun h k hk => h k (by rw [kConnBufLen] at hk; omega) hk, fun h k _ => h k⟩
  | .accept => isTrue trivial
  | .acceptFail => isTrue trivial
  | .notify _ => isTrue trivial
  | .err _ _ => isTrue trivial

/-! ## The read callback -/

theorem fillLoop_spec {buf : List UInt8} (hb : buf.length ≤ kConnBufLen) (input : List UInt8) :
    fillLoop 3 buf input = some (buf ++ input.take (kConnBufLen - buf.length),
      input.drop (kConnBufLen - buf.length), kConnBufLen - buf.length - input.length) := by
  obtain ⟨f, hf⟩ : ∃ f, f = kConnBufLen - buf.length := ⟨_, rfl⟩
  have hlen : kConnBufLen - (buf ++ input.take f).length = f - input.length := by
    rw [List.length_append, List.length_take]
    omega
  rw [← hf, fillLoop]
  simp only [← hf]
  by_cases h0 : f = 0
  · simp [h0]
  rw [if_neg (Ne.symm h0)]
  by_cases hi : (input.take f).length = 0
  · have hn : input = [] := by
      rw [List.length_take] at hi
      exact List.length_eq_zero_iff.mp (by omega)
    simp [hn]
  rw [if_neg hi, fillLoop]
  simp only [hlen]
  by_cases hfull : f - input.length = 0
  · rw [if_pos hfull.symm, hfull]
  · -- the input is used up, and a third reading finds nothing
    rw [if_neg (Ne.symm hfull), List.drop_eq_nil_of_le (by omega)]
    simp

@[simp] theorem Worker.set_conn (w : Worker n) (i : Fin (n + 1)) (c : Conn n) :
    (w.set i c).conn = update w.conn i c := rfl

theorem Worker.set_set (w : Worker n) (i : Fin (n + 1)) (c c' : Conn n) :
    (w.set i c).set i c' = w.set i c' := by
  simp only [Worker.set, update_idem]

theorem Worker.set_eq_self (w : Worker n) {i : Fin (n + 1)} {c : Conn n} (h : c = w.conn i) :
    w.set i c = w := by
  simp only [Worker.set, h, update_eq_self]

theorem Worker.use_eq_self {w : Worker n} {i : Fin (n + 1)} (h : (w.conn i).out = true) :
    w.use i = w := by
  simp only [Worker.use, h, Bool.not_true, Bool.or_false]

/-- All data of slot `i` has been read and dealt with. -/
def Worker.drain (w : Worker n) (i : Fin (n + 1)) : Worker n :=
  w.set i { w.conn i with inBuf := [], input := [] }

theorem Worker.drain_eq_self {w : Worker n} {i : Fin (n + 1)} (hb : (w.conn i).inBuf = [])
    (hi : (w.conn i).input = []) : w.drain i = w := by
  apply w.set_eq_self
  rcases hc : w.conn i with ⟨next, fd, inBuf, input, enabled, out⟩
  simp only [hc] at hb hi
  rw [hb, hi]

theorem Worker.closeConn_set (w : Worker n) (i : Fin (n + 1)) (buf buf' : List UInt8)
    (c : Conn n) :
    (w.set i { c with inBuf := buf }).closeConn i = (w.set i { c with inBuf := buf' }).closeConn i := by
  simp only [Worker.closeConn, update_self, Worker.set, update_idem]

theorem Worker.closeConn_conn (w : Worker n) (i j : Fin (n + 1)) :
    (w.closeConn i).conn j = { next := if j = w.tail then some i else (w.conn j).next
                               fd := (w.conn j).fd
                               inBuf := if j = i then [] else (w.conn j).inBuf
                               input := (w.conn j).input
                               enabled := if j = i then false else (w.conn j).enabled
                               out := if j = i then false else (w.conn j).out } := by
  simp only [Worker.closeConn, Worker.putFreeConn, Worker.set, update_apply]
  by_cases ht : j = w.tail <;> by_cases hi : j = i
  · subst hi
    simp [← ht]
  · rw [ht] at hi
    simp [ht, hi]
  · subst hi
    simp [ht]
  · simp [ht, hi]

theorem Worker.handle_set {w : Worker n} {i : Fin (n + 1)} (ho : (w.conn i).out = true) (ok : Bool)
    (buf input : List UInt8) :
    (w.set i { w.conn i with inBuf := buf, input := input }).handle i ok =
      if ok then w.set i { w.conn i with inBuf := [], input := input }
      else (w.set i { w.conn i with inBuf := [], input := input }).closeConn i := by
  have hu : (w.set i { w.conn i with inBuf := buf, input := input }).use i =
      w.set i { w.conn i with inBuf := buf, input := input } :=
    Worker.use_eq_self (by simp [ho])
  simp only [Worker.handle, hu]
  split
  · rw [Worker.set_set, Worker.set_conn, update_self]
  · exact w.closeConn_set i _ _ { w.conn i with input := input }

theorem readLoop_nil (ok : ℕ → Bool) {w : Worker n} {i : Fin (n + 1)} (hb : (w.conn i).inBuf = [])
    (hi : (w.conn i).input = []) (fuel k : ℕ) : readLoop ok i (fuel + 1) k w = some w := by
  rw [readLoop, hb, hi, fillLoop_spec (Nat.zero_le _)]
  simp only [List.append_nil, List.take_nil, List.drop_nil, List.length_nil]
  rw [if_neg (Nat.lt_irrefl 0), if_neg (Nat.lt_irrefl 0), if_pos (by decide)]
  exact congrArg some (Worker.drain_eq_self hb hi)

/-- **The outer loop**: when every chunk that is followed by further bytes is accepted, it reads all
data, and closes the connection at most once, at its end. -/
theorem readLoop_spec {ok : ℕ → Bool} {w : Worker n} {i : Fin (n + 1)} {fuel k : ℕ}
    (hb : (w.conn i).inBuf = []) (ho : (w.conn i).out = true)
    (hok : ∀ j, kConnBufLen * (j + 1) < (w.conn i).input.length → ok (k + j) = true)
    (hf : (w.conn i).input.length + 2 ≤ fuel) :
    readLoop ok i fuel k w = some (w.drain i) ∨
      readLoop ok i fuel k w = some ((w.drain i).closeConn i) := by
  induction fuel generalizing w k with
  | zero => omega
  | succ fuel ih =>
    obtain ⟨l, hl⟩ : ∃ l, (w.conn i).input = l := ⟨_, rfl⟩
    rw [hl] at hok hf
    by_cases h0 : l = []
    · rw [readLoop_nil ok hb (hl.trans h0), Worker.drain_eq_self hb (hl.trans h0)]
      exact Or.inl rfl
    have hpos : (l.take kConnBufLen).length > 0 := by
      have := List.length_pos_iff.mpr h0
      rw [List.length_take]
      exact Nat.lt_min.mpr ⟨by decide, this⟩
    rw [readLoop, hb, hl, fillLoop_spec (Nat.zero_le _)]
    simp only [List.nil_append, List.length_nil, Nat.sub_zero]
    rw [if_pos hpos, if_pos hpos, Worker.handle_set ho]
    by_cases hlt : l.length < kConnBufLen
    · rw [if_pos (by omega), List.drop_eq_nil_of_le (by omega)]
      cases ok k with
      | true => exact Or.inl rfl
      | false => exact Or.inr rfl
    rw [if_neg (by omega)]
    cases hk : ok k with
    | true =>
      rw [if_pos rfl]
      have := ih (w := w.set i { w.conn i with inBuf := [], input := l.drop kConnBufLen })
        (k := k + 1)
      simp only [Worker.drain, Worker.set_conn, update_self, Worker.set_set] at this
      refine this trivial ho (fun j hj => ?_) ?_
      · have := hok (j + 1)
        rw [List.length_drop] at hj
        rw [show k + 1 + j = k + (j + 1) by omega]
        exact this (by rw [kConnBufLen] at *; omega)
      · rw [List.length_drop]
        rw [kConnBufLen] at *
        omega
    | false =>
      -- the rejected chunk was the last one: the loop goes round once more and finds nothing
      have hle : l.length ≤ kConnBufLen := by
        by_contra hgt
        have := hok 0 (by omega)
        rw [Nat.add_zero, hk] at this
        cases this
      obtain ⟨fuel, rfl⟩ : ∃ f, fuel = f + 1 := ⟨fuel - 1, by omega⟩
      rw [List.drop_eq_nil_of_le hle, if_neg (by simp)]
      refine Or.inr (readLoop_nil ok ?_ ?_ fuel (k + 1))
      · simp [Worker.closeConn_conn]
      · simp [Worker.closeConn_conn]

/-! ## The invariant -/

/-- Slot `c` is handed out with descriptor `d`. -/
def Conn.holds (d : ℕ) (c : Conn n) : ℕ := if c.out = true ∧ c.fd = some d then 1 else 0

/-- The invariant of a worker when `a` descriptors have been accepted. -/
structure Inv (a : ℕ) (w : Worker n) : Prop where
  slots : ∃ l, Chain w.links w.head l (some w.tail) ∧ (l ++ [w.tail]).Nodup ∧
    ∀ i, (l ++ [w.tail]).count i + w.pipe.count i + (w.conn i).enabled.toNat = 1
  out : ∀ i, (w.conn i).out = true ↔ i ∈ w.pipe ∨ (w.conn i).enabled = true
  buf : ∀ i, (w.conn i).inBuf = []
  fds : ∀ d, w.closed.count (some d) + tally (Conn.holds d) w.conn = w.assigned.count d
  nodup : w.assigned.Nodup
  lt : ∀ d ∈ w.assigned, d < a
  unused : w.stale = false

theorem Inv.conserved {a : ℕ} {w : Worker n} (hi : Inv a w) : Conserved w := by
  refine ⟨hi.slots, fun d hd => ?_, hi.unused⟩
  have hfd := hi.fds d
  rw [List.count_eq_one_of_mem hi.nodup hd] at hfd
  split
  case isTrue h =>
    obtain ⟨i, hout, he⟩ := h
    have hle := le_tally (Conn.holds d) w.conn i
    rw [Conn.holds, if_pos ⟨(hi.out i).mpr hout, he⟩] at hle
    omega
  case isFalse h =>
    have h0 : tally (Conn.holds d) w.conn = 0 :=
      tally_eq_zero fun i => if_neg fun hc => h ⟨i, (hi.out i).mp hc.1, hc.2⟩
    omega

theorem Inv.mono {a b : ℕ} {w : Worker n} (hi : Inv a w) (h : a ≤ b) : Inv b w :=
  { hi with lt := fun d hd => (hi.lt d hd).trans_le h }

theorem chain_initConnList {n k d : ℕ} (h : k + d = n) :
    Chain (initConnList n).links (some ⟨k, by omega⟩)
      (List.ofFn fun j : Fin d => (⟨k + j.val, by omega⟩ : Fin (n + 1))) (some (Fin.last n)) := by
  induction d generalizing k with
  | zero =>
    subst h
    rfl
  | succ d ih =>
    have hk : (initConnList n).links ⟨k, by omega⟩ = some ⟨k + 1, by omega⟩ :=
      dif_pos (show k + 1 < n + 1 by omega)
    rw [List.ofFn_succ, chain_cons]
    simp only [Fin.val_zero, Nat.add_zero, Fin.val_succ, hk, true_and]
    convert ih (k := k + 1) (by omega) using 4
    omega

theorem initConnList_chain (n : ℕ) : ∃ l,
    Chain (initConnList n).links (initConnList n).head l (some (initConnList n).tail) ∧
      l ++ [(initConnList n).tail] = List.finRange (n + 1) := by
  refine ⟨_, chain_initConnList (Nat.zero_add n), ?_⟩
  rw [show (initConnList n).tail = Fin.last n from rfl, List.finRange, List.ofFn_succ_last]
  congr 2
  funext j
  exact Fin.ext (Nat.zero_add _)

theorem initConnList_inv (n : ℕ) : Inv 0 (initConnList n) where
  slots := by
    obtain ⟨l, hc, hl⟩ := initConnList_chain n
    refine ⟨l, hc, ?_, fun i => ?_⟩
    · rw [hl]
      exact List.nodup_finRange _
    · rw [hl, List.count_eq_one_of_mem (List.nodup_finRange _) (List.mem_finRange i)]
      rfl
  out i := by simp [initConnList]
  buf i := rfl
  fds d := by
    have h0 : tally (Conn.holds d) (initConnList n).conn = 0 :=
      tally_eq_zero fun i => if_neg fun h => Bool.false_ne_true h.1
    rw [h0]
    rfl
  nodup := List.nodup_nil
  lt d hd := by cases hd
  unused := rfl

theorem Inv.closeConn {a : ℕ} {w : Worker n} (hi : Inv a w) {i : Fin (n + 1)}
    (he : (w.conn i).enabled = true) : Inv a (w.closeConn i) := by
  obtain ⟨l, hc, hn, hs⟩ := hi.slots
  have hcount := hs i
  rw [he, Bool.toNat_true] at hcount
  have hfree : i ∉ l ++ [w.tail] := List.count_eq_zero.mp (by omega)
  have hpipe : i ∉ w.pipe := List.count_eq_zero.mp (by omega)
  have hmem : w.tail ∉ l := fun h => (List.nodup_append.mp hn).2.2 _ h _ (by simp) rfl
  refine ⟨⟨l ++ [w.tail], ?_, ?_, fun j => ?_⟩, fun j => ?_, fun j => ?_, fun d => ?_, hi.nodup, hi.lt,
    hi.unused⟩
  · refine chain_append.mpr ⟨some w.tail, hc.congr fun j hj => ?_, rfl, ?_⟩
    · rw [Worker.links, w.closeConn_conn, Worker.links]
      exact if_neg fun h : j = w.tail => hmem (h ▸ hj)
    · rw [Worker.links, w.closeConn_conn]
      exact if_pos rfl
  · refine List.nodup_append.mpr ⟨hn, List.nodup_singleton _, fun x hx y hy h => ?_⟩
    rw [h, List.mem_singleton.mp hy] at hx
    exact hfree hx
  · have := hs j
    rw [w.closeConn_conn, List.count_append, List.count_singleton]
    change _ + (if i == j then 1 else 0) + w.pipe.count j + _ = 1
    by_cases hj : j = i
    · subst hj
      simp [List.count_eq_zero.mpr hpipe, List.count_eq_zero.mpr hfree]
    · have hij : ¬ i = j := fun h => hj h.symm
      simpa [hj, hij] using this
  · rw [w.closeConn_conn]
    change _ ↔ j ∈ w.pipe ∨ _
    by_cases hj : j = i
    · subst hj
      simp [hpipe]
    · simp only [if_neg hj]
      exact hi.out j
  · rw [w.closeConn_conn]
    exact ite_eq_left_iff.mpr fun _ => hi.buf j
  · have ho : (w.conn i).out = true := (hi.out i).mpr (Or.inr he)
    have ht : tally (Conn.holds d) (w.closeConn i).conn =
        tally (Conn.holds d) (update w.conn i { w.conn i with out := false }) := by
      refine Finset.sum_congr rfl fun j _ => ?_
      rw [w.closeConn_conn, update_apply]
      by_cases hj : j = i
      · simp [hj, Conn.holds]
      · simp [hj, Conn.holds]
    have hu := tally_update (Conn.holds d) w.conn i { w.conn i with out := false }
    have hcl : (w.closeConn i).closed = w.closed ++ [(w.conn i).fd] := rfl
    have hfd := hi.fds d
    rw [ht, hcl, List.count_append, List.count_singleton]
    change _ = w.assigned.count d
    simp only [Conn.holds, ho, true_and, Bool.false_eq_true, false_and, if_false] at hu
    simp only [beq_iff_eq]
    omega

theorem Inv.drain {a : ℕ} {w : Worker n} (hi : Inv a w) (i : Fin (n + 1)) : Inv a (w.drain i) := by
  obtain ⟨l, hc, hn, hs⟩ := hi.slots
  have hj : ∀ j, (w.drain i).conn j =
      { w.conn j with inBuf := [], input := if j = i then [] else (w.conn j).input } := by
    intro j
    have hb := hi.buf j
    rw [Worker.drain, Worker.set_conn, update_apply]
    split
    case isTrue h => rw [h]
    case isFalse h => rw [← hb]
  refine ⟨⟨l, hc.congr fun j _ => by simp only [Worker.links, hj], hn, fun j => ?_⟩, fun j => ?_,
    fun j => ?_, fun d => ?_, hi.nodup, hi.lt, hi.unused⟩
  · rw [hj]
    exact hs j
  · rw [hj]
    exact hi.out j
  · rw [hj]
  · rw [Worker.drain, Worker.set_conn, tally_update_eq]
    · exact hi.fds d
    · rfl

theorem Inv.notify {a : ℕ} {w : Worker n} (hi : Inv a w) {i : Fin (n + 1)} {p : List (Fin (n + 1))}
    (hp : w.pipe = i :: p) :
    Inv a { w.set i { w.conn i with enabled := true } with pipe := p } := by
  obtain ⟨l, hc, hn, hs⟩ := hi.slots
  have hcount := hs i
  rw [hp, List.count_cons_self] at hcount
  have hj : ∀ j, update w.conn i { w.conn i with enabled := true } j =
      { w.conn j with enabled := decide (j = i) || (w.conn j).enabled } := by
    intro j
    rw [update_apply]
    by_cases h : j = i
    · simp [h]
    · simp [h]
  refine ⟨⟨l, hc.congr fun j _ => by simp only [Worker.links, Worker.set, hj], hn, fun j => ?_⟩,
    fun j => ?_, fun j => ?_, fun d => ?_, hi.nodup, hi.lt, hi.unused⟩
  · have := hs j
    rw [hp, List.count_cons] at this
    simp only [Worker.set, hj]
    by_cases h : j = i
    · subst h
      simp only [decide_true, Bool.true_or, Bool.toNat_true]
      omega
    · have h' : ¬ i = j := fun he => h he.symm
      simpa [h, h'] using this
  · have := hi.out j
    rw [hp, List.mem_cons] at this
    simp only [Worker.set, hj, this, Bool.or_eq_true, decide_eq_true_eq]
    tauto
  · simp only [Worker.set, hj]
    exact hi.buf j
  · simp only [Worker.set]
    rw [tally_update_eq]
    · exact hi.fds d
    · rfl

theorem Inv.assign {a : ℕ} {w : Worker n} (hi : Inv a w) {i : Fin (n + 1)}
    (hh : w.head = some i) (ht : i ≠ w.tail) :
    Inv (a + 1) { w.set i { w.conn i with fd := some a, out := true } with
      head := (w.conn i).next, pipe := w.pipe ++ [i], assigned := w.assigned ++ [a] } := by
  obtain ⟨l, hc, hn, hs⟩ := hi.slots
  obtain ⟨l, rfl⟩ : ∃ l', l = i :: l' := by
    cases l with
    | nil => exact absurd (Option.some.inj (hh.symm.trans hc)) ht
    | cons j l => exact ⟨l, by rw [Option.some.inj (hh.symm.trans hc.1)]⟩
  have hcount := hs i
  rw [List.cons_append, List.count_cons_self] at hcount
  have hpi : i ∉ w.pipe := List.count_eq_zero.mp (by omega)
  have hne : (w.conn i).enabled = false := Bool.toNat_eq_zero.mp (by omega)
  have hout : (w.conn i).out = false := by
    rw [Bool.eq_false_iff, Ne, hi.out i, hne]
    simp [hpi]
  have hj : ∀ j, update w.conn i { w.conn i with fd := some a, out := true } j =
      { w.conn j with fd := if j = i then some a else (w.conn j).fd
                      out := decide (j = i) || (w.conn j).out } := by
    intro j
    rw [update_apply]
    by_cases h : j = i
    · simp [h]
    · simp [h]
  have ha : a ∉ w.assigned := fun h => absurd (hi.lt a h) (Nat.lt_irrefl a)
  refine ⟨⟨l, hc.2.congr fun j _ => by simp only [Worker.links, Worker.set, hj], hn.of_cons,
    fun j => ?_⟩, fun j => ?_, fun j => ?_, fun d => ?_, ?_, fun d hd => ?_, hi.unused⟩
  · have := hs j
    rw [List.cons_append, List.count_cons] at this
    simp only [Worker.set, hj, List.count_append, List.count_singleton] at this ⊢
    omega
  · simp only [Worker.set, hj, Bool.or_eq_true, decide_eq_true_eq, List.mem_append,
      List.mem_singleton, hi.out j]
    tauto
  · simp only [Worker.set, hj]
    exact hi.buf j
  · have hu := tally_update (Conn.holds d) w.conn i { w.conn i with fd := some a, out := true }
    have hfd := hi.fds d
    simp only [Conn.holds, hout, Bool.false_eq_true, false_and, if_false, true_and,
      Option.some.injEq] at hu
    simp only [Worker.set, List.count_append, List.count_singleton, beq_iff_eq]
    omega
  · refine List.nodup_append.mpr ⟨hi.nodup, List.nodup_singleton _, fun x hx y hy h => ?_⟩
    rw [h, List.mem_singleton.mp hy] at hx
    exact ha hx
  · rcases List.mem_append.mp hd with h | h
    · exact (hi.lt d h).trans (Nat.lt_succ_self a)
    · rw [List.mem_singleton.mp h]
      exact Nat.lt_succ_self a

/-! ## Runs -/

theorem Inv.onConnRead {a : ℕ} {w x : Worker n} (hi : Inv a w) {i : Fin (n + 1)}
    (he : (w.conn i).enabled = true) {data : List UInt8} {ok : ℕ → Bool}
    (hok : ∀ k, kConnBufLen * (k + 1) < ((w.conn i).input ++ data).length → ok k = true)
    (h : w.onConnRead i data ok = some x) : Inv a x := by
  obtain ⟨c, hc⟩ : ∃ c, { w.conn i with input := (w.conn i).input ++ data } = c := ⟨_, rfl⟩
  have hconn : (w.set i c).conn i = c := update_self ..
  have hd : (w.set i c).drain i = w.drain i := by
    rw [Worker.drain, Worker.set_set, hconn, ← hc, Worker.drain]
  have hen : ((w.drain i).conn i).enabled = true := by
    rw [Worker.drain, Worker.set_conn, update_self]
    exact he
  have hspec := readLoop_spec (w := w.set i c) (i := i) (k := 0)
    (by rw [hconn, ← hc]; exact hi.buf i) (by rw [hconn, ← hc]; exact (hi.out i).mpr (Or.inr he))
    (fun k hk => (Nat.zero_add k).symm ▸ hok k (by rwa [hconn, ← hc] at hk)) le_rfl
  rw [Worker.onConnRead, hc] at h
  rw [hd, h, Option.some.injEq, Option.some.injEq] at hspec
  rcases hspec with rfl | rfl
  · exact hi.drain i
  · exact (hi.drain i).closeConn hen

theorem Worker.getFreeConn_eq_some {w x : Worker n} {i : Fin (n + 1)}
    (h : w.getFreeConn = some (some (i, x))) : w.head = some i ∧ i ≠ w.tail ∧
      x = { w.set i { w.conn i with out := true } with head := (w.conn i).next } := by
  rw [Worker.getFreeConn] at h
  split at h
  case isTrue hne =>
    obtain ⟨j, hj, he⟩ := Option.map_eq_some_iff.mp h
    simp only [Option.some.injEq, Prod.mk.injEq] at he
    obtain ⟨rfl, rfl⟩ := he
    exact ⟨hj, fun he => hne (he ▸ hj), rfl⟩
  case isFalse => cases h

theorem setWorker_inv {s : State m n} {w : Fin m} {x : Worker n} {a b : ℕ} (hab : a ≤ b)
    (hi : ∀ w, Inv a (s.worker w)) (hx : Inv b x) (v : Fin m) : Inv b ((s.setWorker w x).worker v) := by
  simp only [State.setWorker, update_apply]
  split
  · exact hx
  · exact (hi v).mono hab

theorem Inv.getFreeConn {a : ℕ} {w x : Worker n} (hi : Inv a w) {i : Fin (n + 1)}
    (h : w.getFreeConn = some (some (i, x))) :
    Inv (a + 1) { x.set i { x.conn i with fd := some a } with
      pipe := x.pipe ++ [i], assigned := x.assigned ++ [a] } := by
  obtain ⟨hh, ht, rfl⟩ := Worker.getFreeConn_eq_some h
  have := hi.assign hh ht
  simp only [Worker.set, update_idem, update_self] at this ⊢
  exact this

theorem acceptLoop_inv {k a : ℕ} {s t : State m n} (ha : s.accepted = a + 1)
    (hi : ∀ w, Inv a (s.worker w)) (h : acceptLoop k s = some t) :
    ∀ w, Inv t.accepted (t.worker w) := by
  induction k generalizing s with
  | zero =>
    simp only [acceptLoop, ha, Nat.add_sub_cancel] at h
    split at h
    · cases h
    case h_2 i x hx =>
      cases h
      exact setWorker_inv (Nat.le_succ a) hi ((hi s.workIdx).getFreeConn hx)
    · cases h
      exact fun w => (hi w).mono (Nat.le_succ a)
  | succ k ih =>
    simp only [acceptLoop, ha, Nat.add_sub_cancel] at h
    split at h
    · cases h
    case h_2 i x hx =>
      cases h
      exact setWorker_inv (Nat.le_succ a) hi ((hi s.workIdx).getFreeConn hx)
    · exact ih (s := { worker := s.worker, workIdx := nextIdx s.workIdx, accepted := a + 1 }) rfl hi h

theorem next_inv {s t : State m n} {a : Act m n} (hi : ∀ w, Inv s.accepted (s.worker w))
    (ha : Accepts s a) (h : next s a = some t) : ∀ w, Inv t.accepted (t.worker w) := by
  cases a with
  | accept => exact acceptLoop_inv (s := { s with accepted := s.accepted + 1 }) rfl hi h
  | acceptFail =>
    cases h
    exact hi
  | notify w =>
    simp only [next] at h
    split at h
    · cases h
    case h_2 i l hp =>
      cases h
      exact setWorker_inv le_rfl hi ((hi w).notify hp)
  | read w i data ok =>
    simp only [next] at h
    split at h
    case isTrue he =>
      obtain ⟨x, hx, rfl⟩ := Option.map_eq_some_iff.mp h
      exact setWorker_inv le_rfl hi ((hi w).onConnRead he ha hx)
    case isFalse => cases h
  | err w i =>
    simp only [next] at h
    split at h
    case isTrue he =>
      cases h
      exact setWorker_inv le_rfl hi ((hi w).closeConn he)
    case isFalse => cases h

/-- **Slots are conserved** in every run in which each chunk that is followed by further bytes is
accepted. -/
theorem conserved_of_reach (m n : ℕ) (hm : 0 < m) {s : State m n}
    (h : ReachIf next Accepts (State.init m n hm) s) (w : Fin m) : Conserved (s.worker w) :=
  (h.inv (I := fun s => ∀ w, Inv s.accepted (s.worker w)) (fun _ => initConnList_inv n)
    (fun _ _ _ hi ha hn => next_inv hi ha hn) w).conserved

/-- One connection is accepted and enabled by worker `w`. -/
def connect (w : Fin m) : List (Act m n) := [.accept, .notify w]

/-- It then sends `data` on slot `i`; its chunks are all accepted or all rejected. -/
def oneClient (w : Fin m) (i : Fin (n + 1)) (data : List UInt8) (ok : Bool) : List (Act m n) :=
  connect w ++ [.read w i data fun _ => ok]

/-- A descriptor that is closed after a rejected chunk. -/
theorem conserved_of_reach_one : ∃ s : State 1 1, ReachIf next Accepts (State.init 1 1 Nat.one_pos) s ∧
    (s.worker 0).assigned = [0] ∧ (s.worker 0).closed = [some 0] ∧ Conserved (s.worker 0) := by
  have hm : Meets next Accepts (State.init 1 1 Nat.one_pos) (oneClient 0 0 [7] false) := by
    decide +kernel
  have hr : (run next (State.init 1 1 Nat.one_pos) (oneClient 0 0 [7] false)).map
      (fun s => ((s.worker 0).assigned, (s.worker 0).closed)) = some ([0], [some 0]) := by
    decide +kernel
  obtain ⟨s, hs, hv⟩ := ReachIf.of_run_map hm hr
  obtain ⟨ha, hc⟩ := Prod.mk.inj hv
  exact ⟨s, hs, ha, hc, conserved_of_reach 1 1 Nat.one_pos hs 0⟩

/-! ## A rejected chunk with more data behind it -/

theorem Worker.closeConn_closed (w : Worker n) (i : Fin (n + 1)) :
    (w.closeConn i).closed = w.closed ++ [(w.conn i).fd] := rfl

/-- A full chunk and one more byte, both rejected: the loop goes round again after `close_conn`. -/
theorem readLoop_again (ok : ℕ → Bool) {w : Worker n} {i : Fin (n + 1)} {k : ℕ}
    (hb : (w.conn i).inBuf = []) (ho : (w.conn i).out = true)
    (hi : (w.conn i).input.length = kConnBufLen + 1) (h₀ : ok k = false) (h₁ : ok (k + 1) = false)
    (fuel : ℕ) : ∃ x, readLoop ok i (fuel + 2) k w = some x ∧
      x.closed = w.closed ++ [(w.conn i).fd, (w.conn i).fd] ∧ x.stale = true := by
  obtain ⟨l, hl⟩ : ∃ l, (w.conn i).input = l := ⟨_, rfl⟩
  rw [hl] at hi
  have hpos : (l.take kConnBufLen).length > 0 := by
    rw [List.length_take, hi]
    decide
  have hlen : (l.drop kConnBufLen).length = 1 := by
    rw [List.length_drop, hi, Nat.add_sub_cancel_left]
  obtain ⟨b, hdrop⟩ := List.length_eq_one_iff.mp hlen
  obtain ⟨w₁, hw₁⟩ : ∃ w₁, (w.set i { w.conn i with inBuf := [], input := [b] }).closeConn i = w₁ :=
    ⟨_, rfl⟩
  have hfirst : readLoop ok i (fuel + 2) k w = readLoop ok i (fuel + 1) (k + 1) w₁ := by
    rw [readLoop, hb, hl, fillLoop_spec (Nat.zero_le _)]
    simp only [List.nil_append, List.length_nil, Nat.sub_zero]
    rw [if_pos hpos, if_pos hpos, Worker.handle_set ho, h₀, if_neg Bool.false_ne_true, hdrop, hw₁,
      if_neg (show ¬ 0 ≠ kConnBufLen - l.length by omega)]
  have hc := Worker.closeConn_conn (w.set i { w.conn i with inBuf := [], input := [b] }) i i
  rw [hw₁] at hc
  simp only [Worker.set_conn, update_self, if_true] at hc
  have hsecond : readLoop ok i (fuel + 1) (k + 1) w₁ =
      some ((w₁.set i { w₁.conn i with inBuf := [b], input := [] }).handle i false) := by
    rw [readLoop, show (w₁.conn i).inBuf = [] by rw [hc], show (w₁.conn i).input = [b] by rw [hc],
      fillLoop_spec (Nat.zero_le _), h₁]
    rfl
  have hclosed : w₁.closed = w.closed ++ [(w.conn i).fd] := by
    rw [← hw₁, Worker.closeConn_closed, Worker.set_conn, update_self]
    rfl
  refine ⟨_, hfirst.trans hsecond, ?_, ?_⟩
  · rw [Worker.handle, if_neg Bool.false_ne_true, Worker.closeConn_closed]
    simp [Worker.use, Worker.set, hc, hclosed]
  · rw [Worker.handle, if_neg Bool.false_ne_true]
    simp [Worker.closeConn, Worker.putFreeConn, Worker.use, Worker.set, hc]

theorem run_oneClient_rejected {data : List UInt8} (hd : data.length = kConnBufLen + 1) :
    ∃ s, run next (State.init 1 1 Nat.one_pos) (oneClient 0 0 data false) = some s ∧
      (s.worker 0).closed = [some 0, some 0] ∧ (s.worker 0).stale = true := by
  -- the state before the read callback
  have hpre : (run next (State.init 1 1 Nat.one_pos) (connect 0)).map (fun s =>
      (((s.worker 0).closed, ((s.worker 0).conn 0).fd),
        (((s.worker 0).conn 0).inBuf, ((s.worker 0).conn 0).input),
        ((s.worker 0).conn 0).enabled, ((s.worker 0).conn 0).out)) =
      some (([], some 0), ([], []), true, true) := by decide +kernel
  obtain ⟨t, ht, hv⟩ := Option.map_eq_some_iff.mp hpre
  simp only [Prod.mk.injEq] at hv
  obtain ⟨⟨hclosed, hfd⟩, ⟨hb, hi⟩, he, ho⟩ := hv
  obtain ⟨w, hw⟩ : ∃ w, (t.worker 0).set 0 { (t.worker 0).conn 0 with
      input := ((t.worker 0).conn 0).input ++ data } = w := ⟨_, rfl⟩
  have hconn : w.conn 0 = { (t.worker 0).conn 0 with input := data } := by
    rw [← hw, Worker.set_conn, update_self, hi, List.nil_append]
  have hwc : w.closed = [] := by
    rw [← hw]
    exact hclosed
  have hwfd : (w.conn 0).fd = some 0 := by
    rw [hconn]
    exact hfd
  obtain ⟨x, hx, hxc, hxs⟩ := readLoop_again (fun _ => false) (w := w) (i := 0) (k := 0)
    (by rw [hconn]; exact hb) (by rw [hconn]; exact ho) (by rw [hconn]; exact hd) rfl rfl
    (w.conn 0).input.length
  have hread : next t (.read 0 0 data fun _ => false) = some (t.setWorker 0 x) := by
    rw [next, if_pos he, Worker.onConnRead, hw]
    simp only [hx, Option.map_some]
  have hworker : (t.setWorker 0 x).worker 0 = x := by simp [State.setWorker]
  refine ⟨t.setWorker 0 x, ?_, ?_, ?_⟩
  · rw [oneClient, run_append, ht, Option.bind_some, run_cons _ hread]
    rfl
  · rw [hworker, hxc, hwc, hwfd]
    rfl
  · rw [hworker, hxs]

/-- **A rejected chunk with one byte behind it**: the slot is closed, used and closed again. -/
theorem not_conserved_of_rejected : ∃ s : State 1 1,
    run next (State.init 1 1 Nat.one_pos) (oneClient 0 0 (List.replicate 2049 7) false) = some s ∧
      (s.worker 0).closed = [some 0, some 0] ∧ (s.worker 0).stale = true ∧
      ¬ Conserved (s.worker 0) := by
  have hlen : (List.replicate 2049 (7 : UInt8)).length = kConnBufLen + 1 := List.length_replicate
  obtain ⟨s, hs, hc, ht⟩ := run_oneClient_rejected hlen
  refine ⟨s, hs, hc, ht, fun h => ?_⟩
  rw [h.unused] at ht
  cases ht

end Backend.XServer
