import Backend.Lru.Refine

/-!
# `LruHashMap` never leaks, duplicates or over-draws an entry

Between the calls every index of `m_entry_array` is the header, a live entry or an index of the ring of
free indices, and the bucket chains and the access list hold the live entries.

* `EntryQueue.num`, `EntryQueue.stored`: the indices from `m_head` up to `m_tail`;
* `Slots`: the indices, the chains and the access list between two calls;
* **`slots_of_exec`**: `Slots` holds after every sequence of calls.
-/

set_option autoImplicit false
set_option linter.unusedSectionVars false

namespace Backend.Lru

open Function

/-! ## The ring between its two indices -/

section Ring

variable {T : Type}

/-- The number of places from `m_head` up to `m_tail`. -/
def EntryQueue.num (q : EntryQueue T) : ℕ := (q.tail + q.size - q.head) % q.size

/-- What is stored there. -/
def EntryQueue.stored (q : EntryQueue T) : List T :=
  (List.range q.num).map fun i => q.data ((q.head + i) % q.size)

theorem sub_mod_ring {m r k : ℕ} (hk : k < m) : ((r + k) % m + m - r % m) % m = k := by
  have hr : r % m < m := Nat.mod_lt _ (by omega)
  rw [Nat.add_mod r k m, Nat.mod_eq_of_lt hk]
  rcases Nat.lt_or_ge (r % m + k) m with h | h
  · rw [Nat.mod_eq_of_lt h, show r % m + k + m - r % m = k + m by omega, Nat.add_mod_right,
      Nat.mod_eq_of_lt hk]
  · rw [Nat.mod_eq_sub_mod h, Nat.mod_eq_of_lt (show r % m + k - m < m by omega),
      show r % m + k - m + m - r % m = k by omega, Nat.mod_eq_of_lt hk]

theorem EntryQueue.Content.stored_eq {q : EntryQueue T} {l : List T} (h : q.Content l)
    (hl : l.length < q.size) : q.stored = l := by
  obtain ⟨r, hr, hh, ht⟩ := h
  have hn : q.num = l.length := by rw [EntryQueue.num, hh, ht, sub_mod_ring hl]
  apply List.ext_getElem
  · rw [EntryQueue.stored, List.length_map, List.length_range, hn]
  · intro i hi hi'
    simp only [EntryQueue.stored, List.getElem_map, List.getElem_range, hh, Nat.mod_add_mod]
    exact hr i _ (List.getElem?_eq_getElem hi')

end Ring

/-! ## The indices between two calls -/

variable {n : ℕ} {K V : Type} [DecidableEq K] (code : K → UInt32)

/-- The live entries are `L`, oldest first. -/
structure Slots (m : LruHashMap n K V) (L : List (Slot n)) : Prop where
  /-- the header, the live entries and the free indices are all indices, each once -/
  indices : m.header = 0 ∧
    (some 0 :: (L.map some ++ m.queue.stored)).Perm ((List.finRange (n + 2)).map some)
  /-- `Pop` reads a free index -/
  free : ∃ e, m.queue.stored.head? = some (some e) ∧ m.queue.pop.1 = some e ∧ e ∉ 0 :: L
  /-- every live entry is on the chain of its key and on no other; the chains end in `-1` -/
  chains : ∃ C : ℕ → List (Slot n), (∀ j, Chain m.next (m.table j) (C j) none ∧ (C j).Nodup) ∧
    ∀ j x, x ∈ C j ↔ x ∈ L ∧ bucket code n (m.key x) = j
  bucket_lt : ∀ k, bucket code n k < tableSize n
  keys : (L.map m.key).Nodup
  /-- `after` goes from the header through the live entries back to the header, `before` goes back -/
  access : Linked m.after m.before 0 L 0
  nodeNum : m.nodeNum = L.length ∧ L.length ≤ n

variable {code} {m : LruHashMap n K V} {L : List (Slot n)}

theorem bucket_lt_tableSize (hn : 0 < n) (k : K) : bucket code n k < tableSize n := by
  refine Nat.mod_lt _ ?_
  rw [tableSize]
  split
  · decide
  · exact hn

theorem Rep.stored_free (h : Rep code m L) : ∃ F : List (Slot n), m.queue.stored = F.map some ∧
    m.queue.Content (F.map some) ∧ (0 :: (L ++ F)).Perm (List.finRange (n + 2)) := by
  obtain ⟨F, hF, hp⟩ := h.free
  have hlen := hp.length_eq
  simp only [List.length_cons, List.length_append, List.length_finRange] at hlen
  refine ⟨F, hF.stored_eq ?_, hF, h.header ▸ hp⟩
  rw [h.size, List.length_map]
  omega

theorem Rep.slots (h : Rep code m L) (hn : 0 < n) (hl : L.length ≤ n) : Slots code m L where
  indices := by
    obtain ⟨F, hF, -, hp⟩ := h.stored_free
    refine ⟨h.header, ?_⟩
    rw [hF, ← List.map_append, ← List.map_cons]
    exact hp.map some
  free := by
    obtain ⟨F, hF, hc, hp⟩ := h.stored_free
    have hlen := hp.length_eq
    simp only [List.length_cons, List.length_append, List.length_finRange] at hlen
    cases F with
    | nil =>
      rw [List.length_nil] at hlen
      omega
    | cons e F =>
      refine ⟨e, by rw [hF]; rfl, hc.pop.1, fun he => ?_⟩
      have hnd := hp.nodup_iff.mpr (List.nodup_finRange _)
      rw [← List.cons_append] at hnd
      exact (List.nodup_append.mp hnd).2.2 e he e List.mem_cons_self rfl
  chains := by
    obtain ⟨C, hC⟩ := h.chains
    exact ⟨C, fun j => ⟨(hC j).1, (hC j).2.1⟩, fun j => (hC j).2.2⟩
  bucket_lt := bucket_lt_tableSize hn
  keys := h.keys
  access := h.header ▸ h.access
  nodeNum := ⟨h.nodeNum, hl⟩

/-! ## Sequences of calls -/

theorem ref_exec_isSome {ops : List (Op K V)} (h : .getFutureRemoveKey ∉ ops) (l : List (K × V)) :
    ∃ r, Ref.exec n l ops = some r := by
  induction ops generalizing l with
  | nil => exact ⟨_, rfl⟩
  | cons op ops ih =>
    rw [List.mem_cons, not_or] at h
    obtain ⟨r, hr⟩ := Option.ne_none_iff_exists'.mp fun hn : Ref.step n l op = none =>
      h.1 (ref_step_eq_none.mp hn).1.symm
    obtain ⟨t, ht⟩ := ih h.2 r.2
    exact ⟨(r.1 :: t.1, t.2), by rw [Ref.exec, hr]; simp [ht]⟩

/-- **No entry is leaked, duplicated or over-drawn**: every sequence of calls after `Init` ends in a
state in which the indices, the chains and the access list are in step. -/
theorem slots_of_exec (code : K → UInt32) {n : ℕ} {key : Slot n → K} {value : Slot n → V}
    {m : LruHashMap n K V} (hm : LruHashMap.init n key value = some m) {ops : List (Op K V)}
    (hops : .getFutureRemoveKey ∉ ops) :
    ∃ rs m' L, m.exec code ops = some (rs, m') ∧ Slots code m' L := by
  have hn : 0 < n := by
    rw [LruHashMap.init] at hm
    split at hm
    · cases hm
    · omega
  obtain ⟨⟨rs, l⟩, hr⟩ := ref_exec_isSome hops ([] : List (K × V))
  have h₀ : Sim code m [] := ⟨[], init_rep hm, Nat.zero_le n, rfl⟩
  obtain ⟨m', hm', L, hrep, hl, -⟩ := exec_sim h₀ hr
  exact ⟨rs, m', L, hm', hrep.slots hn hl⟩

/-- Three keys in a map for two; one of them is removed. -/
theorem slots_of_exec_two : ∃ m : LruHashMap 2 ℕ ℕ,
    LruHashMap.init 2 (fun _ => 0) (fun _ => 0) = some m ∧
      ∃ rs m' L, m.exec Nat.toUInt32 [.put 1 10 true, .put 2 20 true, .put 3 30 true, .remove 2] =
        some (rs, m') ∧ Slots Nat.toUInt32 m' L := by
  have hinit : (LruHashMap.init 2 (fun _ => 0) (fun _ => 0) : Option (LruHashMap 2 ℕ ℕ)).isSome := by
    decide +kernel
  obtain ⟨m, hm⟩ := Option.isSome_iff_exists.mp hinit
  exact ⟨m, hm, slots_of_exec Nat.toUInt32 hm (by simp)⟩

end Backend.Lru
