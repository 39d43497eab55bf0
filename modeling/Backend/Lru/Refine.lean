import Backend.Lru.Structure

/-!
# `LruHashMap` refines a reference list

The reference is a list of pairs, oldest first. Every call returns what the reference returns, from
`Init` on and through any number of calls.

* `Ref.put`, `Ref.touch`, `Ref.step`, `Ref.exec`: the reference list;
* `Sim`, `Sim.get`, `Sim.remove`, `Sim.put`: a map and its list, and the calls that change them;
* `Rep.getLatestNode`, `Rep.getLatestNKeyValue`, `Sim.getFutureRemoveKey`: the newest pairs and the oldest one;
* **`step_sim`**, **`exec_sim`**: one call, a sequence of calls;
* **`exec_eq_ref`**: the results of a map are those of the list, also after `Reset`.
-/

set_option autoImplicit false
set_option linter.unusedSectionVars false

namespace Backend.Lru

open Function

variable {n : ℕ} {K V : Type} [DecidableEq K]

/-! ## The reference list -/

/-- `Put`: a present key gets the value and moves to the newest end iff `isLru`; an absent key becomes
the newest, and the oldest pair is dropped when there are more than `n`. -/
def Ref.put (n : ℕ) (l : List (K × V)) (key : K) (value : V) (isLru : Bool) : List (K × V) :=
  if ∃ p ∈ l, p.1 = key then
    if isLru then l.filter (fun p => p.1 ≠ key) ++ [(key, value)]
    else l.map fun p => if p.1 = key then (key, value) else p
  else if (l ++ [(key, value)]).length > n then (l ++ [(key, value)]).tail
  else l ++ [(key, value)]

/-- `Get`: the pair of a present key moves to the newest end iff `isLru`. -/
def Ref.touch (l : List (K × V)) (key : K) (isLru : Bool) : List (K × V) :=
  match l.find? fun p => p.1 = key with
  | none => l
  | some p => if isLru then l.filter (fun p => p.1 ≠ key) ++ [p] else l

/-- One call on the list; `GetFutureRemoveKey` is defined when there is a pair. -/
def Ref.step (n : ℕ) (l : List (K × V)) : Op K V → Option (Res K V × List (K × V))
  | .put k v lru => some (.bool true, Ref.put n l k v lru)
  | .get k lru => some (.value ((l.find? fun p => p.1 = k).map Prod.snd), Ref.touch l k lru)
  | .getRef k lru => some (.value ((l.find? fun p => p.1 = k).map Prod.snd), Ref.touch l k lru)
  | .remove k => some (.bool (decide (∃ p ∈ l, p.1 = k)), l.filter fun p => p.1 ≠ k)
  | .reset => some (.bool true, [])
  | .getSize => some (.size l.length, l)
  | .isFull => some (.bool (decide (n ≤ l.length)), l)
  | .getLatestNodeKey => some (.key (l.getLast?.map Prod.fst), l)
  | .getLatestNodeValue => some (.value (l.getLast?.map Prod.snd), l)
  | .getLatestNKeyValue num =>
    if l = [] then some (.pairs false num [], l)
    else some (.pairs true (min num l.length : ℕ) (l.reverse.take (min num l.length)), l)
  | .getFutureRemoveKey => l.head?.map fun p => (.pair p, l)

/-- A sequence of calls on the list. -/
def Ref.exec (n : ℕ) : List (K × V) → List (Op K V) → Option (List (Res K V) × List (K × V))
  | l, [] => some ([], l)
  | l, op :: ops => do
    let r ← Ref.step n l op
    let t ← Ref.exec n r.2 ops
    some (r.1 :: t.1, t.2)

theorem ref_step_eq_none {l : List (K × V)} {op : Op K V} :
    Ref.step n l op = none ↔ op = .getFutureRemoveKey ∧ l = [] := by
  cases op with
  | getFutureRemoveKey => simp [Ref.step]
  | getLatestNKeyValue num =>
    simp only [Ref.step, reduceCtorEq, false_and, iff_false]
    split <;> simp
  | _ => simp [Ref.step]

variable (code : K → UInt32)

/-- The pair of an entry. -/
def LruHashMap.pair (m : LruHashMap n K V) (x : Slot n) : K × V := (m.key x, m.value x)

/-- The map holds the pairs `l`. -/
def Sim (m : LruHashMap n K V) (l : List (K × V)) : Prop :=
  ∃ L, Rep code m L ∧ L.length ≤ n ∧ l = L.map m.pair

variable {code} {m : LruHashMap n K V} {L A B : List (Slot n)} {e : Slot n}

theorem pair_congr {m' : LruHashMap n K V} (hk : m'.key = m.key) (hv : m'.value = m.value) :
    m'.pair = m.pair := by
  funext x
  rw [LruHashMap.pair, hk, hv, LruHashMap.pair]

/-! ## Live and absent keys -/

theorem Rep.key_ne (h : Rep code m (A ++ e :: B)) {x : Slot n} (hx : x ∈ A ++ B) :
    m.key x ≠ m.key e := by
  intro hk
  obtain ⟨hm, hne⟩ := (mem_splice h.nodup.of_cons).mp hx
  exact hne (h.key_inj hm (by simp) hk)

theorem Rep.filter_pair (h : Rep code m (A ++ e :: B)) :
    ((A ++ e :: B).map m.pair).filter (fun p => p.1 ≠ m.key e) = (A ++ B).map m.pair := by
  have hA : ∀ x ∈ A, decide (m.key x ≠ m.key e) = true := fun x hx =>
    decide_eq_true (h.key_ne (List.mem_append_left _ hx))
  have hB : ∀ x ∈ B, decide (m.key x ≠ m.key e) = true := fun x hx =>
    decide_eq_true (h.key_ne (List.mem_append_right _ hx))
  rw [List.filter_map, List.filter_append, List.filter_cons_of_neg (by simp [LruHashMap.pair])]
  exact congrArg _ (congrArg₂ _ (List.filter_eq_self.mpr hA) (List.filter_eq_self.mpr hB))

theorem Rep.find?_pair (h : Rep code m (A ++ e :: B)) :
    ((A ++ e :: B).map m.pair).find? (fun p => p.1 = m.key e) = some (m.pair e) := by
  have hA : (A.map m.pair).find? (fun p => p.1 = m.key e) = none := by
    refine List.find?_eq_none.mpr fun p hp => ?_
    obtain ⟨x, hx, rfl⟩ := List.mem_map.mp hp
    rw [decide_eq_true_eq]
    exact h.key_ne (List.mem_append_left B hx)
  rw [List.map_append, List.find?_append, hA, List.map_cons, List.find?_cons_of_pos]
  · rfl
  · simp [LruHashMap.pair]

theorem Rep.live_or_absent (m : LruHashMap n K V) (L : List (Slot n)) (key : K) :
    (∃ A e B, L = A ++ e :: B ∧ key = m.key e) ∨ ∀ x ∈ L, m.key x ≠ key := by
  by_cases h : ∃ e ∈ L, m.key e = key
  · obtain ⟨e, he, rfl⟩ := h
    obtain ⟨A, B, rfl⟩ := List.append_of_mem he
    exact Or.inl ⟨A, e, B, rfl, rfl⟩
  · exact Or.inr fun x hx hk => h ⟨x, hx, hk⟩

theorem exists_pair_iff {key : K} : (∃ p ∈ L.map m.pair, p.1 = key) ↔ ∃ x ∈ L, m.key x = key := by
  simp [LruHashMap.pair]

theorem not_exists_pair {key : K} (hk : ∀ x ∈ L, m.key x ≠ key) :
    ¬ ∃ p ∈ L.map m.pair, p.1 = key := by
  rw [exists_pair_iff]
  exact fun ⟨x, hx, he⟩ => hk x hx he

theorem find?_pair_absent {key : K} (hk : ∀ x ∈ L, m.key x ≠ key) :
    (L.map m.pair).find? (fun p => p.1 = key) = none :=
  List.find?_eq_none.mpr fun p hp => by
    simpa using fun he => not_exists_pair hk ⟨p, hp, he⟩

/-! ## The calls -/

theorem Rep.sim_recordAccess (h : Rep code m (A ++ e :: B)) (hl : (A ++ e :: B).length ≤ n)
    (isLru : Bool) : ∃ m', m.recordAccess e isLru = some m' ∧ m'.value = m.value ∧
      Sim code m' (if isLru then (A ++ B).map m.pair ++ [m.pair e] else (A ++ e :: B).map m.pair) := by
  cases isLru with
  | true =>
    obtain ⟨af, bf, hr, h'⟩ := h.recordAccess
    refine ⟨_, hr, rfl, _, h', ?_, ?_⟩
    · simp only [List.length_append, List.length_cons, List.length_nil] at hl ⊢
      omega
    · change _ = (A ++ B ++ [e]).map m.pair
      simp
  | false => exact ⟨m, rfl, rfl, _, h, hl, rfl⟩

theorem touch_pair (h : Rep code m (A ++ e :: B)) (isLru : Bool) :
    Ref.touch ((A ++ e :: B).map m.pair) (m.key e) isLru =
      if isLru then (A ++ B).map m.pair ++ [m.pair e] else (A ++ e :: B).map m.pair := by
  rw [Ref.touch, h.find?_pair]
  simp only [h.filter_pair]

theorem Sim.get {l : List (K × V)} (h : Sim code m l) (key : K) (isLru : Bool) :
    ∃ m', m.get code key isLru = some ((l.find? fun p => p.1 = key).map Prod.snd, m') ∧
      (m.getRef code key isLru).map (fun r => (r.1.map r.2.value, r.2)) =
        some ((l.find? fun p => p.1 = key).map Prod.snd, m') ∧ Sim code m' (Ref.touch l key isLru) := by
  obtain ⟨L, h, hl, rfl⟩ := h
  rcases Rep.live_or_absent m L key with ⟨A, e, B, rfl, rfl⟩ | hk
  · obtain ⟨m', hr, hv, hs⟩ := h.sim_recordAccess hl isLru
    have hf := h.find_mem (e := e) (by simp)
    rw [h.find?_pair]
    refine ⟨m', ?_, ?_, ?_⟩
    · simp [LruHashMap.get, hf, hr, LruHashMap.pair]
    · simp [LruHashMap.getRef, hf, hr, LruHashMap.pair, hv]
    · rw [touch_pair h]
      exact hs
  · have hf := h.find_absent hk
    rw [find?_pair_absent hk]
    refine ⟨m, ?_, ?_, L, h, hl, ?_⟩
    · simp [LruHashMap.get, hf]
    · simp [LruHashMap.getRef, hf]
    · rw [Ref.touch, find?_pair_absent hk]

theorem Sim.remove {l : List (K × V)} (h : Sim code m l) (key : K) :
    ∃ m', m.remove code key = some (decide (∃ p ∈ l, p.1 = key), m') ∧
      Sim code m' (l.filter fun p => p.1 ≠ key) := by
  obtain ⟨L, h, hl, rfl⟩ := h
  rcases Rep.live_or_absent m L key with ⟨A, e, B, rfl, rfl⟩ | hk
  · obtain ⟨m', hr, h', hkey, hvalue⟩ := h.remove
    refine ⟨m', ?_, A ++ B, h', ?_, ?_⟩
    · rw [decide_eq_true (exists_pair_iff.mpr ⟨e, by simp, rfl⟩)]
      exact hr
    · simp only [List.length_append, List.length_cons] at hl ⊢
      omega
    · rw [h.filter_pair, pair_congr hkey hvalue]
  · refine ⟨m, ?_, L, h, hl, ?_⟩
    · rw [decide_eq_false (not_exists_pair hk)]
      exact h.remove_absent hk
    · refine List.filter_eq_self.mpr fun p hp => ?_
      simpa using fun he => not_exists_pair hk ⟨p, hp, he⟩

theorem Rep.sim_put (h : Rep code m (A ++ e :: B)) (hl : (A ++ e :: B).length ≤ n) (value : V)
    (isLru : Bool) : ∃ m', m.put code (m.key e) value isLru = some (true, m') ∧
      Sim code m' (Ref.put n ((A ++ e :: B).map m.pair) (m.key e) value isLru) := by
  obtain ⟨m₁, hm₁⟩ : ∃ m₁, { m with value := update m.value e value } = m₁ := ⟨_, rfl⟩
  have h₁ : Rep code m₁ (A ++ e :: B) := hm₁ ▸ h.setValue _
  have hpe : m₁.pair e = (m.key e, value) := by
    simp [← hm₁, LruHashMap.pair]
  have hp : ∀ x ∈ A ++ B, m₁.pair x = m.pair x := fun x hx => by
    have hne := ((mem_splice h.nodup.of_cons).mp hx).2
    simp [← hm₁, LruHashMap.pair, update_of_ne hne]
  obtain ⟨m', hr, -, hs⟩ := h₁.sim_recordAccess hl isLru
  refine ⟨m', ?_, ?_⟩
  · simp [LruHashMap.put, h.find_mem (e := e) (by simp), hm₁, hr]
  · have hpos : ∃ p ∈ (A ++ e :: B).map m.pair, p.1 = m.key e := exists_pair_iff.mpr ⟨e, by simp, rfl⟩
    rw [Ref.put, if_pos hpos, h.filter_pair]
    rw [hpe, List.map_congr_left hp] at hs
    cases isLru with
    | true => exact hs
    | false =>
      have hmap : ((A ++ e :: B).map m.pair).map (fun p => if p.1 = m.key e then (m.key e, value) else p) =
          (A ++ e :: B).map m₁.pair := by
        rw [List.map_map]
        refine List.map_congr_left fun x hx => ?_
        by_cases hxe : x = e
        · rw [hxe, hpe]
          exact if_pos rfl
        · have hx' := (mem_splice h.nodup.of_cons).mpr ⟨hx, hxe⟩
          rw [hp x hx']
          exact if_neg (h.key_ne hx')
      simp only [Bool.false_eq_true, if_false, hmap] at hs ⊢
      exact hs

theorem Rep.sim_evict (h : Rep code m L) (hl : L.length ≤ n + 1) (hne : L ≠ []) :
    ∃ m', m.evict code = some (true, m') ∧
      Sim code m' (if (L.map m.pair).length > n then (L.map m.pair).tail else L.map m.pair) := by
  rw [LruHashMap.evict, h.nodeNum, List.length_map]
  by_cases hgt : L.length > n
  · obtain ⟨x, B, rfl⟩ := List.exists_cons_of_ne_nil hne
    obtain ⟨m', hr, h', hkey, hvalue⟩ := Rep.remove (A := []) h
    have hx : m.after m.header = some x := h.access.chain.1
    refine ⟨m', ?_, B, h', ?_, ?_⟩
    · rw [if_pos (by omega), hx]
      simp [hr]
    · rw [List.length_cons] at hl
      omega
    · rw [if_pos hgt, List.map_cons, List.tail_cons, pair_congr hkey hvalue]
  · refine ⟨m, ?_, L, h, by omega, ?_⟩
    · rw [if_neg (by omega)]
    · rw [if_neg hgt]

theorem Rep.sim_addEntry (h : Rep code m L) (hl : L.length ≤ n) {key : K}
    (hk : ∀ x ∈ L, m.key x ≠ key) (value : V) :
    ∃ m', m.addEntry code key value (bucket code n key) = some (true, m') ∧
      Sim code m' (if (L.map m.pair ++ [(key, value)]).length > n then
        (L.map m.pair ++ [(key, value)]).tail else L.map m.pair ++ [(key, value)]) := by
  obtain ⟨e, q, af, bf, hpop, he, hadd, h'⟩ := h.link hl hk value
  obtain ⟨m', hm', hs⟩ := h'.sim_evict (by simpa using hl) (by simp)
  have hpairs : (L ++ [e]).map (LruHashMap.pair
      { { m with queue := q }.linkEntry e key value (bucket code n key) with
        after := af, before := bf, nodeNum := m.nodeNum + 1 }) = L.map m.pair ++ [(key, value)] := by
    rw [List.map_append]
    refine congrArg₂ _ (List.map_congr_left fun x hx => ?_) ?_
    · have hne := ne_of_mem_of_not_mem hx he
      simp [LruHashMap.pair, LruHashMap.linkEntry, hne]
    · simp [LruHashMap.pair, LruHashMap.linkEntry]
  rw [hpairs] at hs
  refine ⟨m', ?_, hs⟩
  rw [LruHashMap.addEntry, hpop]
  simp only [hadd, Option.bind_eq_bind, Option.bind_some]
  exact hm'

theorem Sim.put {l : List (K × V)} (h : Sim code m l) (key : K) (value : V) (isLru : Bool) :
    ∃ m', m.put code key value isLru = some (true, m') ∧ Sim code m' (Ref.put n l key value isLru) := by
  obtain ⟨L, h, hl, rfl⟩ := h
  rcases Rep.live_or_absent m L key with ⟨A, e, B, rfl, rfl⟩ | hk
  · exact h.sim_put hl value isLru
  · obtain ⟨m', hm', hs⟩ := h.sim_addEntry hl hk value
    refine ⟨m', ?_, ?_⟩
    · rw [LruHashMap.put, h.find_absent hk]
      exact hm'
    · rw [Ref.put, if_neg (not_exists_pair hk)]
      exact hs

/-! ## The queries -/

theorem latestLoop_spec {l : List (Slot n)} {h e : Idx n} (hc : Chain m.before h l e) {k : ℕ}
    (hk : k ≤ l.length) : m.latestLoop k h = some (l.take k) := by
  induction l generalizing h k with
  | nil =>
    rw [Nat.le_zero.mp hk]
    rfl
  | cons x l ih =>
    obtain ⟨rfl, hc⟩ := hc
    cases k with
    | zero => rfl
    | succ k =>
      rw [LruHashMap.latestLoop, ih hc (by simpa using hk)]
      rfl

theorem Rep.getLatestNode {T : Type} (h : Rep code m L) (field : Slot n → T) :
    m.getLatestNode field = some (L.getLast?.map field) := by
  rw [LruHashMap.getLatestNode, h.nodeNum]
  rcases List.eq_nil_or_concat' L with rfl | ⟨L, x, rfl⟩
  · rfl
  · have hb := h.access.reverse.chain
    rw [List.reverse_append] at hb
    rw [if_neg (by simp; omega), hb.1]
    simp

theorem Rep.getLatestNKeyValue (h : Rep code m L) (hne : L ≠ []) (num : ℕ) :
    m.getLatestNKeyValue num = some (true, ((min num L.length : ℕ) : ℤ),
      (L.map m.pair).reverse.take (min num L.length)) := by
  have hpos : 0 < L.length := List.length_pos_iff.mpr hne
  have hnum : (if (num : ℤ) > L.length then (L.length : ℤ) else num) = (min num L.length : ℕ) := by
    split <;> omega
  rw [LruHashMap.getLatestNKeyValue, h.nodeNum, if_neg (by omega)]
  simp only [hnum]
  rw [Int.toNat_natCast, latestLoop_spec h.access.reverse.chain (by simp), Option.map_some,
    ← List.map_reverse, ← List.map_take]
  rfl

theorem Sim.getFutureRemoveKey {p : K × V} {l : List (K × V)} (h : Sim code m (p :: l)) : m.getFutureRemoveKey = some p := by
  obtain ⟨L, h, -, hL⟩ := h
  cases L with
  | nil => cases hL
  | cons x L =>
    obtain ⟨rfl, -⟩ := List.cons.inj hL
    have hx : m.after m.header = some x := h.access.chain.1
    rw [LruHashMap.getFutureRemoveKey, hx]
    rfl

/-! ## Sequences of calls -/

/-- **One call.** -/
theorem step_sim {l l' : List (K × V)} (h : Sim code m l) {op : Op K V} {r : Res K V}
    (hs : Ref.step n l op = some (r, l')) : ∃ m', m.step code op = some (r, m') ∧ Sim code m' l' := by
  obtain ⟨L, hrep, hl, hL⟩ := h
  have h : Sim code m l := ⟨L, hrep, hl, hL⟩
  have hlen : l.length = L.length := by rw [hL, List.length_map]
  cases op with
  | put k v lru =>
    cases hs
    obtain ⟨m', hm', hs⟩ := h.put k v lru
    exact ⟨m', by rw [LruHashMap.step, hm']; rfl, hs⟩
  | get k lru =>
    cases hs
    obtain ⟨m', hm', -, hs⟩ := h.get k lru
    exact ⟨m', by rw [LruHashMap.step, hm']; rfl, hs⟩
  | getRef k lru =>
    cases hs
    obtain ⟨m', -, hm', hs⟩ := h.get k lru
    obtain ⟨r, hr, he⟩ := Option.map_eq_some_iff.mp hm'
    obtain ⟨h1, rfl⟩ := Prod.mk.inj he
    exact ⟨_, by rw [LruHashMap.step, hr, Option.map_some, h1], hs⟩
  | remove k =>
    cases hs
    obtain ⟨m', hm', hs⟩ := h.remove k
    exact ⟨m', by rw [LruHashMap.step, hm']; rfl, hs⟩
  | reset =>
    cases hs
    obtain ⟨hb, hr⟩ := hrep.reset
    exact ⟨_, by rw [LruHashMap.step, hb], [], hr, Nat.zero_le n, rfl⟩
  | getSize =>
    cases hs
    exact ⟨m, by rw [LruHashMap.step, LruHashMap.getSize, hrep.nodeNum, hlen], h⟩
  | isFull =>
    cases hs
    refine ⟨m, ?_, h⟩
    rw [LruHashMap.step, LruHashMap.isFull, hrep.nodeNum, hlen]
    simp
  | getLatestNodeKey =>
    cases hs
    refine ⟨m, ?_, h⟩
    rw [LruHashMap.step, LruHashMap.getLatestNodeKey, hrep.getLatestNode, hL, List.getLast?_map,
      Option.map_map]
    rfl
  | getLatestNodeValue =>
    cases hs
    refine ⟨m, ?_, h⟩
    rw [LruHashMap.step, LruHashMap.getLatestNodeValue, hrep.getLatestNode, hL, List.getLast?_map,
      Option.map_map]
    rfl
  | getLatestNKeyValue num =>
    rw [Ref.step] at hs
    split at hs
    case isTrue hnil =>
      cases hs
      refine ⟨m, ?_, h⟩
      have h0 : L = [] := List.map_eq_nil_iff.mp (hL.symm.trans hnil)
      rw [LruHashMap.step, LruHashMap.getLatestNKeyValue, hrep.nodeNum, h0]
      rfl
    case isFalse hnil =>
      cases hs
      refine ⟨m, ?_, h⟩
      have h0 : L ≠ [] := fun h0 => hnil (hL.trans (List.map_eq_nil_iff.mpr h0))
      rw [LruHashMap.step, hrep.getLatestNKeyValue h0, hlen, hL]
      rfl
  | getFutureRemoveKey =>
    obtain ⟨p, hp, he⟩ := Option.map_eq_some_iff.mp hs
    obtain ⟨rfl, rfl⟩ := Prod.mk.inj he
    obtain ⟨l₁, rfl⟩ := List.head?_eq_some_iff.mp hp
    exact ⟨m, by rw [LruHashMap.step, h.getFutureRemoveKey]; rfl, h⟩

/-- **A sequence of calls.** -/
theorem exec_sim {l l' : List (K × V)} (h : Sim code m l) {ops : List (Op K V)} {rs : List (Res K V)}
    (hs : Ref.exec n l ops = some (rs, l')) :
    ∃ m', m.exec code ops = some (rs, m') ∧ Sim code m' l' := by
  induction ops generalizing m l rs with
  | nil =>
    cases hs
    exact ⟨m, rfl, h⟩
  | cons op ops ih =>
    rw [Ref.exec] at hs
    obtain ⟨⟨r, l₁⟩, h₁, hs⟩ := Option.bind_eq_some_iff.mp hs
    obtain ⟨⟨rs', l₂⟩, h₂, hs⟩ := Option.bind_eq_some_iff.mp hs
    cases hs
    obtain ⟨m₁, hm₁, h⟩ := step_sim h h₁
    obtain ⟨m₂, hm₂, h⟩ := ih h h₂
    refine ⟨m₂, ?_, h⟩
    rw [LruHashMap.exec, hm₁]
    simp [hm₂]

theorem ref_exec_append {l l₁ l₂ : List (K × V)} {ops ops' : List (Op K V)} {rs rs' : List (Res K V)}
    (h : Ref.exec n l ops = some (rs, l₁)) (h' : Ref.exec n l₁ ops' = some (rs', l₂)) :
    Ref.exec n l (ops ++ ops') = some (rs ++ rs', l₂) := by
  induction ops generalizing l rs with
  | nil =>
    cases h
    exact h'
  | cons op ops ih =>
    rw [Ref.exec] at h
    obtain ⟨⟨r, l₃⟩, h₁, h⟩ := Option.bind_eq_some_iff.mp h
    obtain ⟨⟨rs'', l₄⟩, h₂, h⟩ := Option.bind_eq_some_iff.mp h
    cases h
    rw [List.cons_append, Ref.exec, h₁]
    simp [ih h₂]

/-- **The results of a map are those of the reference list**, for every sequence of calls after `Init`;
what follows a `Reset` returns what it returns on a new map. -/
theorem exec_eq_ref (code : K → UInt32) {n : ℕ} {key : Slot n → K} {value : Slot n → V}
    {m : LruHashMap n K V} (hm : LruHashMap.init n key value = some m) {ops : List (Op K V)}
    {rs : List (Res K V)} {l : List (K × V)} (h : Ref.exec n [] ops = some (rs, l)) :
    (∃ m', m.exec code ops = some (rs, m')) ∧
      ∀ ops' rs' l', Ref.exec n [] ops' = some (rs', l') →
        (∃ m', m.exec code ops' = some (rs', m')) ∧
        ∃ m', m.exec code (ops ++ .reset :: ops') = some (rs ++ .bool true :: rs', m') := by
  have h₀ : Sim code m [] := ⟨[], init_rep hm, Nat.zero_le n, rfl⟩
  obtain ⟨m₁, hm₁, -⟩ := exec_sim h₀ h
  refine ⟨⟨m₁, hm₁⟩, fun ops' rs' l' h' => ?_⟩
  obtain ⟨m₂, hm₂, -⟩ := exec_sim h₀ h'
  have hreset : Ref.exec n l (.reset :: ops') = some (.bool true :: rs', l') := by
    simp [Ref.exec, Ref.step, h']
  obtain ⟨m₃, hm₃, -⟩ := exec_sim h₀ (ref_exec_append h hreset)
  exact ⟨⟨m₂, hm₂⟩, m₃, hm₃⟩

/-- Two keys in a map for one. -/
theorem exec_eq_ref_one : ∃ m m' : LruHashMap 1 ℕ ℕ,
    LruHashMap.init 1 (fun _ => 0) (fun _ => 0) = some m ∧
      m.exec Nat.toUInt32 [.put 1 10 true, .put 2 20 true, .get 1 true, .getFutureRemoveKey, .remove 2] =
        some ([.bool true, .bool true, .value none, .pair (2, 20), .bool true], m') := by
  have hinit : (LruHashMap.init 1 (fun _ => 0) (fun _ => 0) : Option (LruHashMap 1 ℕ ℕ)).isSome := by
    decide +kernel
  have href : Ref.exec 1 ([] : List (ℕ × ℕ))
      [.put 1 10 true, .put 2 20 true, .get 1 true, .getFutureRemoveKey, .remove 2] =
        some ([.bool true, .bool true, .value none, .pair (2, 20), .bool true], []) := by
    decide +kernel
  obtain ⟨m, hm⟩ := Option.isSome_iff_exists.mp hinit
  obtain ⟨m', hm'⟩ := (exec_eq_ref Nat.toUInt32 hm href).1
  exact ⟨m, m', hm, hm'⟩

end Backend.Lru
