import Backend.Lru.Refine

/-!
# `GetFutureRemoveKey` and the entry that `Put` removes

`GetFutureRemoveKey` reads the entry behind the header before a `Put`; `AddEntry` reads it after the new entry has been
linked in, and removes it by its key. Unlike `GetLatestNodeKey`, `GetFutureRemoveKey` does not ask whether the map is
empty: then the entry behind the header is the header.

* `LruHashMap.lookup`, `Predicts`: the pair that is returned is that of the entry that goes;
* `Sim.lookup`, `lookup_put_full`: the reference list;
* `step_sim_any`, `exec_sim_any`: every call keeps the map and its list in step;
* **`predicts_iff`**: after any calls, the prediction is right if and only if the map is not empty.
-/

set_option autoImplicit false
set_option linter.unusedSectionVars false

namespace Backend.Lru

variable {n : ℕ} {K V : Type} [DecidableEq K] (code : K → UInt32)

/-- What `Get` copies; `some none` is the return value `false`. -/
def LruHashMap.lookup (m : LruHashMap n K V) (isLru : Bool) (key : K) : Option (Option V) :=
  (m.get code key isLru).map Prod.fst

/-- `GetFutureRemoveKey` returns a key that is in the map, with the value that `Get` returns for it. If `IsFull`, the
next `Put` of an absent key removes this key and no other. -/
def Predicts (m : LruHashMap n K V) : Prop :=
  ∃ p, m.getFutureRemoveKey = some p ∧ (∀ isLru, m.lookup code isLru p.1 = some (some p.2)) ∧
    (m.isFull = true → ∀ key value isLru, m.lookup code false key = some none →
      ∃ m', m.put code key value isLru = some (true, m') ∧ ∀ k, m'.lookup code false k =
        if k = key then some (some value) else if k = p.1 then some none else m.lookup code false k)

variable {code} {m : LruHashMap n K V} {l : List (K × V)}

/-! ## The reference list -/

theorem Sim.lookup (h : Sim code m l) (isLru : Bool) (key : K) :
    m.lookup code isLru key = some ((l.find? fun p => p.1 = key).map Prod.snd) := by
  obtain ⟨m', he, -⟩ := h.get key isLru
  rw [LruHashMap.lookup, he, Option.map_some]

theorem Sim.nodeNum (h : Sim code m l) : m.nodeNum = l.length ∧ l.length ≤ n := by
  obtain ⟨L, h, hl, rfl⟩ := h
  rw [List.length_map]
  exact ⟨h.nodeNum, hl⟩

theorem Sim.key_ne {p : K × V} (h : Sim code m (p :: l)) : ∀ q ∈ l, q.1 ≠ p.1 := by
  obtain ⟨L, h, -, hL⟩ := h
  cases L with
  | nil => cases hL
  | cons x L =>
    obtain ⟨rfl, rfl⟩ := List.cons.inj hL
    intro q hq
    obtain ⟨y, hy, rfl⟩ := List.mem_map.mp hq
    exact Rep.key_ne (A := []) h hy

theorem find?_eq_none_of_ne {key : K} (h : ∀ q ∈ l, q.1 ≠ key) : l.find? (fun p => p.1 = key) = none :=
  List.find?_eq_none.mpr fun q hq => by simpa using h q hq

theorem lookup_put_full {p : K × V} {key : K} (value : V) (hp : ∀ q ∈ l, q.1 ≠ p.1)
    (hkey : ∀ q ∈ p :: l, q.1 ≠ key) (k : K) :
    ((l ++ [(key, value)]).find? fun q => q.1 = k).map Prod.snd =
      if k = key then some value else if k = p.1 then none else ((p :: l).find? fun q => q.1 = k).map Prod.snd := by
  rw [List.find?_append]
  split_ifs with h₁ h₂
  · rw [h₁, find?_eq_none_of_ne fun q hq => hkey q (List.mem_cons_of_mem p hq)]
    simp
  · rw [h₂, find?_eq_none_of_ne hp]
    simpa [h₂] using fun h => h₁ (h₂.trans h.symm)
  · have hne : ¬ p.1 = k := fun h => h₂ h.symm
    have hne' : ¬ key = k := fun h => h₁ h.symm
    simp [hne, hne']

/-- **The prediction is right in a map that is not empty.** -/
theorem Sim.predicts {p : K × V} (h : Sim code m (p :: l)) : Predicts code m := by
  refine ⟨p, h.getFutureRemoveKey, fun isLru => ?_, fun hfull key value isLru hkey => ?_⟩
  · rw [h.lookup, List.find?_cons_of_pos (by simp), Option.map_some]
  · rw [h.lookup, Option.some.injEq, Option.map_eq_none_iff, List.find?_eq_none] at hkey
    have habsent : ∀ q ∈ p :: l, q.1 ≠ key := fun q hq => by simpa using hkey q hq
    obtain ⟨m', he, hs⟩ := h.put key value isLru
    -- a full list has `n` pairs
    have hlen : (p :: l ++ [(key, value)]).length > n := by
      have hn : (n : ℤ) ≤ m.nodeNum := of_decide_eq_true hfull
      rw [h.nodeNum.1] at hn
      rw [List.length_append, List.length_singleton]
      omega
    have hnone : ¬ ∃ q ∈ p :: l, q.1 = key := by
      rintro ⟨q, hq, hqk⟩
      exact habsent q hq hqk
    rw [Ref.put, if_neg hnone, if_pos hlen, List.cons_append, List.tail_cons] at hs
    refine ⟨m', he, fun k => ?_⟩
    rw [hs.lookup, h.lookup, lookup_put_full value h.key_ne habsent]
    split_ifs <;> rfl

theorem Sim.predicts_iff_nodeNum (h : Sim code m l) : Predicts code m ↔ m.nodeNum ≠ 0 := by
  rw [h.nodeNum.1]
  cases l with
  | nil =>
    refine iff_of_false ?_ (by simp)
    rintro ⟨p, -, hp, -⟩
    have := hp true
    rw [h.lookup] at this
    cases this
  | cons p l => exact iff_of_true h.predicts (by simp; omega)

/-! ## Sequences of calls -/

theorem step_sim_any (h : Sim code m l) (op : Op K V) :
    ∃ r m' l', m.step code op = some (r, m') ∧ Sim code m' l' := by
  cases hs : Ref.step n l op with
  | some r =>
    obtain ⟨m', he, h'⟩ := step_sim h hs
    exact ⟨r.1, m', r.2, he, h'⟩
  | none =>
    obtain ⟨rfl, rfl⟩ := ref_step_eq_none.mp hs
    obtain ⟨L, hrep, -, hL⟩ := h
    have hnil : L = [] := List.map_eq_nil_iff.mp hL.symm
    subst hnil
    have hx : m.after m.header = some m.header := hrep.access.chain
    refine ⟨.pair (m.key m.header, m.value m.header), m, [], ?_, [], hrep, Nat.zero_le n, rfl⟩
    rw [LruHashMap.step, LruHashMap.getFutureRemoveKey, hx]
    rfl

theorem exec_sim_any (h : Sim code m l) (ops : List (Op K V)) :
    ∃ rs m' l', m.exec code ops = some (rs, m') ∧ Sim code m' l' := by
  induction ops generalizing m l with
  | nil => exact ⟨[], m, l, rfl, h⟩
  | cons op ops ih =>
    obtain ⟨r, m₁, l₁, h₁, hs₁⟩ := step_sim_any h op
    obtain ⟨rs, m₂, l₂, h₂, hs₂⟩ := ih hs₁
    refine ⟨r :: rs, m₂, l₂, ?_, hs₂⟩
    rw [LruHashMap.exec, h₁]
    simp [h₂]

/-- **After any calls, `GetFutureRemoveKey` predicts the entry that goes** if and only if the map is not empty. -/
theorem predicts_iff (code : K → UInt32) {n : ℕ} {key : Slot n → K} {value : Slot n → V} {m : LruHashMap n K V}
    (hm : LruHashMap.init n key value = some m) (ops : List (Op K V)) :
    ∃ rs m', m.exec code ops = some (rs, m') ∧ (Predicts code m' ↔ m'.nodeNum ≠ 0) := by
  have h₀ : Sim code m [] := ⟨[], init_rep hm, Nat.zero_le n, rfl⟩
  obtain ⟨rs, m', l, he, hs⟩ := exec_sim_any h₀ ops
  exact ⟨rs, m', he, hs.predicts_iff_nodeNum⟩

/-- A map for one key, after two calls. -/
theorem predicts_iff_one : ∃ m : LruHashMap 1 ℕ ℕ, LruHashMap.init 1 (fun _ => 0) (fun _ => 0) = some m ∧
    ∃ rs m', m.exec Nat.toUInt32 [.put 1 10 true, .put 2 20 true] = some (rs, m') ∧
      (Predicts Nat.toUInt32 m' ↔ m'.nodeNum ≠ 0) := by
  have hinit : (LruHashMap.init 1 (fun _ => 0) (fun _ => 0) : Option (LruHashMap 1 ℕ ℕ)).isSome := by
    decide +kernel
  obtain ⟨m, hm⟩ := Option.isSome_iff_exists.mp hinit
  exact ⟨m, hm, predicts_iff Nat.toUInt32 hm _⟩

/-- On a new map `GetFutureRemoveKey` returns the key of the header, which is not in the map. -/
theorem empty_not_predicted : ∃ m : LruHashMap 1 ℕ ℕ, LruHashMap.init 1 (fun _ => 0) (fun _ => 0) = some m ∧
    m.getFutureRemoveKey = some (0, 0) ∧ m.lookup Nat.toUInt32 true 0 = some none ∧ ¬ Predicts Nat.toUInt32 m := by
  have hinit : ((LruHashMap.init 1 (fun _ => 0) (fun _ => 0) : Option (LruHashMap 1 ℕ ℕ)).map fun m =>
      (m.getFutureRemoveKey, m.lookup Nat.toUInt32 true 0)) = some (some (0, 0), some none) := by
    decide +kernel
  obtain ⟨m, hm, he⟩ := Option.map_eq_some_iff.mp hinit
  obtain ⟨hkey, hget⟩ := Prod.mk.inj he
  refine ⟨m, hm, hkey, hget, ?_⟩
  rintro ⟨p, hp, hlookup, -⟩
  obtain rfl := Option.some.inj (hkey.symm.trans hp)
  exact absurd (hget.symm.trans (hlookup true)) (by decide)

end Backend.Lru
