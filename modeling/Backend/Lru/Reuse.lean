import Backend.Lru.Refine

/-!
# `LruHashMap`: `Release` and a second `Init`

`Release` frees the queue, the array and the table. `Init` sets all fields but `m_node_num`, which only the
constructor, `Reset`, `AddEntry` and `Remove` set.

* `Bare`, `Bare.new`, `LruHashMap.release`: an object without memory;
* `Bare.init`, `init_eq_bare`: `Init` on such an object;
* `SameAsNew`, **`sameAsNew_iff`**: the second life is that of a new map if and only if `m_node_num` was `0`.
-/

set_option autoImplicit false

namespace Backend.Lru

open Function

variable {n n₁ : ℕ} {K V : Type}

/-- An object whose pointers are null. -/
structure Bare where
  maxEntries : ℕ
  tableSize : ℕ
  nodeNum : ℤ

/-- The constructor. -/
def Bare.new : Bare := ⟨0, 0, 0⟩

/-- `Release`. -/
def LruHashMap.release (m : LruHashMap n K V) : Bare := ⟨n, tableSize n, m.nodeNum⟩

/-- `Init(n)` on any object: it writes what it writes to a new one, that is all fields but `m_node_num`. -/
def Bare.init (b : Bare) (n : ℕ) (key : Slot n → K) (value : Slot n → V) : Option (LruHashMap n K V) :=
  (LruHashMap.init n key value).map fun m => { m with nodeNum := b.nodeNum }

theorem init_isSome (hn : 0 < n) (hlt : n + 2 < 2 ^ 31) (key : Slot n → K) (value : Slot n → V) :
    ∃ m, LruHashMap.init n key value = some m ∧ m.nodeNum = 0 := by
  obtain ⟨q, hq, -, -⟩ := pushAll_pop (q := EntryQueue.init (some (0 : Slot n)) (n + 2)) rfl rfl rfl
  rw [LruHashMap.init, if_neg (by omega), hq]
  exact ⟨_, rfl, rfl⟩

theorem init_eq_bare (hn : 0 < n) (hlt : n + 2 < 2 ^ 31) (key : Slot n → K) (value : Slot n → V) :
    Bare.new.init n key value = LruHashMap.init n key value := by
  obtain ⟨m, hm, hnum⟩ := init_isSome hn hlt key value
  have hself : { m with nodeNum := 0 } = m := by rw [← hnum]
  rw [Bare.init, hm, Option.map_some]
  exact congrArg some hself

variable [DecidableEq K] (code : K → UInt32)

/-- After `Release` and `Init(n)` every sequence of calls returns what it returns on a new map. -/
def SameAsNew (n : ℕ) (m : LruHashMap n₁ K V) : Prop :=
  ∀ (key : Slot n → K) (value : Slot n → V), ∃ t t₀, m.release.init n key value = some t ∧
    LruHashMap.init n key value = some t₀ ∧
      ∀ ops, (t.exec code ops).map Prod.fst = (t₀.exec code ops).map Prod.fst

/-- **The second life of a map.** -/
theorem sameAsNew_iff (m : LruHashMap n₁ K V) (hn : 0 < n) (hlt : n + 2 < 2 ^ 31) :
    SameAsNew code n m ↔ m.nodeNum = 0 := by
  constructor
  · intro hall
    obtain ⟨t, t₀, ht, ht₀, hres⟩ := hall (fun _ => m.key m.header) (fun _ => m.value m.header)
    obtain ⟨t₁, ht₁, hnum⟩ := init_isSome hn hlt (fun _ => m.key m.header) (fun _ => m.value m.header)
    rw [Bare.init, ht₁] at ht
    rw [ht₁] at ht₀
    cases ht
    cases ht₀
    have hsize := hres [.getSize]
    simp only [LruHashMap.exec, LruHashMap.step, LruHashMap.getSize, Option.bind_eq_bind,
      Option.bind_some, Option.map_some, Option.some.injEq, List.cons.injEq, Res.size.injEq,
      and_true] at hsize
    exact hsize.trans hnum
  · intro h0 key value
    have heq : m.release.init n key value = Bare.new.init n key value := by
      simp only [Bare.init, LruHashMap.release, Bare.new, h0]
    obtain ⟨t, ht, -⟩ := init_isSome hn hlt key value
    exact ⟨t, t, heq.trans ((init_eq_bare hn hlt key value).trans ht), ht, fun _ => rfl⟩

end Backend.Lru
