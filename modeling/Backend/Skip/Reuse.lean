import Backend.Skip.Refine

/-!
# `SkipList`: `Release` and a second `Init`

`Init` allocates a header and sets `m_head`, `Release` frees the nodes along the level-`0` chain and clears
`m_head`; neither sets `m_size`.

* `SkipList.initOn`, `init_eq_initOn`: `Init` on any object;
* `releaseLoop`, `SkipList.release`, `Sim.release`: `Release` frees live nodes only;
* `SameAsNew`, **`sameAsNew_iff`**: the second life is that of a new list if and only if `m_size` was `0`.
-/

set_option autoImplicit false

namespace Backend.Skip

open Function

section

variable {K V : Type}

/-- The constructor, with the keys and values that memory holds. -/
def SkipList.new (key : ℕ → K) (value : ℕ → V) : SkipList K V :=
  { key := key, value := value, level := fun _ => 0, forward := fun _ _ => none, live := fun _ => false
    top := 0, head := none, size := 0 }

/-- `Init` on any object. -/
def SkipList.initOn (s : SkipList K V) : SkipList K V :=
  { s with level := update s.level s.top (maxSkipLevel - 1)
           forward := fun i => if i < maxSkipLevel then update (s.forward i) s.top none else s.forward i
           live := update s.live s.top true, top := s.top + 1, head := some s.top }

/-- The loop of `Release`. -/
def SkipList.releaseLoop : ℕ → Option ℕ → SkipList K V → Option (SkipList K V)
  | 0, _, _ => none
  | _ + 1, none, s => some s
  | fuel + 1, some cur, s => do
    let next ← s.forward? 0 cur
    SkipList.releaseLoop fuel next { s with live := update s.live cur false }

/-- `Release`. -/
def SkipList.release (s : SkipList K V) : Option (SkipList K V) := do
  let s ← SkipList.releaseLoop (s.top + 1) s.head s
  some { s with head := none }

theorem init_eq_initOn (key : ℕ → K) (value : ℕ → V) :
    SkipList.init key value = (SkipList.new key value).initOn := by
  have hforward : (fun i => if i < maxSkipLevel then update (fun _ : ℕ => (none : Option ℕ)) 0 none
      else fun _ => none) = fun _ _ => none := by
    funext i a
    split
    · rw [update_apply, ite_self]
    · rfl
  simp only [SkipList.initOn, SkipList.new, hforward]
  rfl

theorem releaseLoop_spec {s : SkipList K V} {h : Option ℕ} {l : List ℕ} {fuel : ℕ}
    (hc : Chain (s.forward 0) h l none) (hlive : ∀ a ∈ l, s.live a = true) (hn : l.Nodup)
    (hf : l.length < fuel) : ∃ live, SkipList.releaseLoop fuel h s = some { s with live := live } := by
  induction l generalizing h fuel s with
  | nil =>
    obtain ⟨fuel, rfl⟩ : ∃ n, fuel = n + 1 := ⟨fuel - 1, by omega⟩
    rw [chain_nil.mp hc]
    exact ⟨s.live, rfl⟩
  | cons a l ih =>
    obtain ⟨fuel, rfl⟩ : ∃ n, fuel = n + 1 := ⟨fuel - 1, by omega⟩
    obtain ⟨rfl, hc⟩ := hc
    obtain ⟨hal, hn⟩ := List.nodup_cons.mp hn
    have ha : s.forward? 0 a = some (s.forward 0 a) := if_pos (hlive a List.mem_cons_self)
    obtain ⟨live, hr⟩ := ih (s := { s with live := update s.live a false }) hc
      (fun b hb => (update_of_ne (ne_of_mem_of_not_mem hb hal) ..).trans
        (hlive b (List.mem_cons_of_mem _ hb))) hn
      (show l.length < fuel by rw [List.length_cons] at hf; omega)
    refine ⟨live, ?_⟩
    rw [SkipList.releaseLoop, ha]
    exact hr

end

variable {K V : Type} [LinearOrder K] {s : SkipList K V} {h : ℕ} {L : ℕ → List ℕ}
  {f : Finmap fun _ : K => V}

/-- **`Release`** of any list succeeds and keeps `m_size`. -/
theorem Sim.release (hs : Sim s h L f) : ∃ s', s.release = some s' ∧ s'.size = s.size := by
  have hlen := hs.layers.length_lt (i := 0) (by decide)
  obtain ⟨live, hr⟩ := releaseLoop_spec (hs.layers.chain 0 (by decide)) hs.layers.live
    hs.layers.nodup (show (h :: L 0).length < s.top + 1 by rw [List.length_cons]; omega)
  refine ⟨{ s with live := live, head := none }, ?_, rfl⟩
  rw [SkipList.release, hs.layers.head, hr]
  rfl

theorem initOn_sim (s : SkipList K V) (hsize : s.size = 0) : Sim s.initOn s.top (fun _ => []) ∅ where
  layers := by
    constructor
    case head => rfl
    case level => exact update_self ..
    case chain =>
      intro i hi
      refine ⟨rfl, ?_⟩
      simp only [SkipList.initOn, if_pos hi, update_self]
      exact chain_nil.mpr rfl
    case nest => exact fun _ _ => List.Sublist.refl _
    case sorted => exact List.Pairwise.nil
    case live =>
      intro a ha
      rw [List.mem_singleton.mp ha]
      exact update_self ..
    case lt_top =>
      intro a ha
      rw [List.mem_singleton.mp ha]
      exact Nat.lt_succ_self _
    case header => exact List.not_mem_nil
  size := by
    rw [Finmap.keys_empty, Finset.card_empty]
    exact hsize
  mem k := by simp [Finmap.notMem_empty]
  lookup a ha := by cases ha

/-- After `Release` and `Init` every sequence of calls returns what it returns on a new list. -/
def SameAsNew (s : SkipList K V) : Prop :=
  ∃ s', s.release = some s' ∧ ∀ key value calls,
    (s'.initOn.exec calls).map Prod.fst = ((SkipList.init key value).exec calls).map Prod.fst

/-- **The second life of a list.** -/
theorem sameAsNew_iff (hs : Sim s h L f) : SameAsNew s ↔ s.size = 0 := by
  obtain ⟨s', hr, hsize⟩ := hs.release
  constructor
  · rintro ⟨s'', hr', hall⟩
    obtain rfl := Option.some.inj (hr.symm.trans hr')
    have hres := hall s.key s.value [(.getSize, fun _ => 0)]
    simp only [SkipList.exec, SkipList.step, SkipList.getSize, Option.bind_eq_bind, Option.bind_some,
      Option.map_some, Option.some.injEq, List.cons.injEq, Res.size.injEq, and_true] at hres
    rw [← hsize]
    exact hres
  · intro h0
    refine ⟨s', hr, fun key value calls => ?_⟩
    obtain ⟨t, _, ht, -⟩ := exec_sim (initOn_sim s' (hsize.trans h0)) calls
    obtain ⟨t', _, ht', -⟩ := exec_sim (init_sim key value) calls
    rw [ht, ht']
    rfl

end Backend.Skip
