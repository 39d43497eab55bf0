import Backend.Lib.Map
import Backend.Skip.Layers

/-!
# `SkipList` refines a finite map

Whatever `rand()` returns, every call returns what a finite map returns, where `GetSize` is the number of
keys as an `int32_t`.

* `Ref.step`, `Ref.exec`: the finite map;
* `Res.asInt32`, `Layered`: results of the type of the code, the chains of the levels;
* `Sim`, `Sim.find`, `Sim.insert`, `Sim.delete`, **`exec_sim`**: the simulation;
* **`exec_eq_finmap`**: the results of a list are those of the map, for all levels drawn;
* **`getSize_overflow`**: `2 ^ 31` keys.
-/

set_option autoImplicit false
set_option linter.unusedSectionVars false

namespace Backend.Skip

open Function

variable {K V : Type} [LinearOrder K]

/-! ## The finite map -/

/-- One call on the map. -/
def Ref.step (f : Finmap fun _ : K => V) : Op K V → Res V × Finmap fun _ : K => V
  | .insert k v => (.bool true, f.insert k v)
  | .delete k => (.bool (decide (k ∈ f)), f.erase k)
  | .find k => (.value (f.lookup k), f)
  | .getSize => (.size f.keys.card, f)

/-- A sequence of calls on the map. -/
def Ref.exec : (Finmap fun _ : K => V) → List (Op K V) → List (Res V) × Finmap fun _ : K => V
  | f, [] => ([], f)
  | f, op :: ops =>
    let r := Ref.step f op
    let t := Ref.exec r.2 ops
    (r.1 :: t.1, t.2)

/-- A size as an `int32_t`. -/
def Res.asInt32 : Res V → Res V
  | .size k => .size (i32 k)
  | r => r

/-- The level-`0` chain lists the keys of `f` in increasing order, and each chain is a subsequence of
the one below it. -/
def Layered (s : SkipList K V) (f : Finmap fun _ : K => V) : Prop :=
  ∃ (h : ℕ) (L : ℕ → List ℕ), s.head = some h ∧
    (∀ i < maxSkipLevel, Chain (s.forward i) (s.forward i h) (L i) none) ∧
    ((L 0).map s.key).Pairwise (· < ·) ∧ ((L 0).map s.key).toFinset = f.keys ∧
    ∀ i, i + 1 < maxSkipLevel → (L (i + 1)).Sublist (L i)

/-! ## The simulation -/

/-- The list holds the map `f`. -/
structure Sim (s : SkipList K V) (h : ℕ) (L : ℕ → List ℕ) (f : Finmap fun _ : K => V) : Prop where
  layers : Layers s h L
  size : s.size = i32 f.keys.card
  mem : ∀ k, k ∈ f ↔ ∃ a ∈ L 0, s.key a = k
  lookup : ∀ a ∈ L 0, f.lookup (s.key a) = some (s.value a)

variable {s : SkipList K V} {h : ℕ} {L : ℕ → List ℕ} {f : Finmap fun _ : K => V}

theorem Sim.layered (hs : Sim s h L f) : Layered s f := by
  refine ⟨h, L, hs.layers.head, fun i hi => (hs.layers.chain i hi).2,
    List.pairwise_map.mpr hs.layers.sorted, ?_, hs.layers.nest⟩
  ext k
  rw [List.mem_toFinset, List.mem_map, Finmap.mem_keys, hs.mem]

theorem init_sim (key : ℕ → K) (value : ℕ → V) : Sim (SkipList.init key value) 0 (fun _ => []) ∅ where
  layers := by
    constructor
    case head => rfl
    case level => simp [SkipList.init]
    case chain => exact fun i _ => ⟨rfl, rfl⟩
    case nest => exact fun _ _ => List.Sublist.refl _
    case sorted => exact List.Pairwise.nil
    case live =>
      intro a ha
      rw [List.mem_singleton.mp ha]
      simp [SkipList.init]
    case lt_top =>
      intro a ha
      rw [List.mem_singleton.mp ha]
      exact Nat.one_pos
    case header => exact List.not_mem_nil
  size := by
    rw [Finmap.keys_empty, Finset.card_empty]
    rfl
  mem k := by simp [Finmap.notMem_empty]
  lookup a ha := by cases ha

theorem Sim.find (hs : Sim s h L f) (k : K) : s.find k = some (f.lookup k) := by
  by_cases hk : k ∈ f
  · obtain ⟨a, ha, rfl⟩ := (hs.mem k).mp hk
    obtain ⟨upd, hl, -, hne, hkey⟩ := locate_mem hs.layers ha
    simp [SkipList.find, hs.layers.head, hl, hkey, hne, hs.lookup a ha]
  · obtain ⟨c, upd, hl, -, hkey, hnot⟩ := locate_absent hs.layers (k := k) fun a ha he =>
      hk ((hs.mem k).mpr ⟨a, ha, he⟩)
    rw [Finmap.lookup_eq_none.mpr hk]
    simp only [SkipList.find, hs.layers.head, hl, hkey, Option.bind_eq_bind, Option.bind_some,
      if_neg hnot]

theorem i32_succ (x : ℤ) : i32 (i32 x + 1) = i32 (x + 1) := Int.bmod_add_bmod

theorem i32_pred (x : ℤ) : i32 (i32 x - 1) = i32 (x - 1) := Int.bmod_sub_bmod

theorem Sim.insert_mem (hs : Sim s h L f) {a : ℕ} (ha : a ∈ L 0) (v : V) (rand : ℕ → ℕ) :
    ∃ s', s.insert (s.key a) v rand = some (true, s') ∧ Sim s' h L (f.insert (s.key a) v) := by
  obtain ⟨upd, hl, -, hne, hkey⟩ := locate_mem hs.layers ha
  have hmem : s.key a ∈ f := (hs.mem _).mpr ⟨a, ha, rfl⟩
  refine ⟨{ s with value := update s.value a v }, ?_, ?_, ?_, fun k => ?_, fun b hb => ?_⟩
  · simp [SkipList.insert, hs.layers.head, hl, hkey, hne]
  · exact ⟨hs.layers.head, hs.layers.level, hs.layers.chain, hs.layers.nest, hs.layers.sorted,
      hs.layers.live, hs.layers.lt_top, hs.layers.header⟩
  · rw [card_insert_of_mem hmem]
    exact hs.size
  · rw [Finmap.mem_insert, or_iff_right_of_imp fun he => he ▸ hmem]
    exact hs.mem k
  · change (f.insert (s.key a) v).lookup (s.key b) = some (update s.value a v b)
    by_cases hba : b = a
    · rw [hba, update_self, Finmap.lookup_insert]
    · have hkb : s.key b ≠ s.key a := hs.layers.key_ne hb ha hba
      rw [update_of_ne hba, Finmap.lookup_insert_of_ne _ hkb]
      exact hs.lookup b hb

theorem Sim.insert_absent (hs : Sim s h L f) {k : K} (hk : k ∉ f) (v : V) (rand : ℕ → ℕ) :
    ∃ s' L', s.insert k v rand = some (true, s') ∧ Sim s' h L' (f.insert k v) := by
  have habs : ∀ a ∈ L 0, s.key a ≠ k := fun a ha he => hk ((hs.mem k).mpr ⟨a, ha, he⟩)
  obtain ⟨c, upd, hl, hupd, hkey, hnot⟩ := locate_absent hs.layers habs
  have hlive : ∀ j < maxSkipLevel, update s.live s.top true (upd j) = true := by
    intro j hj
    rw [hupd j hj, update_apply, hs.layers.live_prev k hj]
    exact ite_self true
  have hne : ∀ a ∈ L 0, a ≠ s.top := fun a ha => (hs.layers.lt_top a (List.mem_cons_of_mem _ ha)).ne
  have hlayers := hs.layers.link habs hupd v (getLevel rand) (i32 (s.size + 1))
  refine ⟨_, _, ?_, hlayers, ?_, fun x => ?_, fun b hb => ?_⟩
  · simp only [SkipList.insert, hs.layers.head, hl, hkey, Option.bind_eq_bind, Option.bind_some,
      if_neg hnot]
    rw [foldlM_linkLevel (by exact hlive)]
    rfl
  · change i32 (s.size + 1) = _
    rw [card_insert_of_notMem hk, hs.size, i32_succ]
    rfl
  · simp only [if_pos (Nat.zero_le _), mem_cut]
    rw [Finmap.mem_insert, hs.mem]
    constructor
    · rintro (rfl | ⟨a, ha, rfl⟩)
      · exact ⟨s.top, Or.inl rfl, update_self ..⟩
      · exact ⟨a, Or.inr ha, update_of_ne (hne a ha) ..⟩
    · rintro ⟨a, rfl | ha, rfl⟩
      · exact Or.inl (update_self ..)
      · exact Or.inr ⟨a, ha, (update_of_ne (hne a ha) ..).symm⟩
  · simp only [if_pos (Nat.zero_le _), mem_cut] at hb
    change (f.insert k v).lookup (update s.key s.top k b) = some (update s.value s.top v b)
    rcases hb with rfl | hb
    · rw [update_self, update_self, Finmap.lookup_insert]
    · rw [update_of_ne (hne b hb), update_of_ne (hne b hb), Finmap.lookup_insert_of_ne _ (habs b hb)]
      exact hs.lookup b hb

theorem Sim.insert (hs : Sim s h L f) (k : K) (v : V) (rand : ℕ → ℕ) :
    ∃ s' L', s.insert k v rand = some (true, s') ∧ Sim s' h L' (f.insert k v) := by
  by_cases hk : k ∈ f
  · obtain ⟨a, ha, rfl⟩ := (hs.mem k).mp hk
    obtain ⟨s', hs', h'⟩ := hs.insert_mem ha v rand
    exact ⟨s', L, hs', h'⟩
  · exact hs.insert_absent hk v rand

theorem Sim.delete (hs : Sim s h L f) (k : K) :
    ∃ s' L', s.delete k = some (decide (k ∈ f), s') ∧ Sim s' h L' (f.erase k) := by
  by_cases hk : k ∈ f
  · obtain ⟨a, ha, rfl⟩ := (hs.mem k).mp hk
    obtain ⟨upd, hl, hupd, hne, hkey⟩ := locate_mem hs.layers ha
    have hlive : ∀ j < 0 + maxSkipLevel, s.live (upd j) = true := fun j hj => by
      rw [hupd j (by omega)]
      exact hs.layers.live_prev _ (by omega)
    have hloop := unlinkLoop_spec (fun j => a ∈ L j) hlive
      (hs.layers.live a (List.mem_cons_of_mem _ ha))
      (fun j _ hj => by
        rw [hupd j (by omega)]
        exact hs.layers.forward_prev_eq (by omega))
      (fun j _ hj hm => (hs.layers.nest j (by omega)).subset hm)
    refine ⟨_, _, ?_, hs.layers.unlink ha hupd (i32 (s.size - 1)), ?_, fun x => ?_, fun b hb => ?_⟩
    · rw [decide_eq_true hk]
      simp only [SkipList.delete, hs.layers.head, hl, hkey, Option.bind_eq_bind, Option.bind_some,
        hs.layers.level]
      rw [if_pos ⟨hne, trivial⟩, show maxSkipLevel - 1 + 1 = maxSkipLevel from rfl, hloop]
      simp only [Option.bind_some, hs.layers.head]
    · change i32 (s.size - 1) = _
      rw [hs.size, i32_pred, ← card_erase_of_mem hk, Nat.cast_succ, add_sub_cancel_right]
    · rw [Finmap.mem_erase, hs.mem]
      simp only [List.mem_filter, decide_eq_true_eq]
      constructor
      · rintro ⟨hx, b, hb, rfl⟩
        exact ⟨b, ⟨hb, fun he => hx (he ▸ rfl)⟩, rfl⟩
      · rintro ⟨b, ⟨hb, hba⟩, rfl⟩
        exact ⟨hs.layers.key_ne hb ha hba, b, hb, rfl⟩
    · rw [List.mem_filter, decide_eq_true_eq] at hb
      change (f.erase (s.key a)).lookup (s.key b) = some (s.value b)
      rw [Finmap.lookup_erase_ne (hs.layers.key_ne hb.1 ha hb.2)]
      exact hs.lookup b hb.1
  · obtain ⟨c, upd, hl, -, hkey, hnot⟩ := locate_absent hs.layers (k := k) fun a ha he =>
      hk ((hs.mem k).mpr ⟨a, ha, he⟩)
    rw [erase_of_notMem hk]
    refine ⟨s, L, ?_, hs⟩
    rw [decide_eq_false hk]
    simp only [SkipList.delete, hs.layers.head, hl, hkey, Option.bind_eq_bind, Option.bind_some,
      if_neg hnot]

/-! ## Sequences of calls -/

theorem step_sim (hs : Sim s h L f) (rand : ℕ → ℕ) (op : Op K V) :
    ∃ s' L', s.step rand op = some ((Ref.step f op).1.asInt32, s') ∧ Sim s' h L' (Ref.step f op).2 := by
  cases op with
  | insert k v =>
    obtain ⟨s', L', hs', h'⟩ := hs.insert k v rand
    exact ⟨s', L', by rw [SkipList.step, hs']; rfl, h'⟩
  | delete k =>
    obtain ⟨s', L', hs', h'⟩ := hs.delete k
    exact ⟨s', L', by rw [SkipList.step, hs']; rfl, h'⟩
  | find k => exact ⟨s, L, by rw [SkipList.step, hs.find]; rfl, hs⟩
  | getSize => exact ⟨s, L, by rw [SkipList.step, SkipList.getSize, hs.size]; rfl, hs⟩

/-- **A sequence of calls.** -/
theorem exec_sim (hs : Sim s h L f) (calls : List (Op K V × (ℕ → ℕ))) :
    ∃ s' L', s.exec calls = some ((Ref.exec f (calls.map Prod.fst)).1.map Res.asInt32, s') ∧
      Sim s' h L' (Ref.exec f (calls.map Prod.fst)).2 := by
  induction calls generalizing s L f with
  | nil => exact ⟨s, L, rfl, hs⟩
  | cons c calls ih =>
    obtain ⟨s₁, L₁, h₁, hs₁⟩ := step_sim hs c.2 c.1
    obtain ⟨s₂, L₂, h₂, hs₂⟩ := ih hs₁
    refine ⟨s₂, L₂, ?_, hs₂⟩
    rw [SkipList.exec, h₁]
    simp only [Option.bind_eq_bind, Option.bind_some, h₂]
    rfl

theorem card_step_le (f : Finmap fun _ : K => V) (op : Op K V) :
    (Ref.step f op).2.keys.card ≤ f.keys.card + 1 := by
  cases op with
  | insert k v =>
    rw [Ref.step, keys_insert]
    exact Finset.card_insert_le _ _
  | delete k =>
    rw [Ref.step, Finmap.keys_erase]
    exact Finset.card_erase_le.trans (Nat.le_succ _)
  | find k => exact Nat.le_succ _
  | getSize => exact Nat.le_succ _

theorem asInt32_of_lt {f : Finmap fun _ : K => V} {ops : List (Op K V)}
    (hlt : f.keys.card + ops.length < 2 ^ 31) : (Ref.exec f ops).1.map Res.asInt32 = (Ref.exec f ops).1 := by
  induction ops generalizing f with
  | nil => rfl
  | cons op ops ih =>
    rw [List.length_cons] at hlt
    have hcard := card_step_le f op
    have hstep : (Ref.step f op).1.asInt32 = (Ref.step f op).1 := by
      cases op with
      | getSize => exact congrArg Res.size (i32_of_lt (by omega) (by omega))
      | insert k v => rfl
      | delete k => rfl
      | find k => rfl
    rw [Ref.exec, List.map_cons, hstep, ih (by omega)]

/-- **The results of a list are those of the finite map**, with sizes as `int32_t`, for every sequence of
calls and whatever `rand()` returns; two runs of the same calls return the same. -/
theorem exec_eq_finmap (key : ℕ → K) (value : ℕ → V) (calls : List (Op K V × (ℕ → ℕ))) :
    (∃ s, (SkipList.init key value).exec calls =
        some ((Ref.exec ∅ (calls.map Prod.fst)).1.map Res.asInt32, s) ∧
      Layered s (Ref.exec ∅ (calls.map Prod.fst)).2) ∧
    (calls.length < 2 ^ 31 → (Ref.exec ∅ (calls.map Prod.fst)).1.map Res.asInt32 =
      (Ref.exec ∅ (calls.map Prod.fst)).1) ∧
    ∀ calls' : List (Op K V × (ℕ → ℕ)), calls'.map Prod.fst = calls.map Prod.fst →
      ((SkipList.init key value).exec calls').map Prod.fst =
        ((SkipList.init key value).exec calls).map Prod.fst := by
  obtain ⟨s, L, h, hs⟩ := exec_sim (init_sim key value) calls
  refine ⟨⟨s, h, hs.layered⟩, fun hlt => asInt32_of_lt ?_, fun calls' hc => ?_⟩
  · rw [Finmap.keys_empty, Finset.card_empty, List.length_map]
    omega
  · obtain ⟨s', L', h', -⟩ := exec_sim (init_sim key value) calls'
    rw [h, h', hc]
    rfl

/-! ## Too many keys -/

/-- `n` keys are inserted, then the size is read. -/
def insertMany (n : ℕ) : List (Op ℕ ℕ × (ℕ → ℕ)) :=
  (List.range n).map (fun k => (.insert k 0, fun _ => 0)) ++ [(.getSize, fun _ => 0)]

theorem ref_exec_append (f : Finmap fun _ : K => V) (ops ops' : List (Op K V)) :
    Ref.exec f (ops ++ ops') = ((Ref.exec f ops).1 ++ (Ref.exec (Ref.exec f ops).2 ops').1,
      (Ref.exec (Ref.exec f ops).2 ops').2) := by
  induction ops generalizing f with
  | nil => rfl
  | cons op ops ih =>
    rw [List.cons_append, Ref.exec, ih]
    rfl

theorem keys_insertMany (n : ℕ) : (Ref.exec (∅ : Finmap fun _ : ℕ => ℕ)
    ((List.range n).map fun k => .insert k 0)).2.keys = Finset.range n := by
  induction n with
  | zero => rfl
  | succ n ih =>
    rw [List.range_succ, List.map_append, ref_exec_append, Finset.range_add_one, ← ih, ← keys_insert _ n 0]
    rfl

theorem ref_insertMany (n : ℕ) :
    (Ref.exec ∅ ((insertMany n).map Prod.fst)).1.getLast? = some (.size n) := by
  have hops : (insertMany n).map Prod.fst =
      (List.range n).map (fun k => Op.insert k 0) ++ [Op.getSize] := by
    rw [insertMany, List.map_append, List.map_map]
    rfl
  rw [hops, ref_exec_append, Ref.exec, Ref.exec, Ref.step, keys_insertMany, Finset.card_range]
  simp

/-- **`2 ^ 31` keys**: `GetSize` is negative. -/
theorem getSize_overflow :
    ((SkipList.init (fun _ => 0) (fun _ => 0)).exec (insertMany (2 ^ 31))).map (fun r => r.1.getLast?) =
      some (some (.size (-2 ^ 31))) ∧
    (Ref.exec ∅ ((insertMany (2 ^ 31)).map Prod.fst)).1.getLast? = some (.size (2 ^ 31)) := by
  obtain ⟨s, L, h, -⟩ := exec_sim (init_sim (fun _ => 0) (fun _ => 0)) (insertMany (2 ^ 31))
  have hi : i32 ((2 ^ 31 : ℕ) : ℤ) = -2 ^ 31 := by decide
  rw [h, Option.map_some, List.getLast?_map, ref_insertMany, Option.map_some, Res.asInt32, hi]
  exact ⟨rfl, by norm_num⟩

end Backend.Skip
