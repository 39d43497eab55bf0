import Backend.Hash.Lists
import Backend.Lib.Map

/-!
# `HashMap` refines a finite map

Whatever keys collide, every call returns what a finite map returns, where `GetSize` is the number of keys
as a `uint32_t`.

* `getBucketIndex_mem`: the bucket index lies in the array;
* `Ref.step`, `Ref.exec`: the finite map; `Res.asUInt32`: results of the type of the code;
* `Sim`, `init_sim`, `Sim.find`, `Sim.insert`, `Sim.delete`, **`exec_sim`**: the simulation. The counter
  may begin at any `base`, for `Init` does not set it;
* **`finmap_of_exec`**: the results on a new map are those of the finite map, and no call changes what is
  found for another key;
* **`getSize_wraps`**: `2 ^ 32` keys.
-/

set_option autoImplicit false

namespace Backend.Hash

open Function

/-! ## The bucket index -/

theorem toInt_and_mask {j : ℕ} (hj : j ≤ 30) (x : BitVec 32) :
    0 ≤ (x &&& BitVec.ofInt 32 (i32 (2 ^ j - 1))).toInt ∧
      (x &&& BitVec.ofInt 32 (i32 (2 ^ j - 1))).toInt < 2 ^ j := by
  have hle : 2 ^ j ≤ 2 ^ 30 := Nat.pow_le_pow_right (by omega) hj
  have hpos : 0 < 2 ^ j := Nat.two_pow_pos j
  have hcast : ((2 ^ j : ℕ) : ℤ) = 2 ^ j := by norm_cast
  have hmask : (BitVec.ofInt 32 (i32 (2 ^ j - 1))).toNat = 2 ^ j - 1 := by
    rw [i32_of_lt (by omega) (by omega), BitVec.toNat_ofInt]
    omega
  have hand : (x &&& BitVec.ofInt 32 (i32 (2 ^ j - 1))).toNat ≤ 2 ^ j - 1 := by
    rw [BitVec.toNat_and, hmask]
    exact Nat.and_le_right
  rw [BitVec.toInt_eq_toNat_of_lt (by omega)]
  omega

theorem getBucketIndex_mem {n : ℤ} (hn : ∃ j ≤ 30, n = 2 ^ j) (c : BitVec 32) :
    0 ≤ getBucketIndex n c ∧ getBucketIndex n c < n := by
  obtain ⟨j, hj, rfl⟩ := hn
  exact toInt_and_mask hj _

variable {K V : Type} [DecidableEq K]

/-! ## The finite map -/

/-- One call on the map. -/
def Ref.step (f : Finmap fun _ : K => V) : Op K V → Res V × Finmap fun _ : K => V
  | .find k v => (.find (decide (k ∈ f)) ((f.lookup k).getD v), f)
  | .findRef k => (.findRef (decide (k ∈ f)) (f.lookup k), f)
  | .insert k v => (.insert (if k ∈ f then 2 else 1), f.insert k v)
  | .delete k => (.delete (decide (k ∈ f)), f.erase k)
  | .getSize => (.size f.keys.card, f)

/-- A sequence of calls on the map. -/
def Ref.exec : (Finmap fun _ : K => V) → List (Op K V) → List (Res V) × Finmap fun _ : K => V
  | f, [] => ([], f)
  | f, op :: ops =>
    let r := Ref.step f op
    let t := Ref.exec r.2 ops
    (r.1 :: t.1, t.2)

/-- A size counted in a `uint32_t` that began at `base`. -/
def Res.asUInt32 (base : ℤ) : Res V → Res V
  | .size n => .size (u32 (base + n))
  | r => r

/-- The key that a call is about. -/
def Op.key? : Op K V → Option K
  | .find k _ => some k
  | .findRef k => some k
  | .insert k _ => some k
  | .delete k => some k
  | .getSize => none

/-! ## The simulation -/

variable {code : K → BitVec 32} {base : ℤ} {s : HashMap K V} {heads : ℤ → Option ℕ} {L : ℤ → List ℕ}
  {f : Finmap fun _ : K => V}

/-- The map holds `f`, with the nodes `L i` in the list `m_array[i]`. -/
structure Sim (code : K → BitVec 32) (base : ℤ) (s : HashMap K V) (heads : ℤ → Option ℕ)
    (L : ℤ → List ℕ) (f : Finmap fun _ : K => V) : Prop where
  array : s.array = some heads
  bucketNum : ∃ j ≤ 30, s.bucketNum = 2 ^ j
  lists : ∀ i, Holds s.nodes (heads i) (L i)
  bucket : ∀ i, ∀ a ∈ L i, getBucketIndex s.bucketNum (code (s.nodes.key a)) = i
  size : s.size = u32 (base + f.keys.card)
  mem : ∀ k, k ∈ f ↔ ∃ a ∈ L (getBucketIndex s.bucketNum (code k)), s.nodes.key a = k
  lookup : ∀ i, ∀ a ∈ L i, f.lookup (s.nodes.key a) = some (s.nodes.value a)

/-- `Init` on any object, whose counter it does not touch. -/
theorem init_sim (code : K → BitVec 32) (s₀ : HashMap K V) (hsize : u32 s₀.size = s₀.size) {n : ℤ} (hn : 0 < n) :
    ∃ s, s₀.init n = some (true, s) ∧ Sim code s₀.size s (fun _ => none) (fun _ => []) ∅ := by
  obtain ⟨j, hj, h, -, -⟩ := doubleLoop_spec (fun x h0 h => i32_of_lt (by omega) h)
    (show (if n > kMaxBucketNum then kMaxBucketNum else n) ≤ 2 ^ 30 by
      rw [kMaxBucketNum]
      split_ifs <;> omega)
  refine ⟨{ s₀ with bucketNum := 2 ^ j, array := some fun _ => none }, ?_, rfl, ⟨j, hj, rfl⟩,
    fun _ => holds_nil, fun _ _ ha => absurd ha List.not_mem_nil, ?_, fun k => ?_,
    fun _ _ ha => absurd ha List.not_mem_nil⟩
  · rw [HashMap.init, if_neg (by omega)]
    simp only [h, Option.map_some]
  · rw [Finmap.keys_empty, Finset.card_empty, Nat.cast_zero, add_zero, hsize]
  · simp [Finmap.notMem_empty]

theorem Sim.list? (hs : Sim code base s heads L f) (k : K) :
    s.list? (getBucketIndex s.bucketNum (code k)) =
      some (heads (getBucketIndex s.bucketNum (code k))) := by
  rw [HashMap.list?, if_pos (getBucketIndex_mem hs.bucketNum _), hs.array]
  rfl

theorem Sim.disjoint (hs : Sim code base s heads L f) {i j : ℤ} {a b : ℕ} (ha : a ∈ L i) (hb : b ∈ L j)
    (hij : i ≠ j) : a ≠ b := by
  rintro rfl
  exact hij ((hs.bucket i a ha).symm.trans (hs.bucket j a hb))

theorem Sim.absent (hs : Sim code base s heads L f) {k : K} (hk : k ∉ f) :
    ∀ a ∈ L (getBucketIndex s.bucketNum (code k)), s.nodes.key a ≠ k := fun a ha he =>
  hk ((hs.mem k).mpr ⟨a, ha, he⟩)

theorem Sim.find (hs : Sim code base s heads L f) (k : K) (v : V) :
    s.find code k v = some (decide (k ∈ f), (f.lookup k).getD v) := by
  by_cases hk : k ∈ f
  · obtain ⟨a, ha, rfl⟩ := (hs.mem k).mp hk
    simp [HashMap.find, hs.list?, Nodes.find, (hs.lists _).search_mem ha, hk, hs.lookup _ a ha]
  · simp [HashMap.find, hs.list?, Nodes.find, (hs.lists _).search_absent (hs.absent hk), hk,
      Finmap.lookup_eq_none.mpr hk]

theorem Sim.findRef (hs : Sim code base s heads L f) (k : K) :
    s.findRef code k = some (decide (k ∈ f), f.lookup k) := by
  by_cases hk : k ∈ f
  · obtain ⟨a, ha, rfl⟩ := (hs.mem k).mp hk
    simp [HashMap.findRef, hs.list?, Nodes.findRef, (hs.lists _).search_mem ha, hk, hs.lookup _ a ha]
  · simp [HashMap.findRef, hs.list?, Nodes.findRef, (hs.lists _).search_absent (hs.absent hk), hk,
      Finmap.lookup_eq_none.mpr hk]

/-- **One list is changed**, and the nodes of the others are not. -/
theorem Sim.setList (hs : Sim code base s heads L f) {i z : ℤ} {h : Option ℕ} {l : List ℕ}
    {m : Nodes K V} {f' : Finmap fun _ : K => V} (hl : Holds m h l)
    (hother : ∀ j ≠ i, ∀ a ∈ L j, m.key a = s.nodes.key a ∧ m.next a = s.nodes.next a ∧
      m.live a = s.nodes.live a ∧ m.value a = s.nodes.value a) (htop : s.nodes.top ≤ m.top)
    (hbucket : ∀ a ∈ l, getBucketIndex s.bucketNum (code (m.key a)) = i)
    (hz : z = u32 (base + f'.keys.card))
    (hf : ∀ k, getBucketIndex s.bucketNum (code k) ≠ i → f'.lookup k = f.lookup k)
    (hmem : ∀ k, getBucketIndex s.bucketNum (code k) = i → (k ∈ f' ↔ ∃ a ∈ l, m.key a = k))
    (hlookup : ∀ a ∈ l, f'.lookup (m.key a) = some (m.value a)) :
    Sim code base { s.setList i h m with size := z } (update heads i h) (update L i l) f' := by
  refine ⟨by simp [HashMap.setList, hs.array], hs.bucketNum, fun j => ?_, fun j a ha => ?_, hz,
    fun k => ?_, fun j a ha => ?_⟩
  · by_cases hj : j = i
    · subst hj
      rw [update_self, update_self]
      exact hl
    · rw [update_of_ne hj, update_of_ne hj]
      exact (hs.lists j).congr (fun a ha => (hother j hj a ha).1) (fun a ha => (hother j hj a ha).2.1)
        (fun a ha => (hother j hj a ha).2.2.1) htop
  · by_cases hj : j = i
    · subst hj
      rw [update_self] at ha
      exact hbucket a ha
    · rw [update_of_ne hj] at ha
      change getBucketIndex s.bucketNum (code (m.key a)) = j
      rw [(hother j hj a ha).1]
      exact hs.bucket j a ha
  · change k ∈ f' ↔ ∃ a ∈ update L i l (getBucketIndex s.bucketNum (code k)), m.key a = k
    by_cases hk : getBucketIndex s.bucketNum (code k) = i
    · rw [hk, update_self]
      exact hmem k hk
    · rw [update_of_ne hk, ← Finmap.lookup_isSome, hf k hk, Finmap.lookup_isSome, hs.mem]
      exact exists_congr fun a => and_congr_right fun ha => by rw [(hother _ hk a ha).1]
  · change f'.lookup (m.key a) = some (m.value a)
    by_cases hj : j = i
    · subst hj
      rw [update_self] at ha
      exact hlookup a ha
    · rw [update_of_ne hj] at ha
      obtain ⟨hkey, -, -, hvalue⟩ := hother j hj a ha
      have hne : getBucketIndex s.bucketNum (code (s.nodes.key a)) ≠ i := by
        rw [hs.bucket j a ha]
        exact hj
      rw [hkey, hvalue, hf _ hne]
      exact hs.lookup j a ha

theorem u32_add (x y : ℤ) : u32 (u32 x + y) = u32 (x + y) := Int.emod_add_emod ..

theorem u32_sub (x y : ℤ) : u32 (u32 x - y) = u32 (x - y) := Int.emod_sub_emod ..

theorem Sim.insert_mem (hs : Sim code base s heads L f) {k : K} (hk : k ∈ f) (v : V) :
    ∃ s' heads' L', s.insert code k v = some (2, s') ∧ Sim code base s' heads' L' (f.insert k v) := by
  obtain ⟨a, ha, rfl⟩ := (hs.mem k).mp hk
  have hl := hs.lists (getBucketIndex s.bucketNum (code (s.nodes.key a)))
  have hl' : Holds { s.nodes with value := update s.nodes.value a v } _ _ :=
    hl.congr (fun _ _ => rfl) (fun _ _ => rfl) (fun _ _ => rfl) le_rfl
  have hlookup : ∀ {x : K}, x ≠ s.nodes.key a →
      (f.insert (s.nodes.key a) v).lookup x = f.lookup x := fun hx => Finmap.lookup_insert_of_ne f hx
  refine ⟨_, _, _, ?_, hs.setList hl'
    (fun j hj b hb => ⟨rfl, rfl, rfl, update_of_ne (hs.disjoint hb ha hj) ..⟩) le_rfl (hs.bucket _)
    (hs.size.trans (by rw [card_insert_of_mem hk])) (fun x hx => hlookup ?_) (fun x hx => ?_)
    fun b hb => ?_⟩
  · simp [HashMap.insert, hs.list?, hl.insert_mem ha]
    rfl
  · rintro rfl
    exact hx rfl
  · rw [Finmap.mem_insert, or_iff_right_of_imp fun he => he ▸ hk, hs.mem, hx]
  · change (f.insert (s.nodes.key a) v).lookup (s.nodes.key b) = some (update s.nodes.value a v b)
    by_cases hba : b = a
    · rw [hba, update_self, Finmap.lookup_insert]
    · rw [update_of_ne hba, hlookup fun he => hba (hl.eq_of_key hb ha he)]
      exact hs.lookup _ b hb

theorem Sim.insert_absent (hs : Sim code base s heads L f) {k : K} (hk : k ∉ f) (v : V) :
    ∃ s' heads' L', s.insert code k v = some (1, s') ∧ Sim code base s' heads' L' (f.insert k v) := by
  have hl := hs.lists (getBucketIndex s.bucketNum (code k))
  have hne : ∀ {j : ℤ} {b : ℕ}, b ∈ L j → b ≠ s.nodes.top := fun hb => ((hs.lists _).lt_top _ hb).ne
  have hkey : ∀ {j : ℤ} {b : ℕ} {p : Option ℕ}, b ∈ L j →
      (s.nodes.alloc k v p).key b = s.nodes.key b := fun hb => Nodes.alloc_key_of_ne (hne hb) ..
  refine ⟨_, _, _, ?_, hs.setList (i := getBucketIndex s.bucketNum (code k))
    (z := u32 (s.size + 1)) (hl.alloc (hs.absent hk) v)
    (fun j hj b hb => ⟨hkey hb, update_of_ne (hne hb) .., update_of_ne (hne hb) ..,
      update_of_ne (hne hb) ..⟩) (Nat.le_succ _) (fun b hb => ?_) ?_ (fun x hx => ?_) (fun x hx => ?_)
    fun b hb => ?_⟩
  · simp [HashMap.insert, hs.list?, hl.insert_absent (hs.absent hk)]
    rfl
  · rcases List.mem_cons.mp hb with rfl | hb
    · rw [Nodes.alloc_key_top]
    · rw [hkey hb]
      exact hs.bucket _ b hb
  · rw [card_insert_of_notMem hk, hs.size, u32_add, Nat.cast_succ, add_assoc]
  · refine Finmap.lookup_insert_of_ne f ?_
    rintro rfl
    exact hx rfl
  · rw [Finmap.mem_insert, hs.mem, hx]
    constructor
    · rintro (rfl | ⟨b, hb, rfl⟩)
      · exact ⟨s.nodes.top, List.mem_cons_self, Nodes.alloc_key_top ..⟩
      · exact ⟨b, List.mem_cons_of_mem _ hb, hkey hb⟩
    · rintro ⟨b, hb, rfl⟩
      rcases List.mem_cons.mp hb with rfl | hb
      · exact .inl (Nodes.alloc_key_top ..)
      · exact .inr ⟨b, hb, (hkey hb).symm⟩
  · rcases List.mem_cons.mp hb with rfl | hb
    · rw [Nodes.alloc_key_top, Nodes.alloc_value_top, Finmap.lookup_insert]
    · rw [hkey hb, Nodes.alloc_value_of_ne (hne hb), Finmap.lookup_insert_of_ne _ (hs.absent hk b hb)]
      exact hs.lookup _ b hb

theorem Sim.insert (hs : Sim code base s heads L f) (k : K) (v : V) :
    ∃ s' heads' L', s.insert code k v = some (if k ∈ f then 2 else 1, s') ∧
      Sim code base s' heads' L' (f.insert k v) := by
  by_cases hk : k ∈ f
  · rw [if_pos hk]
    exact hs.insert_mem hk v
  · rw [if_neg hk]
    exact hs.insert_absent hk v

theorem Sim.delete_mem (hs : Sim code base s heads L f) {k : K} (hk : k ∈ f) :
    ∃ s' heads' L', s.delete code k = some (true, s') ∧ Sim code base s' heads' L' (f.erase k) := by
  obtain ⟨a, ha, rfl⟩ := (hs.mem k).mp hk
  have hl := hs.lists (getBucketIndex s.bucketNum (code (s.nodes.key a)))
  obtain ⟨l₁, l₂, he⟩ := List.append_of_mem ha
  rw [he] at hl
  obtain ⟨h', next', hdel, hchain, hnext⟩ := hl.delete_mem
  have hsub : ∀ b ∈ l₁ ++ l₂, b ∈ L (getBucketIndex s.bucketNum (code (s.nodes.key a))) ∧ b ≠ a := by
    intro b hb
    have hn := List.nodup_middle.mp hl.nodup
    refine ⟨?_, fun hba => (List.nodup_cons.mp hn).1 (hba ▸ hb)⟩
    rw [he, List.mem_append, List.mem_cons]
    exact (List.mem_append.mp hb).imp_right .inr
  have hl' : Holds (({ s.nodes with next := next' }).free a) h' (l₁ ++ l₂) := by
    refine ⟨hchain, fun b hb => ?_, fun b hb => (hs.lists _).lt_top b (hsub b hb).1, ?_⟩
    · exact (update_of_ne (hsub b hb).2 ..).trans ((hs.lists _).live b (hsub b hb).1)
    · exact hl.keys.sublist (List.Sublist.map _ (List.Sublist.append_left (List.sublist_cons_self a l₂) l₁))
  refine ⟨_, _, _, ?_, hs.setList (i := getBucketIndex s.bucketNum (code (s.nodes.key a)))
    (z := u32 (s.size - 1)) hl' (fun j hj b hb => ?_) le_rfl
    (fun b hb => hs.bucket _ b (hsub b hb).1) ?_ (fun x hx => ?_) (fun x hx => ?_) fun b hb => ?_⟩
  · simp [HashMap.delete, hs.list?, hdel]
    rfl
  · refine ⟨rfl, hnext b fun hb' => ?_, update_of_ne (hs.disjoint hb ha hj) .., rfl⟩
    rw [← he] at hb'
    exact hs.disjoint hb hb' hj rfl
  · rw [hs.size, u32_sub, ← card_erase_of_mem hk, Nat.cast_succ]
    congr 1
    omega
  · refine Finmap.lookup_erase_ne ?_
    rintro rfl
    exact hx rfl
  · rw [Finmap.mem_erase, hs.mem, hx]
    constructor
    · rintro ⟨hne, b, hb, rfl⟩
      refine ⟨b, ?_, rfl⟩
      rw [he, List.mem_append, List.mem_cons] at hb
      rw [List.mem_append]
      rcases hb with hb | rfl | hb
      · exact .inl hb
      · exact absurd rfl hne
      · exact .inr hb
    · rintro ⟨b, hb, rfl⟩
      obtain ⟨hb, hba⟩ := hsub b hb
      exact ⟨fun hkey => hba ((hs.lists _).eq_of_key hb ha hkey), b, hb, rfl⟩
  · obtain ⟨hb, hba⟩ := hsub b hb
    refine (Finmap.lookup_erase_ne fun hkey => hba ((hs.lists _).eq_of_key hb ha hkey)).trans ?_
    exact hs.lookup _ b hb

theorem Sim.delete (hs : Sim code base s heads L f) (k : K) :
    ∃ s' heads' L', s.delete code k = some (decide (k ∈ f), s') ∧
      Sim code base s' heads' L' (f.erase k) := by
  by_cases hk : k ∈ f
  · rw [decide_eq_true hk]
    exact hs.delete_mem hk
  · rw [decide_eq_false hk, erase_of_notMem hk]
    have hl := hs.lists (getBucketIndex s.bucketNum (code k))
    have hself : s.setList (getBucketIndex s.bucketNum (code k))
        (heads (getBucketIndex s.bucketNum (code k))) s.nodes = s := by
      rw [HashMap.setList, hs.array, Option.map_some, update_eq_self, ← hs.array]
    refine ⟨s, heads, L, ?_, hs⟩
    simp [HashMap.delete, hs.list?, hl.delete_absent (hs.absent hk), hself]

/-! ## Sequences of calls -/

theorem step_sim (hs : Sim code base s heads L f) (op : Op K V) :
    ∃ s' heads' L', s.step code op = some ((Ref.step f op).1.asUInt32 base, s') ∧
      Sim code base s' heads' L' (Ref.step f op).2 := by
  cases op with
  | find k v => exact ⟨s, heads, L, by rw [HashMap.step, hs.find]; rfl, hs⟩
  | findRef k => exact ⟨s, heads, L, by rw [HashMap.step, hs.findRef]; rfl, hs⟩
  | insert k v =>
    obtain ⟨s', heads', L', h, hs'⟩ := hs.insert k v
    exact ⟨s', heads', L', by rw [HashMap.step, h]; rfl, hs'⟩
  | delete k =>
    obtain ⟨s', heads', L', h, hs'⟩ := hs.delete k
    exact ⟨s', heads', L', by rw [HashMap.step, h]; rfl, hs'⟩
  | getSize => exact ⟨s, heads, L, by rw [HashMap.step, HashMap.getSize, hs.size]; rfl, hs⟩

/-- **A sequence of calls.** -/
theorem exec_sim (hs : Sim code base s heads L f) (ops : List (Op K V)) :
    ∃ s' heads' L', s.exec code ops = some ((Ref.exec f ops).1.map (Res.asUInt32 base), s') ∧
      Sim code base s' heads' L' (Ref.exec f ops).2 := by
  induction ops generalizing s heads L f with
  | nil => exact ⟨s, heads, L, rfl, hs⟩
  | cons op ops ih =>
    obtain ⟨s₁, heads₁, L₁, h₁, hs₁⟩ := step_sim hs op
    obtain ⟨s₂, heads₂, L₂, h₂, hs₂⟩ := ih hs₁
    refine ⟨s₂, heads₂, L₂, ?_, hs₂⟩
    rw [HashMap.exec, h₁]
    simp only [Option.bind_eq_bind, Option.bind_some, h₂]
    rfl

theorem card_step_le (f : Finmap fun _ : K => V) (op : Op K V) :
    (Ref.step f op).2.keys.card ≤ f.keys.card + 1 := by
  cases op with
  | find k v => exact Nat.le_succ _
  | findRef k => exact Nat.le_succ _
  | insert k v =>
    rw [Ref.step, keys_insert]
    exact Finset.card_insert_le _ _
  | delete k =>
    rw [Ref.step, Finmap.keys_erase]
    exact Finset.card_erase_le.trans (Nat.le_succ _)
  | getSize => exact Nat.le_succ _

theorem asUInt32_of_lt {f : Finmap fun _ : K => V} {ops : List (Op K V)}
    (hlt : f.keys.card + ops.length < 2 ^ 32) :
    (Ref.exec f ops).1.map (Res.asUInt32 0) = (Ref.exec f ops).1 := by
  induction ops generalizing f with
  | nil => rfl
  | cons op ops ih =>
    rw [List.length_cons] at hlt
    have hcard := card_step_le f op
    have hstep : (Ref.step f op).1.asUInt32 0 = (Ref.step f op).1 := by
      cases op with
      | getSize =>
        refine congrArg Res.size ?_
        rw [zero_add]
        exact u32_of_lt (by omega) (by omega)
      | find k v => rfl
      | findRef k => rfl
      | insert k v => rfl
      | delete k => rfl
    rw [Ref.exec, List.map_cons, hstep, ih (by omega)]

theorem lookup_step_of_ne (f : Finmap fun _ : K => V) {op : Op K V} {k : K} (hk : op.key? ≠ some k) :
    (Ref.step f op).2.lookup k = f.lookup k := by
  cases op with
  | find x v => rfl
  | findRef x => rfl
  | insert x v =>
    refine Finmap.lookup_insert_of_ne f ?_
    rintro rfl
    exact hk rfl
  | delete x =>
    refine Finmap.lookup_erase_ne ?_
    rintro rfl
    exact hk rfl
  | getSize => rfl

theorem Sim.find_step (hs : Sim code base s heads L f) {op : Op K V} {r : Res V} {s' : HashMap K V}
    (h : s.step code op = some (r, s')) {k : K} (hk : op.key? ≠ some k) (v : V) :
    s'.find code k v = s.find code k v ∧ s'.findRef code k = s.findRef code k := by
  obtain ⟨s₁, heads₁, L₁, h₁, hs₁⟩ := step_sim hs op
  obtain ⟨-, rfl⟩ := Prod.mk.inj (Option.some.inj (h₁.symm.trans h))
  have hlookup := lookup_step_of_ne f hk
  have hmem : k ∈ (Ref.step f op).2 ↔ k ∈ f := by
    rw [← Finmap.lookup_isSome, hlookup, Finmap.lookup_isSome]
  rw [hs₁.find, hs.find, hs₁.findRef, hs.findRef, hlookup]
  simp only [hmem, and_self]

/-- **The results of a new map are those of the finite map**, with sizes as `uint32_t`, for every sequence
of calls, every key type and whatever keys collide; every bucket index lies in the array, and no call
changes what is found for another key. -/
theorem finmap_of_exec (code : K → BitVec 32) (m : Nodes K V) {n : ℤ} (hn : 0 < n)
    (ops : List (Op K V)) :
    ∃ s₀ s, (HashMap.new m).init n = some (true, s₀) ∧
      s₀.exec code ops = some ((Ref.exec ∅ ops).1.map (Res.asUInt32 0), s) ∧
      (ops.length < 2 ^ 32 → (Ref.exec (∅ : Finmap fun _ : K => V) ops).1.map (Res.asUInt32 0) =
        (Ref.exec ∅ ops).1) ∧
      (∀ c, 0 ≤ getBucketIndex s.bucketNum c ∧ getBucketIndex s.bucketNum c < s.bucketNum) ∧
      ∀ op r s', s.step code op = some (r, s') → ∀ k, op.key? ≠ some k → ∀ v,
        s'.find code k v = s.find code k v ∧ s'.findRef code k = s.findRef code k := by
  obtain ⟨s₀, h₀, hs₀⟩ := init_sim code (HashMap.new m) rfl hn
  obtain ⟨s, heads, L, h, hs⟩ := exec_sim hs₀ ops
  refine ⟨s₀, s, h₀, h, fun hlt => asUInt32_of_lt ?_, getBucketIndex_mem hs.bucketNum,
    fun op r s' hop k hk v => hs.find_step hop hk v⟩
  rw [Finmap.keys_empty, Finset.card_empty]
  omega

/-- All keys collide: the array has one list. -/
theorem finmap_of_exec_three :
    ∃ s₀ s, (HashMap.new ⟨fun _ => 0, fun _ => 0, fun _ => none, fun _ => false, 0⟩).init 1 =
        some (true, s₀) ∧
      s₀.exec (BitVec.ofNat 32) [.insert 5 1, .insert 7 2, .insert 5 3, .delete 7, .find 5 0, .getSize] =
        some ([.insert 1, .insert 1, .insert 2, .delete true, .find true 3, .size 1], s) := by
  obtain ⟨s₀, s, h₀, h, hlt, -, -⟩ := finmap_of_exec (BitVec.ofNat 32)
    (⟨fun _ => 0, fun _ => 0, fun _ => none, fun _ => false, 0⟩ : Nodes ℕ ℕ) (n := 1) (by decide)
    [.insert 5 1, .insert 7 2, .insert 5 3, .delete 7, .find 5 0, .getSize]
  refine ⟨s₀, s, h₀, h.trans ?_⟩
  rw [hlt (by decide)]
  rfl

/-! ## Too many keys -/

/-- The first `n` keys of type `uint64_t` are inserted, then the size is read. -/
def insertMany (n : ℕ) : List (Op (BitVec 64) ℕ) :=
  (List.range n).map (fun k => .insert (BitVec.ofNat 64 k) 0) ++ [.getSize]

theorem ref_exec_append (f : Finmap fun _ : K => V) (ops ops' : List (Op K V)) :
    Ref.exec f (ops ++ ops') = ((Ref.exec f ops).1 ++ (Ref.exec (Ref.exec f ops).2 ops').1,
      (Ref.exec (Ref.exec f ops).2 ops').2) := by
  induction ops generalizing f with
  | nil => rfl
  | cons op ops ih =>
    rw [List.cons_append, Ref.exec, ih]
    rfl

theorem keys_insertMany (n : ℕ) : (Ref.exec (∅ : Finmap fun _ : BitVec 64 => ℕ)
    ((List.range n).map fun k => .insert (BitVec.ofNat 64 k) 0)).2.keys =
      (Finset.range n).image (BitVec.ofNat 64) := by
  induction n with
  | zero => rfl
  | succ n ih =>
    rw [List.range_succ, List.map_append, ref_exec_append, Finset.range_add_one, Finset.image_insert, ← ih,
      ← keys_insert _ _ 0]
    rfl

theorem card_insertMany {n : ℕ} (hn : n ≤ 2 ^ 64) :
    ((Finset.range n).image (BitVec.ofNat 64)).card = n := by
  rw [Finset.card_image_of_injOn, Finset.card_range]
  intro a ha b hb he
  rw [Finset.coe_range, Set.mem_Iio] at ha hb
  have := congrArg BitVec.toNat he
  rwa [BitVec.toNat_ofNat, BitVec.toNat_ofNat, Nat.mod_eq_of_lt (by omega),
    Nat.mod_eq_of_lt (by omega)] at this

theorem ref_insertMany {n : ℕ} (hn : n ≤ 2 ^ 64) :
    (Ref.exec ∅ (insertMany n)).1.getLast? = some (.size n) := by
  rw [insertMany, ref_exec_append, Ref.exec, Ref.exec, Ref.step, keys_insertMany, card_insertMany hn]
  simp

/-- **`2 ^ 32` keys**: `GetSize` is `0`. -/
theorem getSize_wraps :
    ∃ s₀ s rs, (HashMap.new ⟨fun _ => BitVec.ofNat 64 0, fun _ => 0, fun _ => none, fun _ => false, 0⟩).init
        16 = some (true, s₀) ∧
      s₀.exec (BitVec.setWidth 32) (insertMany (2 ^ 32)) = some (rs, s) ∧ rs.getLast? = some (.size 0) ∧
      (Ref.exec ∅ (insertMany (2 ^ 32))).1.getLast? = some (.size (2 ^ 32)) := by
  obtain ⟨s₀, h₀, hs₀⟩ := init_sim (BitVec.setWidth 32) (HashMap.new
    (⟨fun _ => BitVec.ofNat 64 0, fun _ => 0, fun _ => none, fun _ => false, 0⟩ : Nodes (BitVec 64) ℕ)) rfl
    (n := 16) (by decide)
  obtain ⟨s, heads, L, h, -⟩ := exec_sim hs₀ (insertMany (2 ^ 32))
  have hi : u32 (0 + ((2 ^ 32 : ℕ) : ℤ)) = 0 := by decide
  refine ⟨s₀, s, _, h₀, h, ?_, ref_insertMany (by decide)⟩
  rw [List.getLast?_map, ref_insertMany (by decide), Option.map_some, Res.asUInt32]
  exact congrArg (fun z => some (Res.size z)) hi

end Backend.Hash
