import Backend.UnionSearch.Classes
import Mathlib.Data.Nat.Log
import Mathlib.Data.Set.Card
import Mathlib.Tactic.Linarith

/-!
# Ranks of `UnionSearchSet`

The rank of an element is the depth of its tree only while it is a root: the second loop of `Search` sets the
ranks of the elements on the way to `1`, whatever hangs below them.

* `classOf`: the elements with a given root;
* `Ranked`: at a root the rank bounds the depth of its tree from above and its size from below;
* **`Ranked.compress`**, **`Ranked.hang`**: what the two assignments to `m_father` keep;
* `search_ranked`, `union_ranked`, `exec_ranked`, **`rank_bounds_depth`**: after any calls.
-/

set_option autoImplicit false

namespace Backend.UnionSearch

open Function

variable {n : ℕ} {f : ℕ → ℕ} {rank : ℕ → ℤ}

/-- The elements below `n` that have the root `r`. -/
def classOf (n : ℕ) (f : ℕ → ℕ) (r : ℕ) : Set ℕ := {x | x < n ∧ Root f x r}

theorem finite_classOf (n : ℕ) (f : ℕ → ℕ) (r : ℕ) : (classOf n f r).Finite :=
  (Set.finite_lt_nat n).subset fun _ hx => hx.1

theorem ncard_classOf_le (n : ℕ) (f : ℕ → ℕ) (r : ℕ) : (classOf n f r).ncard ≤ n := by
  have hsub : classOf n f r ⊆ (Finset.range n : Set ℕ) := fun x hx => by
    rw [Finset.coe_range]
    exact hx.1
  have hle := Set.ncard_le_ncard hsub (Finset.finite_toSet _)
  rwa [Set.ncard_coe_finset, Finset.card_range] at hle

/-- What the ranks say about the trees of the elements below `n`. -/
structure Ranked (n : ℕ) (f : ℕ → ℕ) (rank : ℕ → ℤ) : Prop where
  pos : ∀ i < n, 1 ≤ rank i
  le_size : ∀ i < n, 2 ^ (rank i - 1).toNat ≤ n
  depth : ∀ x < n, ∀ k r, Climbs f k x r → (k : ℤ) < rank r
  weight : ∀ r < n, f r = r → 2 ^ (rank r - 1).toNat ≤ (classOf n f r).ncard

theorem Ranked.rank_lt (h : Ranked n f rank) (hn : (n : ℤ) < 2 ^ 31) {i : ℕ} (hi : i < n) : rank i < 32 := by
  by_contra hno
  have hpow : 2 ^ 31 ≤ 2 ^ (rank i - 1).toNat := Nat.pow_le_pow_right (by norm_num) (by omega)
  have := h.le_size i hi
  omega

/-! ## The assignments -/

/-- **An element is hung below its root**, and its rank is set to `1`. -/
theorem Ranked.compress (h : Ranked n f rank) {a r : ℕ} (ha : Root f a r) (har : a ≠ r) :
    Ranked n (update f a r) (update rank a 1) := by
  have hne : ∀ {t}, update f a r t = t → t ≠ a := by
    rintro t ht rfl
    rw [update_self] at ht
    exact har ht.symm
  refine ⟨fun i hi => ?_, fun i hi => ?_, fun x hx k t hk => ?_, fun t ht hroot => ?_⟩
  · rw [update_apply]
    split_ifs
    · exact le_rfl
    · exact h.pos i hi
  · rw [update_apply]
    split_ifs
    · exact Nat.one_le_of_lt hi
    · exact h.le_size i hi
  · obtain ⟨k', hle, hk'⟩ := climbs_of_compress ha har hk
    have := h.depth x hx k' t hk'
    rw [update_of_ne (hne hk.fixed)]
    omega
  · have hclass : classOf n (update f a r) t = classOf n f t := by
      ext x
      exact and_congr_right fun _ => root_compress ha
    have hta := hne hroot
    rw [update_of_ne hta] at hroot
    rw [hclass, update_of_ne hta]
    exact h.weight t ht hroot

theorem classOf_link {a b t : ℕ} (hroots : ∀ x < n, ∃ r, Root f x r) (ha : f a = a) (hb : f b = b) (hab : a ≠ b)
    (hta : t ≠ a) :
    classOf n (update f a b) t = if t = b then classOf n f a ∪ classOf n f b else classOf n f t := by
  have hroot : ∀ x < n, (Root (update f a b) x t ↔ Root f x t ∨ (t = b ∧ Root f x a)) := by
    intro x hx
    obtain ⟨u, hu⟩ := hroots x hx
    have hlink := root_link ha hb hab hu
    constructor
    · intro h
      have he := hlink.unique h
      by_cases hua : u = a
      · rw [if_pos hua] at he
        exact .inr ⟨he.symm, hua ▸ hu⟩
      · rw [if_neg hua] at he
        exact .inl (he ▸ hu)
    · rintro (h | ⟨rfl, h⟩)
      · have he := hu.unique h
        rwa [he, if_neg hta] at hlink
      · rwa [hu.unique h, if_pos rfl] at hlink
  ext x
  by_cases htb : t = b
  · subst htb
    rw [if_pos rfl]
    constructor
    · rintro ⟨hx, h⟩
      rcases (hroot x hx).mp h with h | ⟨-, h⟩
      · exact .inr ⟨hx, h⟩
      · exact .inl ⟨hx, h⟩
    · rintro (⟨hx, h⟩ | ⟨hx, h⟩)
      · exact ⟨hx, (hroot x hx).mpr (.inr ⟨rfl, h⟩)⟩
      · exact ⟨hx, (hroot x hx).mpr (.inl h)⟩
  · rw [if_neg htb]
    refine and_congr_right fun hx => (hroot x hx).trans ⟨?_, .inl⟩
    rintro (h | ⟨h, -⟩)
    · exact h
    · exact absurd h htb

theorem ncard_union_classOf {a b : ℕ} (hab : a ≠ b) :
    (classOf n f a ∪ classOf n f b).ncard = (classOf n f a).ncard + (classOf n f b).ncard := by
  refine Set.ncard_union_eq ?_ (finite_classOf n f a) (finite_classOf n f b)
  rw [Set.disjoint_left]
  exact fun x hx hx' => hab (hx.2.unique hx'.2)

/-- The new rank of the upper root fits the two trees together. -/
theorem two_pow_max_le {p q : ℤ} {x y : ℕ} (hp : 1 ≤ p) (hpq : p ≤ q) (hx : 2 ^ (p - 1).toNat ≤ x)
    (hy : 2 ^ (q - 1).toNat ≤ y) : 2 ^ (max (p + 1) q - 1).toNat ≤ x + y := by
  rcases eq_or_lt_of_le hpq with rfl | hlt
  · have he : (max (p + 1) p - 1).toNat = (p - 1).toNat + 1 := by omega
    rw [he, pow_succ]
    omega
  · rw [max_eq_right (by omega)]
    omega

/-- **A root is hung below another one** whose rank is not smaller. -/
theorem Ranked.hang (h : Ranked n f rank) (hroots : ∀ x < n, ∃ r, Root f x r) {a b : ℕ} (ha : f a = a)
    (hb : f b = b) (hab : a ≠ b) (han : a < n) (hbn : b < n) (hle : rank a ≤ rank b) :
    Ranked n (update f a b) (update rank b (max (rank a + 1) (rank b))) := by
  have hmax := two_pow_max_le (h.pos a han) hle (h.weight a han ha) (h.weight b hbn hb)
  rw [← ncard_union_classOf hab] at hmax
  have hclass := classOf_link hroots ha hb hab (Ne.symm hab)
  rw [if_pos rfl] at hclass
  refine ⟨fun i hi => ?_, fun i hi => ?_, fun x hx k t hk => ?_, fun t ht hroot => ?_⟩
  · rw [update_apply]
    split_ifs
    · exact (h.pos b hbn).trans (le_max_right _ _)
    · exact h.pos i hi
  · rw [update_apply]
    split_ifs
    · rw [← hclass] at hmax
      exact hmax.trans (ncard_classOf_le n _ b)
    · exact h.le_size i hi
  · rcases climbs_of_link ha hb hab hk with hup | ⟨rfl, k', rfl, hup⟩
    · have hlt := h.depth x hx k t hup
      rw [update_apply]
      split_ifs with htb
      · subst htb
        exact lt_max_of_lt_right hlt
      · exact hlt
    · have hlt := h.depth x hx k' a hup
      rw [update_self, Nat.cast_succ]
      exact lt_max_of_lt_left (by omega)
  · have hta : t ≠ a := by
      rintro rfl
      rw [update_self] at hroot
      exact hab hroot.symm
    rw [classOf_link hroots ha hb hab hta, update_apply]
    split_ifs with htb
    · exact hmax
    · rw [update_of_ne hta] at hroot
      exact h.weight t ht hroot

/-! ## The calls -/

/-- The ranks of a set fit its trees. -/
abbrev UnionSearchSet.Ranked (s : UnionSearchSet) : Prop := UnionSearch.Ranked s.size s.father s.rank

variable {s s' : UnionSearchSet}

theorem compressLoop_ranked {a r : ℕ} (fuel : ℕ) (hs : s.Ranked) (ha : Root s.father a r)
    (h : compressLoop r fuel a s = some s') : s'.Ranked := by
  induction fuel generalizing s a with
  | zero => cases h
  | succ fuel ih =>
    rw [compressLoop] at h
    split at h
    case isTrue hne =>
      have har : a ≠ r := by
        rintro rfl
        exact hne ha.fixed
      have hup : Root s.father (s.father a) r := by
        obtain ⟨k, hk⟩ := ha
        cases hk with
        | root _ => exact absurd rfl har
        | up _ hk => exact ⟨_, hk⟩
      exact ih (hs.compress ha har) ((root_compress ha).mpr hup) h
    case isFalse =>
      cases h
      exact hs

theorem search_ranked {a : ℕ} {i : ℤ} (hf : Forest s) (hs : s.Ranked) (ha : a < s.size)
    (h : s.search a = some (i, s')) : s'.Ranked := by
  obtain ⟨r, hr⟩ := hf.root a ha
  obtain ⟨k, hk⟩ := hr
  have hlt := hk.lt_card (Finset.range s.size) (by simpa using hf.father) (by simpa using ha)
  rw [Finset.card_range] at hlt
  rw [UnionSearchSet.search, if_neg (by omega), climbLoop_spec hk (by omega)] at h
  simp only [Option.bind_eq_bind, Option.bind_some, Option.bind_eq_some_iff, Option.some.injEq, Prod.mk.injEq] at h
  obtain ⟨s₁, he, -, rfl⟩ := h
  exact compressLoop_ranked _ hs ⟨k, hk⟩ he

theorem link_ranked (hf : Forest s) (hs : s.Ranked) (hn : (s.size : ℤ) < 2 ^ 31) {a b : ℕ} (ha : s.father a = a)
    (hb : s.father b = b) (hab : a ≠ b) (han : a < s.size) (hbn : b < s.size) : (s.link a b).Ranked := by
  have hra := hs.rank_lt hn han
  have hrb := hs.rank_lt hn hbn
  have hpa := hs.pos a han
  have hpb := hs.pos b hbn
  rw [UnionSearchSet.link]
  split
  case isTrue hlt =>
    rw [i32_of_lt (by omega) (by omega)]
    exact hs.hang hf.root ha hb hab han hbn hlt.le
  case isFalse hge =>
    rw [i32_of_lt (by omega) (by omega)]
    exact hs.hang hf.root hb ha (Ne.symm hab) hbn han (by omega)

theorem union_ranked (hf : Forest s) (hs : s.Ranked) (hn : (s.size : ℤ) < 2 ^ 31) {c d : ℕ} (hc : c < s.size)
    (hd : d < s.size) {res : Bool} (h : s.union c d = some (res, s')) : s'.Ranked := by
  obtain ⟨a, s₁, h₁, ha, han, hs₁⟩ := search_spec hf hc
  have hf₁ := hs₁.forest hf
  obtain ⟨b, s₂, h₂, hb, hbn, hs₂⟩ := search_spec hf₁ (hs₁.size ▸ hd)
  have hr₂ := search_ranked hf₁ (search_ranked hf hs hc h₁) (hs₁.size ▸ hd) h₂
  have hneg : ∀ n : ℕ, ¬ (n : ℤ) < 0 := fun n => by omega
  simp only [UnionSearchSet.union, h₁, Option.bind_eq_bind, Option.bind_some, hneg, h₂, if_false,
    Int.toNat_natCast] at h
  split at h
  case isTrue =>
    cases h
    exact hr₂
  case isFalse hab =>
    cases h
    have ha₂ := (hs₂.root c a).mpr ((hs₁.root c a).mpr ha)
    refine link_ranked (hs₂.forest hf₁) hr₂ ?_ ha₂.fixed ((hs₂.root d b).mpr hb).fixed (by exact_mod_cast hab) ?_ ?_
    · rwa [hs₂.size, hs₁.size]
    · rwa [hs₂.size, hs₁.size]
    · rwa [hs₂.size]

theorem step_ranked {ops : List Op} {op : Op} {r : Res} (hi : Inv ops s) (hs : s.Ranked)
    (hn : (s.size : ℤ) < 2 ^ 31) (ho : op.InRange s.size) (h : s.step op = some (r, s')) : s'.Ranked := by
  cases op with
  | search idx =>
    simp only [UnionSearchSet.step, Option.map_eq_some_iff, Prod.mk.injEq] at h
    obtain ⟨⟨i, s₁⟩, he, -, rfl⟩ := h
    exact search_ranked hi.forest hs ho he
  | union c d =>
    simp only [UnionSearchSet.step, Option.map_eq_some_iff, Prod.mk.injEq] at h
    obtain ⟨⟨res, s₁⟩, he, -, rfl⟩ := h
    exact union_ranked hi.forest hs hn ho.1 ho.2 he

theorem exec_ranked {past ops : List Op} {rs : List Res} {t : UnionSearchSet} (hi : Inv past s) (hs : s.Ranked)
    (hn : (s.size : ℤ) < 2 ^ 31) (ho : ∀ op ∈ ops, op.InRange s.size) (h : s.exec ops = some (rs, t)) :
    t.Ranked := by
  induction ops generalizing past s rs with
  | nil =>
    cases h
    exact hs
  | cons op ops ih =>
    obtain ⟨r, s₁, he, hsize, hi₁⟩ := step_inv hi (ho op List.mem_cons_self)
    simp only [UnionSearchSet.exec, he, Option.bind_eq_bind, Option.bind_some, Option.bind_eq_some_iff] at h
    obtain ⟨⟨rs', t'⟩, he', h⟩ := h
    cases h
    refine ih hi₁ (step_ranked hi hs hn (ho op List.mem_cons_self) he) (by rwa [hsize]) (fun op hop => ?_) he'
    rw [hsize]
    exact ho op (List.mem_cons_of_mem _ hop)

theorem ranked_id (n : ℕ) : Ranked n id fun _ => 1 := by
  refine ⟨fun _ _ => le_rfl, fun i hi => Nat.one_le_of_lt hi, fun x _ k r hk => ?_, fun r hr _ => ?_⟩
  · have hk0 : k = 0 := (hk.unique (.root rfl)).1
    rw [hk0]
    decide
  · have hpos : 0 < (classOf n id r).ncard :=
      (Set.ncard_pos (finite_classOf n id r)).mpr ⟨r, hr, 0, .root rfl⟩
    exact hpos

theorem init_ranked {size : ℤ} (h : UnionSearchSet.init size = some s) : s.Ranked := by
  rw [UnionSearchSet.init] at h
  split at h
  · cases h
  · cases h
    exact ranked_id _

/-- **Union by rank bounds the depth**: after any calls with indices in range, every element reaches its root `r`
in fewer than `m_rank[r]` steps, the class of `r` has at least `2 ^ (m_rank[r] - 1)` elements, no way up is longer
than the logarithm of the size, and no rank is near the end of `int32_t`. -/
theorem rank_bounds_depth {size : ℤ} (h1 : 1 ≤ size) (h31 : size < 2 ^ 31) :
    ∃ s, UnionSearchSet.init size = some s ∧
      ∀ ops : List Op, (∀ op ∈ ops, op.InRange size.toNat) → ∃ rs t, s.exec ops = some (rs, t) ∧
        t.size = size.toNat ∧
        (∀ r < t.size, t.father r = r →
          (∀ x ∈ classOf t.size t.father r, ∃ k, Climbs t.father k x r ∧ (k : ℤ) < t.rank r) ∧
          1 ≤ t.rank r ∧ 2 ^ (t.rank r - 1).toNat ≤ (classOf t.size t.father r).ncard) ∧
        (∀ x < t.size, ∃ k r, Climbs t.father k x r ∧ k ≤ Nat.log 2 t.size) ∧
        ∀ i < t.size, 1 ≤ t.rank i ∧ t.rank i + 1 < 2 ^ 31 := by
  have hinit : UnionSearchSet.init size =
      some { father := id, rank := fun _ => 1, size := size.toNat } := if_neg (by omega)
  refine ⟨_, hinit, fun ops ho => ?_⟩
  obtain ⟨rs, t, h, hsize, hi⟩ := exec_inv (init_inv hinit) ho
  have hs := exec_ranked (init_inv hinit) (init_ranked hinit) (by simp only; omega) ho h
  simp only at hsize
  refine ⟨rs, t, h, hsize, fun r hr hroot => ⟨fun x hx => ?_, hs.pos r hr, hs.weight r hr hroot⟩, fun x hx => ?_,
    fun i hlt => ?_⟩
  · obtain ⟨hx, k, hk⟩ := hx
    exact ⟨k, hk, hs.depth x hx k r hk⟩
  · obtain ⟨r, k, hk⟩ := hi.forest.root x hx
    have hr := hk.mem hi.forest.father hx
    have hlt := hs.depth x hx k r hk
    refine ⟨k, r, hk, Nat.le_log_of_pow_le (by norm_num) ?_⟩
    exact (Nat.pow_le_pow_right (by norm_num) (by omega)).trans (hs.le_size r hr)
  · have hrank := hs.rank_lt (by omega) hlt
    exact ⟨hs.pos i hlt, by omega⟩

/-- Four elements, and a chain that `Search` compresses. -/
theorem rank_bounds_depth_four : ∃ s, UnionSearchSet.init 4 = some s ∧ ∃ rs t,
    s.exec [.union 0 1, .union 2 3, .union 3 1, .search 3] = some (rs, t) ∧
      ∀ x < t.size, ∃ k r, Climbs t.father k x r ∧ k ≤ Nat.log 2 t.size := by
  obtain ⟨s, hs, h⟩ := @rank_bounds_depth 4 (by decide) (by decide)
  obtain ⟨rs, t, ht, -, -, hlog, -⟩ := h [.union 0 1, .union 2 3, .union 3 1, .search 3] (by simp [Op.InRange])
  exact ⟨s, hs, rs, t, ht, hlog⟩

end Backend.UnionSearch
