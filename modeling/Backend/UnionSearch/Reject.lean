import Backend.Lib.Run
import Backend.UnionSearch.Classes

/-!
# `UnionSearchSet` and indices out of range

The indices of `Search` and `Union` are `int32_t`: any of them can be passed, and only those from `m_size` on are
checked. Here every access to `m_father` and `m_rank` is checked against the bounds of the arrays.

* `UnionSearchSet.Has`, `UnionSearchSet.father?`: the accesses;
* `climbChecked`, `compressChecked`, `UnionSearchSet.searchChecked`, `UnionSearchSet.unionChecked`: the two functions
  with these accesses; `searchChecked_eq`, `unionChecked_eq`: on indices from `0` on they are those of the model;
* `SearchRejects`, `UnionRejects`: indices out of range are rejected without an effect;
* **`rejects_iff`**: in every state that calls reach, this is so for the indices from `0` on.

`none` as the result of a function is an access outside the arrays, or a loop that does not end.
-/

set_option autoImplicit false

namespace Backend.UnionSearch

open Function

/-! ## The checked accesses -/

/-- `i` is an index of the arrays. -/
def UnionSearchSet.Has (s : UnionSearchSet) (i : ℤ) : Prop := 0 ≤ i ∧ i < s.size

instance (s : UnionSearchSet) (i : ℤ) : Decidable (s.Has i) := inferInstanceAs (Decidable (_ ∧ _))

/-- `m_father[i]`. -/
def UnionSearchSet.father? (s : UnionSearchSet) (i : ℤ) : Option ℤ :=
  if s.Has i then some (s.father i.toNat) else none

/-- `while (m_father[idx] != idx) idx = m_father[idx];`. -/
def climbChecked (s : UnionSearchSet) : ℕ → ℤ → Option ℤ
  | 0, _ => none
  | fuel + 1, idx => do
    let father ← s.father? idx
    if father ≠ idx then climbChecked s fuel father else some idx

/-- The second loop of `Search`. -/
def compressChecked (idx : ℤ) : ℕ → ℤ → UnionSearchSet → Option UnionSearchSet
  | 0, _, _ => none
  | fuel + 1, a, s => do
    let father ← s.father? a
    if father ≠ idx then
      -- `a` is in range, or it would not have been read
      compressChecked idx fuel father
        { s with father := update s.father a.toNat idx.toNat, rank := update s.rank a.toNat 1 }
    else some s

/-- `Search`. -/
def UnionSearchSet.searchChecked (s : UnionSearchSet) (idx : ℤ) : Option (ℤ × UnionSearchSet) :=
  if idx ≥ s.size then some (-1, s)
  else do
    let root ← climbChecked s (s.size + 1) idx
    let s ← compressChecked root (s.size + 1) idx s
    some (root, s)

/-- `Union`. -/
def UnionSearchSet.unionChecked (s : UnionSearchSet) (a b : ℤ) : Option (Bool × UnionSearchSet) := do
  let (ta, s) ← s.searchChecked a
  if ta < 0 then return (false, s)
  let (tb, s) ← s.searchChecked b
  if tb < 0 then return (false, s)
  if ta = tb then return (true, s)
  if s.Has ta ∧ s.Has tb then return (true, s.link ta.toNat tb.toNat)
  none

/-- The calls. -/
inductive Call
  | search (idx : ℤ)
  | union (a b : ℤ)

/-- The set after a call. -/
def UnionSearchSet.call (s : UnionSearchSet) : Call → Option UnionSearchSet
  | .search idx => (s.searchChecked idx).map Prod.snd
  | .union a b => (s.unionChecked a b).map Prod.snd

/-- `Search(idx)` stays in the arrays and returns `-1` if and only if `idx` is out of range. -/
def SearchRejects (s : UnionSearchSet) (idx : ℤ) : Prop :=
  ∃ r s', s.searchChecked idx = some (r, s') ∧ (r = -1 ↔ ¬ s.Has idx)

/-- `Union(a, b)` stays in the arrays, returns `false` if and only if an index is out of range, and then keeps the
classes. -/
def UnionRejects (s : UnionSearchSet) (a b : ℤ) : Prop :=
  ∃ r s', s.unionChecked a b = some (r, s') ∧ (r = false ↔ ¬ (s.Has a ∧ s.Has b)) ∧
    (r = false → ∀ x < s.size, ∀ y < s.size, (s'.Same x y ↔ s.Same x y))

/-! ## Indices from `0` on -/

variable {s : UnionSearchSet}

theorem has_natCast {i : ℕ} : s.Has i ↔ i < s.size := by
  unfold UnionSearchSet.Has
  omega

theorem father?_natCast {i : ℕ} (hi : i < s.size) : s.father? i = some (s.father i : ℤ) := by
  rw [UnionSearchSet.father?, if_pos (has_natCast.mpr hi), Int.toNat_natCast]

theorem climbChecked_eq (hs : ∀ i < s.size, s.father i < s.size) (fuel : ℕ) {i : ℕ} (hi : i < s.size) :
    climbChecked s fuel i = (climbLoop s.father fuel i).map (↑) := by
  induction fuel generalizing i with
  | zero => rfl
  | succ fuel ih =>
    rw [climbChecked, father?_natCast hi, climbLoop, Option.bind_eq_bind, Option.bind_some]
    by_cases h : s.father i = i
    · rw [if_neg (not_not.mpr (congrArg Nat.cast h)), if_neg (not_not.mpr h), Option.map_some]
    · rw [if_pos (by exact_mod_cast h), if_pos h]
      exact ih (hs i hi)

theorem compressChecked_eq {r : ℕ} (hr : r < s.size) (hs : ∀ i < s.size, s.father i < s.size) (fuel : ℕ) {a : ℕ}
    (ha : a < s.size) : compressChecked r fuel a s = compressLoop r fuel a s := by
  induction fuel generalizing a s with
  | zero => rfl
  | succ fuel ih =>
    rw [compressChecked, father?_natCast ha, compressLoop, Option.bind_eq_bind, Option.bind_some, Int.toNat_natCast,
      Int.toNat_natCast]
    by_cases h : s.father a = r
    · rw [if_neg (not_not.mpr (congrArg Nat.cast h)), if_neg (not_not.mpr h)]
    · rw [if_pos (by exact_mod_cast h), if_pos h]
      refine ih (s := { s with father := update s.father a r, rank := update s.rank a 1 }) hr ?_ (hs a ha)
      intro i hi
      by_cases hia : i = a
      · simpa only [hia, update_self] using hr
      · simpa only [update_of_ne hia] using hs i hi

theorem searchChecked_eq (hs : Forest s) (i : ℕ) : s.searchChecked i = s.search i := by
  rw [UnionSearchSet.searchChecked, UnionSearchSet.search]
  by_cases hi : s.size ≤ i
  · rw [if_pos hi, if_pos (by omega)]
  · rw [if_neg hi, if_neg (by omega), climbChecked_eq hs.father _ (not_le.mp hi)]
    obtain ⟨r, k, h⟩ := hs.root i (not_le.mp hi)
    have hr : r < s.size := h.mem hs.father (not_le.mp hi)
    have hk := h.lt_card (Finset.range s.size) (by simpa using hs.father) (by simpa using not_le.mp hi)
    rw [Finset.card_range] at hk
    simp only [climbLoop_spec h (show k < s.size + 1 by omega), Option.map_some, Option.bind_eq_bind, Option.bind_some,
      compressChecked_eq hr hs.father _ (not_le.mp hi)]

theorem searchChecked_spec (hs : Forest s) (i : ℕ) : ∃ r s', s.searchChecked i = some (r, s') ∧ SameRoots s s' ∧
    (r = -1 ∧ ¬ i < s.size ∨ 0 ≤ r ∧ r < s.size ∧ i < s.size) := by
  rw [searchChecked_eq hs]
  by_cases hi : i < s.size
  · obtain ⟨r, s', he, -, hr, hs'⟩ := search_spec hs hi
    exact ⟨r, s', he, hs', Or.inr ⟨by omega, by omega, hi⟩⟩
  · exact ⟨-1, s, if_pos (by omega), .refl s, Or.inl ⟨rfl, hi⟩⟩

theorem unionChecked_eq (hs : Forest s) (a b : ℕ) : s.unionChecked a b = s.union a b := by
  rw [UnionSearchSet.unionChecked, UnionSearchSet.union, searchChecked_eq hs]
  obtain ⟨ta, s₁, h₁, hs₁, hta⟩ := searchChecked_spec hs a
  rw [searchChecked_eq hs] at h₁
  simp only [h₁, Option.bind_eq_bind, Option.bind_some]
  split_ifs with hneg
  · rfl
  · obtain ⟨tb, s₂, h₂, hs₂, htb⟩ := searchChecked_spec (hs₁.forest hs) b
    rw [searchChecked_eq (hs₁.forest hs)] at h₂ ⊢
    simp only [h₂, Option.bind_some]
    split_ifs with hneg' heq hhas
    · rfl
    · rfl
    · rfl
    · refine absurd ⟨⟨not_lt.mp hneg, ?_⟩, not_lt.mp hneg', ?_⟩ hhas
      · rw [hs₂.size, hs₁.size]
        omega
      · rw [hs₂.size]
        omega

theorem same_of_sameRoots {s' : UnionSearchSet} (hs : Forest s) (h : SameRoots s s') :
    ∀ x < s.size, ∀ y < s.size, (s'.Same x y ↔ s.Same x y) := by
  intro x hx y hy
  rw [same_iff_share (h.forest hs) (h.size ▸ hx) (h.size ▸ hy), h.share, same_iff_share hs hx hy]

theorem unionChecked_spec (hs : Forest s) (a b : ℕ) : ∃ r s', s.unionChecked a b = some (r, s') ∧ Forest s' ∧
    s'.size = s.size ∧ (r = false ↔ ¬ (a < s.size ∧ b < s.size)) ∧
    (r = false → ∀ x < s.size, ∀ y < s.size, (s'.Same x y ↔ s.Same x y)) := by
  by_cases hab : a < s.size ∧ b < s.size
  · obtain ⟨s', he, hf, hn, -⟩ := union_spec hs hab.1 hab.2
    rw [unionChecked_eq hs]
    exact ⟨true, s', he, hf, hn, ⟨fun h => Bool.noConfusion h, fun h => absurd hab h⟩, fun h => Bool.noConfusion h⟩
  · -- the first search may have hung elements below their root
    suffices h : ∃ s', s.unionChecked a b = some (false, s') ∧ SameRoots s s' by
      obtain ⟨s', he, hs'⟩ := h
      exact ⟨false, s', he, hs'.forest hs, hs'.size, iff_of_true rfl hab, fun _ => same_of_sameRoots hs hs'⟩
    obtain ⟨ta, s₁, h₁, hs₁, hta⟩ := searchChecked_spec hs a
    obtain ⟨tb, s₂, h₂, hs₂, htb⟩ := searchChecked_spec (hs₁.forest hs) b
    rw [hs₁.size] at htb
    simp only [UnionSearchSet.unionChecked, h₁, Option.bind_eq_bind, Option.bind_some]
    by_cases hneg : ta < 0
    · exact ⟨s₁, if_pos hneg, hs₁⟩
    · rw [if_neg hneg, h₂, Option.bind_some]
      exact ⟨s₂, if_pos (by omega), hs₁.trans hs₂⟩

/-! ## Negative indices -/

theorem father?_of_neg {i : ℤ} (hi : i < 0) : s.father? i = none := if_neg fun h => absurd h.1 (not_le.mpr hi)

/-- `Search` reads `m_father[idx]` for a negative index. -/
theorem searchChecked_of_neg {i : ℤ} (hi : i < 0) : s.searchChecked i = none := by
  rw [UnionSearchSet.searchChecked, if_neg (by omega), climbChecked, father?_of_neg hi]
  rfl

theorem unionChecked_of_neg_left {a : ℤ} (ha : a < 0) (b : ℤ) : s.unionChecked a b = none := by
  rw [UnionSearchSet.unionChecked, searchChecked_of_neg ha]
  rfl

/-- The second index is looked at when the first one is in range. -/
theorem unionChecked_of_neg_right (hs : Forest s) {a : ℕ} {b : ℤ} (hb : b < 0) :
    s.unionChecked a b = if a < s.size then none else some (false, s) := by
  obtain ⟨ta, s₁, h₁, -, hta⟩ := searchChecked_spec hs a
  simp only [UnionSearchSet.unionChecked, h₁, Option.bind_eq_bind, Option.bind_some, searchChecked_of_neg hb,
    Option.bind_none]
  split_ifs with hneg ha
  · omega
  · rw [searchChecked_eq hs, UnionSearchSet.search, if_pos (by omega)] at h₁
    obtain ⟨rfl, rfl⟩ := Prod.mk.inj (Option.some.inj h₁)
    rfl
  · rfl
  · omega

/-! ## Sequences of calls -/

theorem searchRejects_iff (hs : Forest s) (idx : ℤ) : SearchRejects s idx ↔ 0 ≤ idx := by
  constructor
  · rintro ⟨r, s', he, -⟩
    by_contra hno
    rw [searchChecked_of_neg (not_le.mp hno)] at he
    cases he
  · intro h0
    obtain ⟨i, rfl⟩ := Int.eq_ofNat_of_zero_le h0
    obtain ⟨r, s', he, -, hr⟩ := searchChecked_spec hs i
    refine ⟨r, s', he, ?_⟩
    rw [has_natCast]
    omega

theorem unionRejects_iff (hs : Forest s) (a b : ℤ) : UnionRejects s a b ↔ 0 ≤ a ∧ (0 ≤ b ∨ s.size ≤ a) := by
  by_cases ha : 0 ≤ a
  · obtain ⟨i, rfl⟩ := Int.eq_ofNat_of_zero_le ha
    by_cases hb : 0 ≤ b
    · obtain ⟨j, rfl⟩ := Int.eq_ofNat_of_zero_le hb
      obtain ⟨r, s', he, -, -, hr, hsame⟩ := unionChecked_spec hs i j
      refine iff_of_true ⟨r, s', he, ?_, hsame⟩ ⟨ha, Or.inl hb⟩
      rw [hr, has_natCast, has_natCast]
    · rw [UnionRejects, unionChecked_of_neg_right hs (not_le.mp hb)]
      by_cases hi : i < s.size
      · simp only [if_pos hi]
        refine iff_of_false ?_ (by omega)
        rintro ⟨r, s', he, -⟩
        cases he
      · simp only [if_neg hi]
        refine iff_of_true ⟨false, s, rfl, iff_of_true rfl ?_, fun _ x _ y _ => Iff.rfl⟩ (by omega)
        rw [has_natCast]
        exact fun h => hi h.1
  · refine iff_of_false ?_ fun h => ha h.1
    rintro ⟨r, s', he, -⟩
    rw [unionChecked_of_neg_left (not_le.mp ha)] at he
    cases he

theorem call_forest {c : Call} {t : UnionSearchSet} (hs : Forest s) (h : s.call c = some t) :
    Forest t ∧ t.size = s.size := by
  cases c with
  | search idx =>
    obtain ⟨⟨r, s'⟩, he, rfl⟩ := Option.map_eq_some_iff.mp h
    have h0 : 0 ≤ idx := by
      by_contra hno
      rw [searchChecked_of_neg (not_le.mp hno)] at he
      cases he
    obtain ⟨i, rfl⟩ := Int.eq_ofNat_of_zero_le h0
    obtain ⟨r', s'', he', hs', -⟩ := searchChecked_spec hs i
    obtain ⟨rfl, rfl⟩ := Prod.mk.inj (Option.some.inj (he'.symm.trans he))
    exact ⟨hs'.forest hs, hs'.size⟩
  | union a b =>
    obtain ⟨⟨r, s'⟩, he, rfl⟩ := Option.map_eq_some_iff.mp h
    have h0 : 0 ≤ a := by
      by_contra hno
      rw [unionChecked_of_neg_left (not_le.mp hno)] at he
      cases he
    obtain ⟨i, rfl⟩ := Int.eq_ofNat_of_zero_le h0
    by_cases hb : 0 ≤ b
    · obtain ⟨j, rfl⟩ := Int.eq_ofNat_of_zero_le hb
      obtain ⟨r', s'', he', hf, hn, -⟩ := unionChecked_spec hs i j
      obtain ⟨rfl, rfl⟩ := Prod.mk.inj (Option.some.inj (he'.symm.trans he))
      exact ⟨hf, hn⟩
    · rw [unionChecked_of_neg_right hs (not_le.mp hb)] at he
      split_ifs at he
      obtain ⟨rfl, rfl⟩ := Prod.mk.inj (Option.some.inj he)
      exact ⟨hs, rfl⟩

/-- **In every state that calls reach**, `Search` rejects the indices out of range if and only if its index is not
negative, and `Union` if and only if the indices that it looks at are not negative. -/
theorem rejects_iff {size : ℤ} (hsize : 1 ≤ size) :
    ∃ s, UnionSearchSet.init size = some s ∧ ∀ t, Reach UnionSearchSet.call s t →
      (∀ idx, SearchRejects t idx ↔ 0 ≤ idx) ∧
      ∀ a b, UnionRejects t a b ↔ 0 ≤ a ∧ (0 ≤ b ∨ size ≤ a) := by
  have hinit : UnionSearchSet.init size =
      some { father := id, rank := fun _ => 1, size := size.toNat } := if_neg (by omega)
  refine ⟨_, hinit, fun t ht => ?_⟩
  have hinv : Forest t ∧ (t.size : ℤ) = size := by
    refine Reach.inv (I := fun t => Forest t ∧ (t.size : ℤ) = size) ht ⟨(init_inv hinit).forest, ?_⟩
      fun s c t hs hc => ?_
    · exact Int.toNat_of_nonneg (by omega)
    · obtain ⟨hf, hn⟩ := call_forest hs.1 hc
      exact ⟨hf, by rw [hn]; exact hs.2⟩
  refine ⟨searchRejects_iff hinv.1, fun a b => ?_⟩
  rw [unionRejects_iff hinv.1, hinv.2]

theorem rejects_iff_two : ∃ s, UnionSearchSet.init 2 = some s ∧ UnionRejects s 1 2 ∧ ¬ UnionRejects s 1 (-1) := by
  obtain ⟨s, hs, h⟩ := @rejects_iff 2 (by decide)
  refine ⟨s, hs, ((h s (ReachIf.refl s)).2 1 2).mpr (by decide), ?_⟩
  rw [(h s (ReachIf.refl s)).2 1 (-1)]
  decide

/-- `Init(1)`, then `Search(-1)` and `Union(0, -1)`: both read `m_father[-1]`. -/
theorem negative_not_rejected : ∃ s, UnionSearchSet.init 1 = some s ∧ s.father? (-1) = none ∧
    ¬ SearchRejects s (-1) ∧ ¬ UnionRejects s 0 (-1) := by
  refine ⟨_, rfl, rfl, ?_, ?_⟩
  · rintro ⟨r, s', he, -⟩
    rw [searchChecked_of_neg (by decide)] at he
    cases he
  · rintro ⟨r, s', he, -⟩
    cases he

end Backend.UnionSearch
