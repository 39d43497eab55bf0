import Backend.Sort.Walls
import Mathlib.Algebra.Order.BigOperators.Group.List

/-!
# The first phase of `EQSort`

The parts that are still to be split, the current one first, are a list of ranges of indices. Every iteration
replaces the current part by those of its two parts that are above the threshold.

* `part`, `stackOf`: the current part and the stack for a list of ranges; `splitParts`: an iteration;
* `Parts`: ranges of the array, apart from each other, each at most half of what is allowed below it;
* `FrontAt`: everything up to some `r` is at most everything behind it, and `r` is at most the threshold or ends
  the first pending part;
* **`round_spec`**, **`quickLoop_spec`**.
-/

set_option autoImplicit false

namespace Backend.Sort

open Function List

variable {size : ℕ} {c : Elem size → Elem size → ℤ} {n : ℤ} {m : Block}

/-! ## The list of parts -/

variable (size) in
/-- The bounds of a range of indices. -/
def node (p : ℤ × ℤ) : Node := some (size * p.1, size * p.2)

variable (size) in
/-- `lo` and `hi`; `NULL` when no part is left. -/
def part : List (ℤ × ℤ) → Node
  | [] => none
  | p :: _ => node size p

variable (size) in
/-- The stack, with the first `NULL` entry at its bottom; it is empty when no part is left. -/
def stackOf : List (ℤ × ℤ) → List Node
  | [] => []
  | _ :: ps => ps.map (node size) ++ [none]

/-- The pending parts after the current one has been split into `lo, …, j` and `i, …, hi`. -/
def splitParts (lo hi i j : ℤ) (ps : List (ℤ × ℤ)) : List (ℤ × ℤ) :=
  if j - lo ≤ 4 then
    if hi - i ≤ 4 then ps else (i, hi) :: ps
  else if hi - i ≤ 4 then (lo, j) :: ps
  else if j - lo > hi - i then (i, hi) :: (lo, j) :: ps
  else (lo, j) :: (i, hi) :: ps

theorem mem_splitParts {lo hi i j : ℤ} {ps : List (ℤ × ℤ)} {p : ℤ × ℤ} :
    p ∈ splitParts lo hi i j ps ↔ (p = (lo, j) ∧ 4 < j - lo) ∨ (p = (i, hi) ∧ 4 < hi - i) ∨ p ∈ ps := by
  unfold splitParts
  split_ifs <;> grind

/-- The entries of the list at most double from one to the next: the one with `k` entries below it has at most
`n / 2 ^ k` elements. -/
def Halving (n : ℤ) : List (ℤ × ℤ) → Prop
  | [] => True
  | p :: ps => (p.2 - p.1 + 1) * 2 ^ ps.length ≤ n ∧ Halving n ps

/-- The pending parts of an array of `n` elements. -/
structure Parts (n : ℤ) (ps : List (ℤ × ℤ)) : Prop where
  within : ∀ p ∈ ps, 0 ≤ p.1 ∧ p.1 + 4 ≤ p.2 ∧ p.2 < n
  apart : ps.Pairwise fun p q => p.2 < q.1 ∨ q.2 < p.1
  halving : Halving n ps

theorem halving_split {lo hi i j : ℤ} {ps : List (ℤ × ℤ)} (h : Halving n ((lo, hi) :: ps)) (hj : lo ≤ j)
    (hji : j < i) (hi' : i ≤ hi) : Halving n (splitParts lo hi i j ps) := by
  obtain ⟨htop, hps⟩ := h
  have hpos : (0 : ℤ) < 2 ^ ps.length := by positivity
  simp only at htop
  have hleft : (j - lo + 1) * 2 ^ ps.length ≤ n :=
    (mul_le_mul_of_nonneg_right (by omega) hpos.le).trans htop
  have hright : (hi - i + 1) * 2 ^ ps.length ≤ n :=
    (mul_le_mul_of_nonneg_right (by omega) hpos.le).trans htop
  -- the part that is pushed first has at least as many elements as the other
  have hhalf : ∀ k, 2 * k ≤ hi - lo + 1 → k * 2 ^ (ps.length + 1) ≤ n := by
    intro k hk
    rw [pow_succ]
    have := mul_le_mul_of_nonneg_right hk hpos.le
    linarith
  unfold splitParts
  split_ifs with h₁ h₂ h₂ h₃
  · exact hps
  · exact ⟨hright, hps⟩
  · exact ⟨hleft, hps⟩
  · exact ⟨hhalf _ (by omega), hleft, hps⟩
  · exact ⟨hhalf _ (by omega), hright, hps⟩

/-- **An iteration keeps the parts apart and the stack low.** -/
theorem Parts.split {lo hi i j : ℤ} {ps : List (ℤ × ℤ)} (h : Parts n ((lo, hi) :: ps)) (hj : lo ≤ j)
    (hji : j < i) (hi' : i ≤ hi) : Parts n (splitParts lo hi i j ps) := by
  obtain ⟨hl, -, hr⟩ := h.within (lo, hi) mem_cons_self
  obtain ⟨hap, hps⟩ := pairwise_cons.mp h.apart
  simp only at hl hr hap
  refine ⟨fun p hp => ?_, ?_, halving_split h.halving hj hji hi'⟩
  · rcases mem_splitParts.mp hp with ⟨rfl, hlt⟩ | ⟨rfl, hlt⟩ | hp
    · exact ⟨hl, by omega, by omega⟩
    · exact ⟨by omega, by omega, hr⟩
    · exact h.within p (mem_cons_of_mem _ hp)
  · have hleft : ∀ q ∈ ps, j < q.1 ∨ q.2 < lo := fun q hq => by have := hap q hq; omega
    have hright : ∀ q ∈ ps, hi < q.1 ∨ q.2 < i := fun q hq => by have := hap q hq; omega
    unfold splitParts
    split_ifs with h₁ h₂ h₂ h₃
    · exact hps
    · exact pairwise_cons.mpr ⟨hright, hps⟩
    · exact pairwise_cons.mpr ⟨hleft, hps⟩
    · refine pairwise_cons.mpr ⟨?_, pairwise_cons.mpr ⟨hleft, hps⟩⟩
      intro q hq
      rcases mem_cons.mp hq with rfl | hq
      · exact Or.inr hji
      · exact hright q hq
    · refine pairwise_cons.mpr ⟨?_, pairwise_cons.mpr ⟨hright, hps⟩⟩
      intro q hq
      rcases mem_cons.mp hq with rfl | hq
      · exact Or.inl hji
      · exact hleft q hq

/-- The elements that are still to be split. -/
def weight (ps : List (ℤ × ℤ)) : ℤ := (ps.map fun p => p.2 - p.1).sum

theorem weight_cons (p : ℤ × ℤ) (ps : List (ℤ × ℤ)) : weight (p :: ps) = p.2 - p.1 + weight ps := by
  rw [weight, map_cons, sum_cons, weight]

theorem Parts.weight_nonneg {ps : List (ℤ × ℤ)} (h : Parts n ps) : 0 ≤ weight ps := by
  apply sum_nonneg
  intro x hx
  obtain ⟨p, hp, rfl⟩ := mem_map.mp hx
  have := h.within p hp
  omega

theorem weight_split {lo hi i j : ℤ} (ps : List (ℤ × ℤ)) (hj : lo ≤ j) (hji : j < i) (hi' : i ≤ hi) :
    weight (splitParts lo hi i j ps) < weight ((lo, hi) :: ps) := by
  unfold splitParts
  split_ifs <;> simp only [weight_cons] <;> omega

/-! ## The stack of the source -/

theorem Parts.length_lt {p : ℤ × ℤ} {ps : List (ℤ × ℤ)} (h : Parts n (p :: ps)) (hn : n < 2 ^ 63) :
    ps.length < 61 := by
  obtain ⟨hle, -⟩ := h.halving
  obtain ⟨-, h4, -⟩ := h.within p mem_cons_self
  by_contra hno
  have hpow : (2 : ℤ) ^ 61 ≤ 2 ^ ps.length := pow_le_pow_right₀ (by norm_num) (by omega)
  have hmul : 4 * (2 : ℤ) ^ 61 ≤ (p.2 - p.1 + 1) * 2 ^ ps.length := mul_le_mul (by omega) hpow (by norm_num) (by omega)
  omega

theorem pop_stackOf (p : ℤ × ℤ) (ps : List (ℤ × ℤ)) :
    pop (stackOf size (p :: ps)) = some (part size ps, stackOf size ps) := by
  cases ps <;> rfl

/-- `lo` and `hi` of the array as differences of pointers. -/
theorem u64_diff (h63 : size * n < 2 ^ 63) {i j : ℤ} (hij : i ≤ j) (h : j - i ≤ n) :
    u64 ((size : ℤ) * j - size * i) = size * (j - i) := by
  have hle : (size : ℤ) * (j - i) ≤ size * n := mul_le_mul_of_nonneg_left h (by positivity)
  have h0 : (0 : ℤ) ≤ size * (j - i) := mul_nonneg (by positivity) (by omega)
  rw [← mul_sub]
  exact u64_of_lt h0 (by omega)

/-- **`nextPart`** leaves the stack for the new list of parts. -/
theorem nextPart_spec (hsize : 0 < size) (h63 : size * n < 2 ^ 63) {lo hi i j : ℤ} {ps : List (ℤ × ℤ)}
    (h : Parts n ((lo, hi) :: ps)) (hj : lo ≤ j) (hji : j < i) (hi' : i ≤ hi) :
    nextPart (u64 (maxThresh * size)) (size * lo) (size * hi) (size * i) (size * j) (stackOf size ((lo, hi) :: ps)) =
      some (part size (splitParts lo hi i j ps), stackOf size (splitParts lo hi i j ps)) := by
  have hsize' : (0 : ℤ) < size := by exact_mod_cast hsize
  obtain ⟨hl, h4, hr⟩ := h.within (lo, hi) mem_cons_self
  simp only at hl h4 hr
  have hle := le_mul_size hsize (show 0 ≤ n by omega)
  have hthresh : u64 (maxThresh * size) = size * 4 := by
    have h4n : (size : ℤ) * 4 ≤ size * n := mul_le_mul_of_nonneg_left (by omega) (by positivity)
    rw [maxThresh, mul_comm]
    exact u64_of_lt (by positivity) (by omega)
  have hlen : (stackOf size ((lo, hi) :: ps)).length < stackSize := by
    have := h.length_lt (by omega)
    rw [stackOf, length_append, length_map, length_singleton, stackSize]
    omega
  rw [nextPart, splitParts, hthresh, u64_diff h63 hj (by omega), u64_diff h63 hi' (by omega)]
  simp only [mul_le_mul_iff_right₀ hsize', ← mul_sub, gt_iff_lt, mul_lt_mul_iff_right₀ hsize']
  split_ifs with h₁ h₂ h₂ h₃
  · exact pop_stackOf _ ps
  · rfl
  · rfl
  · rw [push, if_pos hlen]
    rfl
  · rw [push, if_pos hlen]
    rfl

/-! ## The front of the array -/

/-- Everything up to `r` is at most everything behind it; the parts lie behind `r`, or `r` ends the first one. -/
structure FrontAt (c : Elem size → Elem size → ℤ) (n : ℤ) (ps : List (ℤ × ℤ)) (a : ℤ → Elem size) (r : ℤ) :
    Prop where
  nonneg : 0 ≤ r
  lt : r < n
  le : ∀ i j, 0 ≤ i → i ≤ r → r < j → j < n → c (a i) (a j) ≤ 0
  behind : ∀ p ∈ ps, p = (0, r) ∨ r < p.1
  thresh : r ≤ 4 ∨ (0, r) ∈ ps

theorem FrontAt.split (hc : TotalPreorder c) {lo hi i j r : ℤ} {ps : List (ℤ × ℤ)} {a a' : ℤ → Elem size}
    {x : Elem size} (h : FrontAt c n ((lo, hi) :: ps) a r) (hp : Parts n ((lo, hi) :: ps)) (hj : lo ≤ j)
    (hji : j < i) (hi' : i ≤ hi) (hr : Rearranged (Set.Icc lo hi) a a') (hw : Walls c x lo hi i j a') :
    ∃ r', FrontAt c n (splitParts lo hi i j ps) a' r' := by
  obtain ⟨hap, -⟩ := pairwise_cons.mp hp.apart
  obtain ⟨hl, hlh, hhn⟩ := hp.within (lo, hi) mem_cons_self
  simp only at hap hl hlh hhn
  rcases h.behind (lo, hi) mem_cons_self with heq | hlt
  · -- the first part is split, and `j` takes the place of `r`
    obtain ⟨rfl, rfl⟩ := Prod.mk.inj heq
    refine ⟨j, hj, by omega, fun k l hk hkj hl' hln => ?_, fun p hps => ?_, ?_⟩
    · by_cases hlr : l ≤ hi
      · exact hc.trans _ _ _ (hw.left k hk (by omega)) (hw.right l hl' hlr)
      · rw [hr.off (i := l) (by rw [Set.mem_Icc]; omega)]
        have hle : ∀ k ∈ Set.Icc 0 hi, c (a k) (a l) ≤ 0 := fun k hk => h.le k l hk.1 hk.2 (by omega) hln
        exact hr.forall_mem (P := fun y => c y (a l) ≤ 0) hle k ⟨hk, by omega⟩
    · rcases mem_splitParts.mp hps with ⟨rfl, -⟩ | ⟨rfl, -⟩ | hps
      · exact Or.inl rfl
      · exact Or.inr hji
      · have hq := hp.within p (mem_cons_of_mem _ hps)
        have := hap p hps
        exact Or.inr (by omega)
    · by_cases hj4 : j ≤ 4
      · exact Or.inl hj4
      · exact Or.inr (mem_splitParts.mpr (Or.inl ⟨rfl, by omega⟩))
  · simp only at hlt
    refine ⟨r, h.nonneg, h.lt, fun k l hk hkr hl' hln => ?_, fun p hps => ?_, ?_⟩
    · rw [hr.off (i := k) (by rw [Set.mem_Icc]; omega)]
      by_cases hmem : l ∈ Set.Icc lo hi
      · have hle : ∀ l ∈ Set.Icc lo hi, c (a k) (a l) ≤ 0 := fun l hl' => by
          obtain ⟨h1, h2⟩ := hl'
          exact h.le k l hk hkr (by omega) (by omega)
        exact hr.forall_mem (P := fun y => c (a k) y ≤ 0) hle l hmem
      · rw [hr.off hmem]
        exact h.le k l hk hkr hl' hln
    · rcases mem_splitParts.mp hps with ⟨rfl, -⟩ | ⟨rfl, -⟩ | hps
      · exact Or.inr hlt
      · exact Or.inr (show r < i by omega)
      · exact h.behind p (mem_cons_of_mem _ hps)
    · rcases h.thresh with h4 | hmem
      · exact Or.inl h4
      · rcases mem_cons.mp hmem with heq | hmem
        · have := (Prod.mk.inj heq).1
          have := h.nonneg
          omega
        · exact Or.inr (mem_splitParts.mpr (Or.inr (Or.inr hmem)))

/-! ## The loop -/

theorem mid_eq (hsize : 0 < size) (h63 : size * n < 2 ^ 63) {lo hi : ℤ} (hle : lo ≤ hi) (h : hi - lo ≤ n) :
    (size : ℤ) * lo + u64 (size * (u64 (size * hi - size * lo) / size / 2)) = size * (lo + (hi - lo) / 2) := by
  have hsize' : (0 : ℤ) < size := by exact_mod_cast hsize
  have hle' : (size : ℤ) * ((hi - lo) / 2) ≤ size * n := mul_le_mul_of_nonneg_left (by omega) (by positivity)
  have h0 : (0 : ℤ) ≤ size * ((hi - lo) / 2) := mul_nonneg (by positivity) (by omega)
  rw [u64_diff h63 hle h, Int.mul_ediv_cancel_left _ hsize'.ne', u64_of_lt h0 (by omega), mul_add]

/-- **The body of the loop** up to the choice of the next part. -/
theorem round_spec (hc : TotalPreorder c) (hsize : 0 < size) (h63 : size * n < 2 ^ 63) (hlen : m.len = size * n)
    {lo hi : ℤ} (h0 : 0 ≤ lo) (h4 : lo + 4 ≤ hi) (hn : hi < n) :
    ∃ (m₁ m₂ : Block) (i j : ℤ) (x : Elem size),
      medianOfThree c (size * lo) (size * (lo + (hi - lo) / 2)) (size * hi) m = some m₁ ∧
      collapse c ((size * hi - size * lo : ℤ).toNat + 1) (size * (lo + (hi - lo) / 2)) (size * lo + size)
        (size * hi - size) m₁ = some (size * i, size * j, m₂) ∧ m₂.len = m.len ∧ lo ≤ j ∧ j < i ∧ i ≤ hi ∧
      Rearranged (Set.Icc lo hi) (m.view size) (m₂.view size) ∧ Walls c x lo hi i j (m₂.view size) := by
  have hs : (size : ℤ) < 2 ^ 64 := by
    have := size_le_mul size (show 1 ≤ n by omega)
    omega
  have hle := le_mul_size hsize (show 0 ≤ hi - lo by omega)
  rw [mul_sub] at hle
  obtain ⟨m₁, he₁, hlen₁, hr₁, hlo, hhi⟩ := medianOfThree_spec hc hsize hs hlen h0
    (show lo < lo + (hi - lo) / 2 by omega) (by omega) hn
  have hw : Walls c (m₁.view size (lo + (hi - lo) / 2)) lo hi (lo + 1) (hi - 1) (m₁.view size) := by
    refine ⟨fun k hk hk' => ?_, fun k hk hk' => ?_⟩
    · rw [show k = lo by omega]
      exact hlo
    · rw [show k = hi by omega]
      exact hhi
  obtain ⟨i, j, m₂, he₂, hlen₂, hj, hji, hi', hr₂, hw₂⟩ := collapse_spec hc hsize hs h0 hn
    ((size * hi - size * lo : ℤ).toNat + 1) (hlen₁.trans hlen) (by omega) (by omega) rfl hw (by omega) (by omega)
    (by omega) (by omega)
  rw [show (size : ℤ) * (lo + 1) = size * lo + size by ring, show (size : ℤ) * (hi - 1) = size * hi - size by ring]
    at he₂
  exact ⟨m₁, m₂, i, j, _, he₁, he₂, hlen₂.trans hlen₁, hj, hji, hi', hr₁.trans hr₂, hw₂⟩

/-- A part that is processed lies in the array, its pointers stay in it, and the stack is not too high. -/
structure Visit.Ok (size : ℕ) (n : ℤ) (v : Visit) : Prop where
  nonneg : 0 ≤ v.lo
  lt : v.lo < v.hi
  within : v.hi + size ≤ size * n
  right : v.lo ≤ v.right ∧ v.right ≤ v.hi
  left : v.lo ≤ v.left ∧ v.left ≤ v.hi
  depth : v.depth ≤ stackSize

theorem visit_ok (hsize : 0 < size) (h63 : size * n < 2 ^ 63) {lo hi i j : ℤ} {ps : List (ℤ × ℤ)}
    (h : Parts n ((lo, hi) :: ps)) (hj : lo ≤ j) (hji : j < i) (hi' : i ≤ hi) :
    Visit.Ok size n ⟨size * lo, size * hi, (stackOf size ((lo, hi) :: ps)).length, size * i, size * j⟩ := by
  have hsize' : (0 : ℤ) < size := by exact_mod_cast hsize
  obtain ⟨h0, h4, hn⟩ := h.within (lo, hi) mem_cons_self
  simp only at h0 h4 hn
  have hle := le_mul_size hsize (show 0 ≤ n by omega)
  have hmono : ∀ k l : ℤ, k ≤ l → (size : ℤ) * k ≤ size * l :=
    fun k l hkl => mul_le_mul_of_nonneg_left hkl hsize'.le
  have hlen := h.length_lt (by omega)
  refine ⟨by positivity, mul_lt_mul_of_pos_left (by omega) hsize', mul_add_le size hn,
    ⟨hmono _ _ hj, hmono _ _ (by omega)⟩, ⟨hmono _ _ (by omega), hmono _ _ hi'⟩, ?_⟩
  simp only [stackOf, length_append, length_map, length_singleton, stackSize]
  omega

/-- **The first phase** ends, permutes the elements and leaves the smallest ones in front. -/
theorem quickLoop_spec (hc : TotalPreorder c) (hsize : 0 < size) (h63 : size * n < 2 ^ 63) (fuel : ℕ)
    {ps : List (ℤ × ℤ)} {m : Block} {r : ℤ} (hlen : m.len = size * n) (hp : Parts n ps)
    (hfront : FrontAt c n ps (m.view size) r) (hf : weight ps < fuel) :
    ∃ m' visits, quickLoop c (u64 (maxThresh * size)) fuel (part size ps) (stackOf size ps) m = some (m', visits) ∧
      m'.len = m.len ∧ Rearranged (Set.Ico 0 n) (m.view size) (m'.view size) ∧
      (∃ r', FrontAt c n [] (m'.view size) r') ∧ ∀ v ∈ visits, v.Ok size n := by
  induction fuel generalizing ps m r with
  | zero =>
    have := hp.weight_nonneg
    omega
  | succ fuel ih =>
    rw [quickLoop]
    cases ps with
    | nil => exact ⟨m, [], rfl, rfl, Rearranged.refl _ _, ⟨r, hfront⟩, fun v hv => absurd hv not_mem_nil⟩
    | cons p ps =>
      obtain ⟨lo, hi⟩ := p
      obtain ⟨h0, h4, hn⟩ := hp.within (lo, hi) mem_cons_self
      simp only at h0 h4 hn
      obtain ⟨m₁, m₂, i, j, x, he₁, he₂, hlen₂, hj, hji, hi', hr, hw⟩ := round_spec hc hsize h63 hlen h0 h4 hn
      obtain ⟨r₂, hfront₂⟩ := hfront.split hc hp hj hji hi' hr hw
      have hweight := weight_split ps hj hji hi'
      obtain ⟨m', visits, he, hlen', hr', hfront', hok⟩ := ih (hlen₂.trans hlen) (hp.split hj hji hi') hfront₂
        (by omega)
      have hsub : Set.Icc lo hi ⊆ Set.Ico 0 n :=
        (Set.Icc_subset_Ico_right hn).trans (Set.Ico_subset_Ico_left h0)
      refine ⟨m', ⟨size * lo, size * hi, (stackOf size ((lo, hi) :: ps)).length, size * i, size * j⟩ :: visits,
        ?_, hlen'.trans hlen₂, (hr.mono hsub).trans hr', hfront', fun v hv => ?_⟩
      · have hne : (stackOf size ((lo, hi) :: ps)).isEmpty = false := by
          rw [stackOf, isEmpty_eq_false_iff]
          exact append_ne_nil_of_right_ne_nil _ (cons_ne_nil _ _)
        rw [hne]
        simp only [Bool.false_eq_true, if_false, part, node, Option.bind_eq_bind, Option.bind_some]
        rw [mid_eq hsize h63 (by omega) (by omega), he₁, Option.bind_some, he₂, Option.bind_some,
          nextPart_spec hsize h63 hp hj hji hi', Option.bind_some, he, Option.bind_some]
      · rcases mem_cons.mp hv with rfl | hv
        · exact visit_ok hsize h63 hp hj hji hi'
        · exact hok v hv

end Backend.Sort
