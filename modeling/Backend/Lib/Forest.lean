import Mathlib.Data.Finset.Card
import Mathlib.Data.Finset.Range
import Mathlib.Logic.Function.Iterate
import Mathlib.Logic.Relation

/-!
# Forests of father pointers

A forest is given by a function `f`; the roots are its fixed points. `Climbs f k x r` says that going up
from `x` one meets the root `r` after `k` steps, `Root f x r` that one meets it at all, and `Share f x y`
that `x` and `y` have a root in common.

* `Climbs.unique`, **`Climbs.lt_card`**: the way up is unique and never longer than the forest is large;
* **`root_compress`**: a node can be hung below its root;
* **`root_link`**, `share_link`: a root can be hung below another one, whose tree it then joins;
* **`climbs_of_compress`**, **`climbs_of_link`**: what these do to the length of the way up;
* `eqvGen_insert`: what one more pair adds to the equivalence that a relation generates.
-/

set_option autoImplicit false

namespace Backend

open Function

variable {ν : Type*} [DecidableEq ν] {f : ν → ν}

/-- Going up from `x`, one meets the root `r` after `k` steps. -/
inductive Climbs (f : ν → ν) : ℕ → ν → ν → Prop
  | root {r : ν} : f r = r → Climbs f 0 r r
  | up {k : ℕ} {x r : ν} : f x ≠ x → Climbs f k (f x) r → Climbs f (k + 1) x r

/-- The root of `x` is `r`. -/
def Root (f : ν → ν) (x r : ν) : Prop := ∃ k, Climbs f k x r

/-- The two nodes have a root in common. -/
def Share (f : ν → ν) (x y : ν) : Prop := ∃ r, Root f x r ∧ Root f y r

section

omit [DecidableEq ν]

theorem Climbs.fixed {k : ℕ} {x r : ν} (h : Climbs f k x r) : f r = r := by
  induction h with
  | root h => exact h
  | up _ _ ih => exact ih

theorem Climbs.unique {k k' : ℕ} {x r r' : ν} (h : Climbs f k x r) (h' : Climbs f k' x r') :
    k = k' ∧ r = r' := by
  induction h generalizing k' with
  | root h =>
    cases h' with
    | root _ => exact ⟨rfl, rfl⟩
    | up hne _ => exact absurd h hne
  | up hne _ ih =>
    cases h' with
    | root h => exact absurd h hne
    | up _ h' =>
      obtain ⟨rfl, hr⟩ := ih h'
      exact ⟨rfl, hr⟩

theorem Root.unique {x r r' : ν} (h : Root f x r) (h' : Root f x r') : r = r' :=
  (h.choose_spec.unique h'.choose_spec).2

theorem Root.fixed {x r : ν} (h : Root f x r) : f r = r := h.choose_spec.fixed

theorem Root.self {x r : ν} (h : Root f x r) : Root f r r := ⟨0, .root h.fixed⟩

theorem share_iff {x y r t : ν} (hx : Root f x r) (hy : Root f y t) : Share f x y ↔ r = t := by
  constructor
  · rintro ⟨u, hu, hu'⟩
    exact (hx.unique hu).trans (hu'.unique hy)
  · rintro rfl
    exact ⟨r, hx, hy⟩

theorem share_congr {g : ν → ν} (h : ∀ x r, Root g x r ↔ Root f x r) {x y : ν} :
    Share g x y ↔ Share f x y := by
  simp only [Share, h]

theorem Climbs.mem {k : ℕ} {x r : ν} (h : Climbs f k x r) {p : ν → Prop} (hp : ∀ y, p y → p (f y))
    (hx : p x) : p r := by
  induction h with
  | root _ => exact hx
  | up _ _ ih => exact ih (hp _ hx)

theorem Climbs.iterate {k i : ℕ} {x r : ν} (h : Climbs f k x r) (hi : i ≤ k) :
    Climbs f (k - i) (f^[i] x) r := by
  induction i generalizing k x with
  | zero => exact h
  | succ i ih =>
    cases h with
    | root _ => exact absurd hi (Nat.not_succ_le_zero i)
    | up _ h =>
      rw [Nat.add_sub_add_right, iterate_succ_apply]
      exact ih h (Nat.le_of_succ_le_succ hi)

/-- **The way up is shorter than the forest is large.** -/
theorem Climbs.lt_card {k : ℕ} {x r : ν} (h : Climbs f k x r) (S : Finset ν)
    (hS : ∀ y ∈ S, f y ∈ S) (hx : x ∈ S) : k < S.card := by
  have hmem : ∀ i, f^[i] x ∈ S := by
    intro i
    induction i with
    | zero => exact hx
    | succ i ih =>
      rw [iterate_succ_apply']
      exact hS _ ih
  have hinj : Set.InjOn (fun i => f^[i] x) (Finset.range (k + 1)) := by
    intro i hi j hj he
    simp only [Finset.coe_range, Set.mem_Iio] at hi hj he
    have hk := ((h.iterate (Nat.le_of_lt_succ hi)).unique (he ▸ h.iterate (Nat.le_of_lt_succ hj))).1
    omega
  have := Finset.card_le_card_of_injOn _ (fun i _ => hmem i) hinj
  rwa [Finset.card_range] at this

end

/-- A node that is further from its root is not on the way. -/
theorem Climbs.update {k j : ℕ} {x y r r' : ν} (h : Climbs f j y r) (hx : Climbs f k x r')
    (hlt : j < k) (z : ν) : Climbs (update f x z) j y r := by
  have hne : ∀ {i : ℕ} {u : ν}, Climbs f i u r → i < k → u ≠ x := by
    rintro i u hu hi rfl
    have := (hu.unique hx).1
    omega
  induction h with
  | root h =>
    refine .root ?_
    rw [update_of_ne (hne (.root h) hlt)]
    exact h
  | @up i u _ hu h ih =>
    have hux := hne (.up hu h) hlt
    refine .up ?_ ?_
    · rwa [update_of_ne hux]
    · rw [update_of_ne hux]
      exact ih (by omega) hne

/-- **Hanging a node below its root** changes no root. -/
theorem root_compress {x r y t : ν} (hx : Root f x r) : Root (update f x r) y t ↔ Root f y t := by
  by_cases hxr : x = r
  · subst hxr
    have hf : update f x x = f := by
      funext u
      by_cases hu : u = x
      · rw [hu, update_self, hx.fixed]
      · rw [update_of_ne hu]
    rw [hf]
  · have hr : update f x r r = r := by rw [update_of_ne (Ne.symm hxr), hx.fixed]
    constructor
    · rintro ⟨k, h⟩
      induction h with
      | @root u h =>
        by_cases hu : u = x
        · subst hu
          rw [update_self] at h
          exact absurd h.symm hxr
        · rw [update_of_ne hu] at h
          exact ⟨0, .root h⟩
      | @up k u t hu h ih =>
        by_cases hux : u = x
        · subst hux
          rw [update_self] at h
          obtain rfl := (h.unique (.root hr)).2
          exact hx
        · rw [update_of_ne hux] at hu ih
          obtain ⟨k, h⟩ := ih
          exact ⟨k + 1, .up hu h⟩
    · rintro ⟨k, h⟩
      induction h with
      | @root u h =>
        have hu : u ≠ x := by
          rintro rfl
          exact hxr (Root.unique ⟨0, .root h⟩ hx)
        exact ⟨0, .root (by rwa [update_of_ne hu])⟩
      | @up k u t hu h ih =>
        by_cases hux : u = x
        · subst hux
          obtain rfl := Root.unique ⟨k + 1, .up hu h⟩ hx
          exact ⟨1, .up (by rw [update_self]; exact Ne.symm hxr)
            (by rw [update_self]; exact .root hr)⟩
        · obtain ⟨k, h⟩ := ih
          exact ⟨k + 1, .up (by rwa [update_of_ne hux]) (by rwa [update_of_ne hux])⟩

/-- **Hanging a root below another root.** -/
theorem root_link {a b y t : ν} (ha : f a = a) (hb : f b = b) (hab : a ≠ b) (h : Root f y t) :
    Root (update f a b) y (if t = a then b else t) := by
  have hroot : update f a b b = b := by rw [update_of_ne (Ne.symm hab), hb]
  obtain ⟨k, h⟩ := h
  induction h with
  | @root u h =>
    by_cases hu : u = a
    · rw [if_pos hu, hu]
      exact ⟨1, .up (by rw [update_self]; exact Ne.symm hab) (by rw [update_self]; exact .root hroot)⟩
    · rw [if_neg hu]
      exact ⟨0, .root (by rwa [update_of_ne hu])⟩
  | @up k u t hu h ih =>
    have hua : u ≠ a := by
      rintro rfl
      exact hu ha
    obtain ⟨k, h⟩ := ih
    exact ⟨k + 1, .up (by rwa [update_of_ne hua]) (by rwa [update_of_ne hua])⟩

/-- **Hanging a node below its root makes no way longer.** -/
theorem climbs_of_compress {k : ℕ} {x r y t : ν} (hx : Root f x r) (hxr : x ≠ r)
    (h : Climbs (update f x r) k y t) : ∃ k', k ≤ k' ∧ Climbs f k' y t := by
  induction h with
  | @root u h =>
    have hu : u ≠ x := by
      rintro rfl
      rw [update_self] at h
      exact hxr h.symm
    rw [update_of_ne hu] at h
    exact ⟨0, le_rfl, .root h⟩
  | @up k u t hu h ih =>
    by_cases hux : u = x
    · subst hux
      rw [update_self] at h
      have hr : update f u r r = r := by rw [update_of_ne (Ne.symm hxr), hx.fixed]
      obtain ⟨rfl, rfl⟩ := h.unique (.root hr)
      obtain ⟨k', hk'⟩ := hx
      cases hk' with
      | root _ => exact absurd rfl hxr
      | up hne hk' => exact ⟨_, by omega, .up hne hk'⟩
    · rw [update_of_ne hux] at hu ih
      obtain ⟨k', hle, hk'⟩ := ih
      exact ⟨k' + 1, by omega, .up hu hk'⟩

/-- **Hanging a root `a` below another root `b`**: the ways that ended in `a` are longer by one. -/
theorem climbs_of_link {a b : ν} (ha : f a = a) (hb : f b = b) (hab : a ≠ b) {k : ℕ} {y t : ν}
    (h : Climbs (update f a b) k y t) : Climbs f k y t ∨ (t = b ∧ ∃ k', k = k' + 1 ∧ Climbs f k' y a) := by
  induction h with
  | @root u h =>
    have hu : u ≠ a := by
      rintro rfl
      rw [update_self] at h
      exact hab h.symm
    rw [update_of_ne hu] at h
    exact .inl (.root h)
  | @up k u t hu h ih =>
    by_cases hua : u = a
    · subst hua
      rw [update_self] at h
      obtain ⟨rfl, rfl⟩ := h.unique (.root (by rw [update_of_ne (Ne.symm hab), hb]))
      exact .inr ⟨rfl, 0, rfl, .root ha⟩
    · rw [update_of_ne hua] at hu ih
      rcases ih with hk | ⟨rfl, k', rfl, hk⟩
      · exact .inl (.up hu hk)
      · exact .inr ⟨rfl, k' + 1, rfl, .up hu hk⟩

/-- **Linking two roots joins their two trees** and nothing else. -/
theorem share_link {a b c d x y : ν} (hab : a ≠ b) (hc : Root f c a) (hd : Root f d b)
    (hx : ∃ t, Root f x t) (hy : ∃ t, Root f y t) :
    Share (update f a b) x y ↔
      Share f x y ∨ (Share f x c ∧ Share f d y) ∨ (Share f x d ∧ Share f c y) := by
  obtain ⟨t, hx⟩ := hx
  obtain ⟨u, hy⟩ := hy
  rw [share_iff (root_link hc.fixed hd.fixed hab hx) (root_link hc.fixed hd.fixed hab hy),
    share_iff hx hy, share_iff hx hc, share_iff hd hy, share_iff hx hd, share_iff hc hy]
  grind

omit [DecidableEq ν] in
theorem eqvGen_insert {R R' : ν → ν → Prop} {c d : ν}
    (hR : ∀ x y, R' x y ↔ R x y ∨ (x = c ∧ y = d)) {a b : ν} :
    Relation.EqvGen R' a b ↔ Relation.EqvGen R a b ∨
      (Relation.EqvGen R a c ∧ Relation.EqvGen R d b) ∨
      (Relation.EqvGen R a d ∧ Relation.EqvGen R c b) := by
  have hmono : ∀ {x y}, Relation.EqvGen R x y → Relation.EqvGen R' x y := fun h =>
    h.mono fun x y hxy => (hR x y).mpr (.inl hxy)
  have hcd : Relation.EqvGen R' c d := .rel _ _ ((hR c d).mpr (.inr ⟨rfl, rfl⟩))
  constructor
  · intro h
    induction h with
    | rel x y h =>
      rcases (hR x y).mp h with h | ⟨rfl, rfl⟩
      · exact .inl (.rel _ _ h)
      · exact .inr (.inl ⟨.refl _, .refl _⟩)
    | refl x => exact .inl (.refl x)
    | symm x y _ ih =>
      rcases ih with h | ⟨h, h'⟩ | ⟨h, h'⟩
      · exact .inl (h.symm _ _)
      · exact .inr (.inr ⟨h'.symm _ _, h.symm _ _⟩)
      · exact .inr (.inl ⟨h'.symm _ _, h.symm _ _⟩)
    | trans x y z _ _ ih ih' =>
      rcases ih with h | ⟨h, h₁⟩ | ⟨h, h₁⟩ <;> rcases ih' with h' | ⟨h', h₂⟩ | ⟨h', h₂⟩
      · exact .inl (h.trans _ _ _ h')
      · exact .inr (.inl ⟨h.trans _ _ _ h', h₂⟩)
      · exact .inr (.inr ⟨h.trans _ _ _ h', h₂⟩)
      · exact .inr (.inl ⟨h, h₁.trans _ _ _ h'⟩)
      · exact .inr (.inl ⟨h, h₂⟩)
      · exact .inl (h.trans _ _ _ h₂)
      · exact .inr (.inr ⟨h, h₁.trans _ _ _ h'⟩)
      · exact .inl (h.trans _ _ _ h₂)
      · exact .inr (.inr ⟨h, h₂⟩)
  · rintro (h | ⟨h, h'⟩ | ⟨h, h'⟩)
    · exact hmono h
    · exact ((hmono h).trans _ _ _ hcd).trans _ _ _ (hmono h')
    · exact ((hmono h).trans _ _ _ (hcd.symm _ _)).trans _ _ _ (hmono h')

end Backend
