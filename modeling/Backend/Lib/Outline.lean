import Mathlib.Logic.Function.Iterate
import Mathlib.Tactic.SplitIfs

/-!
# Trees from an outline

An outline is a list of labels with their depths; the label at depth `d + 1` is under the last label at depth `d` before it.

* `Trees`, `Trees.outline`: ordered trees, and their outline;
* `Hole`: trees with a place where the next one goes; `Hole.close` leaves the innermost tree, `Hole.enter` starts a tree at
  a depth, and goes no higher than the root;
* `build`: the trees of an outline, if no depth is skipped and every label is fresh among its siblings;
* **`build_outline`**: the trees come back from their outline;
* **`outline_of_build`**, `labels_of_build`: what is built has the entries of the outline, in their order;
  `fresh_of_build`: and fresh labels everywhere.
-/

set_option autoImplicit false

namespace Backend

open Function

/-- Trees in a row: the label of the first one, the trees under it, and the other ones. -/
inductive Trees (α : Type*)
  | nil
  | cons (a : α) (kids rest : Trees α)
  deriving DecidableEq

variable {α : Type*}

namespace Trees

/-- The trees of `f` and then those of `g`. -/
def append : Trees α → Trees α → Trees α
  | nil, g => g
  | cons a kids rest, g => cons a kids (rest.append g)

/-- One more tree. -/
def snoc (f : Trees α) (a : α) (kids : Trees α) : Trees α := f.append (cons a kids nil)

/-- The labels of the roots. -/
def labels : Trees α → List α
  | nil => []
  | cons a _ rest => a :: rest.labels

/-- All labels. -/
def all : Trees α → List α
  | nil => []
  | cons a kids rest => a :: (kids.all ++ rest.all)

/-- The labels with their depths, the roots at depth `d`. -/
def outline (d : ℕ) : Trees α → List (ℕ × α)
  | nil => []
  | cons a kids rest => (d, a) :: (kids.outline (d + 1) ++ rest.outline d)

/-- Every label may join the labels before it among its siblings; `seen` are those before the first tree. -/
def Fresh (fresh : List α → α → Bool) : List α → Trees α → Prop
  | _, nil => True
  | seen, cons a kids rest => fresh seen a = true ∧ kids.Fresh fresh [] ∧ rest.Fresh fresh (seen ++ [a])

theorem append_nil (f : Trees α) : f.append nil = f := by
  induction f with
  | nil => rfl
  | cons a kids rest _ ih => rw [append, ih]

theorem append_assoc (f g h : Trees α) : (f.append g).append h = f.append (g.append h) := by
  induction f with
  | nil => rfl
  | cons a kids rest _ ih => rw [append, append, append, ih]

theorem snoc_append (f : Trees α) (a : α) (kids g : Trees α) : (f.snoc a kids).append g = f.append (cons a kids g) := by
  rw [snoc, append_assoc]
  rfl

theorem labels_append (f g : Trees α) : (f.append g).labels = f.labels ++ g.labels := by
  induction f with
  | nil => rfl
  | cons a kids rest _ ih => rw [append, labels, labels, ih, List.cons_append]

theorem outline_append (d : ℕ) (f g : Trees α) : (f.append g).outline d = f.outline d ++ g.outline d := by
  induction f with
  | nil => rfl
  | cons a kids rest _ ih => rw [append, outline, outline, ih, List.cons_append, List.append_assoc]

theorem outline_snoc (d : ℕ) (f : Trees α) (a : α) (kids : Trees α) :
    (f.snoc a kids).outline d = f.outline d ++ (d, a) :: kids.outline (d + 1) := by
  rw [snoc, outline_append, outline, outline, List.append_nil]

theorem map_outline (d : ℕ) (f : Trees α) : (f.outline d).map Prod.snd = f.all := by
  induction f generalizing d with
  | nil => rfl
  | cons a kids rest ihk ihr => rw [outline, all, List.map_cons, List.map_append, ihk, ihr]

theorem fresh_append {fresh : List α → α → Bool} {f g : Trees α} {seen : List α} :
    (f.append g).Fresh fresh seen ↔ f.Fresh fresh seen ∧ g.Fresh fresh (seen ++ f.labels) := by
  induction f generalizing seen with
  | nil => rw [append, labels, List.append_nil, Fresh, true_and]
  | cons a kids rest _ ih =>
    rw [append, Fresh, Fresh, ih, labels, List.append_assoc, List.singleton_append, and_assoc, and_assoc]

theorem fresh_snoc {fresh : List α → α → Bool} {f kids : Trees α} {a : α} (hf : f.Fresh fresh [])
    (ha : fresh f.labels a = true) (hk : kids.Fresh fresh []) : (f.snoc a kids).Fresh fresh [] :=
  fresh_append.mpr ⟨hf, ha, hk, trivial⟩

end Trees

/-- Trees with a place for the next one: `here` are the trees before it with the same father; `up` has the fathers, the
innermost one first, each with the trees before it. -/
@[ext] structure Hole (α : Type*) where
  here : Trees α
  up : List (α × Trees α)

namespace Hole

/-- The father of the place is left. -/
def close : Hole α → Hole α
  | ⟨here, []⟩ => ⟨here, []⟩
  | ⟨here, (a, f) :: up⟩ => ⟨f.snoc a here, up⟩

/-- A new father for the place. -/
def start (z : Hole α) (a : α) : Hole α := ⟨.nil, (a, z.here) :: z.up⟩

/-- A label at the depth `d` behind one at the depth `last`. -/
def enter (z : Hole α) (last d : ℕ) (a : α) : Hole α := (close^[last + 1 - d] z).start a

/-- All trees, when nothing more comes. -/
def trees (z : Hole α) : Trees α := z.up.foldl (fun f p => p.2.snoc p.1 f) z.here

/-- The entries of the fathers and of what is before them. -/
def outlineUp : List (α × Trees α) → List (ℕ × α)
  | [] => []
  | (a, f) :: up => outlineUp up ++ f.outline up.length ++ [(up.length, a)]

/-- The entries so far. -/
def outline (z : Hole α) : List (ℕ × α) := outlineUp z.up ++ z.here.outline z.up.length

/-- Every label so far is fresh. -/
def Fresh (fresh : List α → α → Bool) (z : Hole α) : Prop :=
  z.here.Fresh fresh [] ∧ ∀ p ∈ z.up, p.2.Fresh fresh [] ∧ fresh p.2.labels p.1 = true

theorem trees_close (z : Hole α) : z.close.trees = z.trees := by
  obtain ⟨here, up⟩ := z
  cases up with
  | nil => rfl
  | cons p up => rfl

theorem trees_iterate (n : ℕ) (z : Hole α) : (close^[n] z).trees = z.trees := by
  induction n generalizing z with
  | zero => rfl
  | succ n ih => rw [iterate_succ_apply, ih, trees_close]

theorem outline_close (z : Hole α) : z.close.outline = z.outline := by
  obtain ⟨here, up⟩ := z
  cases up with
  | nil => rfl
  | cons p up =>
    simp only [outline, close, outlineUp, Trees.outline_snoc, List.length_cons, List.append_assoc, List.singleton_append]

theorem outline_iterate (n : ℕ) (z : Hole α) : (close^[n] z).outline = z.outline := by
  induction n generalizing z with
  | zero => rfl
  | succ n ih => rw [iterate_succ_apply, ih, outline_close]

theorem length_iterate (n : ℕ) (z : Hole α) : (close^[n] z).up.length = z.up.length - n := by
  induction n generalizing z with
  | zero => rfl
  | succ n ih =>
    obtain ⟨here, up⟩ := z
    rw [iterate_succ_apply, ih]
    cases up with
    | nil => rw [close, List.length_nil, Nat.zero_sub, Nat.zero_sub]
    | cons p up => rw [close, List.length_cons, Nat.add_sub_add_right]

theorem outline_start (z : Hole α) (a : α) : (z.start a).outline = z.outline ++ [(z.up.length, a)] := by
  rw [start, outline, outlineUp, Trees.outline, List.append_nil]
  rfl

theorem outline_trees (z : Hole α) : z.trees.outline 0 = z.outline := by
  obtain ⟨here, up⟩ := z
  induction up generalizing here with
  | nil => rfl
  | cons p up ih => rw [← trees_close, close, ih, ← outline_close ⟨here, p :: up⟩, close]

theorem Fresh.close {fresh : List α → α → Bool} {z : Hole α} (h : z.Fresh fresh) : z.close.Fresh fresh := by
  obtain ⟨here, up⟩ := z
  cases up with
  | nil => exact h
  | cons p up =>
    obtain ⟨hf, ha⟩ := h.2 p List.mem_cons_self
    exact ⟨Trees.fresh_snoc hf ha h.1, fun q hq => h.2 q (List.mem_cons_of_mem p hq)⟩

theorem Fresh.iterate {fresh : List α → α → Bool} (n : ℕ) {z : Hole α} (h : z.Fresh fresh) :
    (Hole.close^[n] z).Fresh fresh := by
  induction n generalizing z with
  | zero => exact h
  | succ n ih => exact ih h.close

theorem Fresh.start {fresh : List α → α → Bool} {z : Hole α} (h : z.Fresh fresh) {a : α}
    (ha : fresh z.here.labels a = true) : (z.start a).Fresh fresh := by
  refine ⟨trivial, fun p hp => ?_⟩
  rcases List.mem_cons.mp hp with rfl | hp
  · exact ⟨h.1, ha⟩
  · exact h.2 p hp

theorem Fresh.trees {fresh : List α → α → Bool} {z : Hole α} (h : z.Fresh fresh) : z.trees.Fresh fresh [] := by
  obtain ⟨here, up⟩ := z
  induction up generalizing here with
  | nil => exact h.1
  | cons p up ih => exact ih _ h.close

end Hole

/-! ## Building -/

variable (fresh : List α → α → Bool)

/-- One entry: no depth may be skipped, and the label must be fresh. -/
def place (s : Hole α × ℕ) (e : ℕ × α) : Option (Hole α × ℕ) :=
  if s.2 + 1 < e.1 then none
  else if fresh (Hole.close^[s.2 + 1 - e.1] s.1).here.labels e.2 then some (s.1.enter s.2 e.1 e.2, e.1) else none

/-- Entries one after the other. -/
def placeAll : Hole α × ℕ → List (ℕ × α) → Option (Hole α × ℕ)
  | s, [] => some s
  | s, e :: l => (place fresh s e).bind fun s => placeAll s l

/-- The trees of an outline. -/
def build (l : List (ℕ × α)) : Option (Trees α) := (placeAll fresh (⟨.nil, []⟩, 0) l).map fun s => s.1.trees

variable {fresh}

theorem placeAll_append (s : Hole α × ℕ) (l l' : List (ℕ × α)) :
    placeAll fresh s (l ++ l') = (placeAll fresh s l).bind fun s => placeAll fresh s l' := by
  induction l generalizing s with
  | nil => rfl
  | cons e l ih =>
    rw [List.cons_append, placeAll, placeAll]
    cases place fresh s e with
    | none => rfl
    | some s => exact ih s

theorem place_eq_some {s s' : Hole α × ℕ} {e : ℕ × α} (h : place fresh s e = some s') :
    e.1 ≤ s.2 + 1 ∧ fresh (Hole.close^[s.2 + 1 - e.1] s.1).here.labels e.2 = true ∧ s' = (s.1.enter s.2 e.1 e.2, e.1) := by
  unfold place at h
  split_ifs at h with hd hf
  exact ⟨Nat.le_of_not_lt hd, hf, (Option.some.inj h).symm⟩

/-- The place at the depth `d` can be reached, with the trees `here` and below `up`. -/
def Reaches (d : ℕ) (here : Trees α) (up : List (α × Trees α)) (s : Hole α × ℕ) : Prop :=
  d ≤ s.2 + 1 ∧ Hole.close^[s.2 + 1 - d] s.1 = ⟨here, up⟩

theorem Reaches.up {d : ℕ} {here f : Trees α} {a : α} {up : List (α × Trees α)} {s : Hole α × ℕ}
    (h : Reaches (d + 1) here ((a, f) :: up) s) : Reaches d (f.snoc a here) up s := by
  have hd := h.1
  have hcount : s.2 + 1 - d = (s.2 + 1 - (d + 1)) + 1 := by omega
  refine ⟨by omega, ?_⟩
  rw [hcount, iterate_succ_apply', h.2, Hole.close]

theorem Reaches.enter {d : ℕ} {here : Trees α} {up : List (α × Trees α)} {s : Hole α × ℕ} (h : Reaches d here up s) (a : α) :
    Reaches (d + 1) .nil ((a, here) :: up) (s.1.enter s.2 d a, d) := by
  refine ⟨Nat.le_refl _, ?_⟩
  rw [Nat.sub_self, Hole.enter, h.2]
  rfl

/-- The entries of trees, from a place that can be reached: the trees are put there. -/
theorem placeAll_outline (f : Trees α) {d : ℕ} {here : Trees α} {up : List (α × Trees α)} {s : Hole α × ℕ}
    (h : Reaches d here up s) (hf : f.Fresh fresh here.labels) :
    ∃ s', placeAll fresh s (f.outline d) = some s' ∧ Reaches d (here.append f) up s' := by
  induction f generalizing d here up s with
  | nil => exact ⟨s, rfl, by rwa [Trees.append_nil]⟩
  | cons a kids rest ihk ihr =>
    obtain ⟨ha, hk, hr⟩ := hf
    have hplace : place fresh s (d, a) = some (s.1.enter s.2 d a, d) := by
      rw [place, if_neg (Nat.not_lt.mpr h.1), h.2, if_pos ha]
    obtain ⟨s₁, hs₁, h₁⟩ := ihk (h.enter a) hk
    have hlabels : (here.snoc a kids).labels = here.labels ++ [a] := Trees.labels_append _ _
    obtain ⟨s₂, hs₂, h₂⟩ := ihr h₁.up (by rwa [Trees.append, hlabels])
    refine ⟨s₂, ?_, ?_⟩
    · rw [Trees.outline, placeAll, hplace, Option.bind_some, placeAll_append, hs₁, Option.bind_some, hs₂]
    · rwa [Trees.append, Trees.snoc_append] at h₂

/-- **Trees come back** from their outline. -/
theorem build_outline {f : Trees α} (hf : f.Fresh fresh []) : build fresh (f.outline 0) = some f := by
  have hroot : Reaches 0 .nil [] ((⟨.nil, []⟩, 0) : Hole α × ℕ) := ⟨Nat.zero_le _, rfl⟩
  obtain ⟨s, hs, h⟩ := placeAll_outline f hroot hf
  rw [build, hs, Option.map_some, ← Hole.trees_iterate (s.2 + 1 - 0) s.1, h.2]
  rfl

theorem placeAll_induction {P : Hole α × ℕ → List (ℕ × α) → Prop}
    (step : ∀ s s' l e, P s l → place fresh s e = some s' → P s' (l ++ [e])) {s s' : Hole α × ℕ} {l l' : List (ℕ × α)}
    (h : P s l) (hs : placeAll fresh s l' = some s') : P s' (l ++ l') := by
  induction l' generalizing s l with
  | nil =>
    rw [placeAll, Option.some.injEq] at hs
    rwa [List.append_nil, ← hs]
  | cons e l' ih =>
    rw [placeAll] at hs
    obtain ⟨s₁, hs₁, hs⟩ := Option.bind_eq_some_iff.mp hs
    have h₁ := ih (step s s₁ l e h hs₁) hs
    rwa [List.append_assoc] at h₁

theorem build_eq_some {l : List (ℕ × α)} {f : Trees α} (h : build fresh l = some f) :
    ∃ s, placeAll fresh (⟨.nil, []⟩, 0) l = some s ∧ s.1.trees = f :=
  Option.map_eq_some_iff.mp h

theorem fresh_of_build {l : List (ℕ × α)} {f : Trees α} (h : build fresh l = some f) : f.Fresh fresh [] := by
  obtain ⟨s, hs, rfl⟩ := build_eq_some h
  have hroot : (⟨.nil, []⟩ : Hole α).Fresh fresh := ⟨trivial, fun p hp => absurd hp List.not_mem_nil⟩
  have hrun := placeAll_induction (P := fun s _ => s.1.Fresh fresh)
    (fun s s' l e hp he => by
      obtain ⟨_, hf, rfl⟩ := place_eq_some he
      exact (hp.iterate _).start hf) (l := []) hroot hs
  exact hrun.trees

theorem labels_of_build {l : List (ℕ × α)} {f : Trees α} (h : build fresh l = some f) : f.all = l.map Prod.snd := by
  obtain ⟨s, hs, rfl⟩ := build_eq_some h
  have hrun := placeAll_induction (P := fun s l => s.1.outline.map Prod.snd = l.map Prod.snd)
    (fun s s' l e hp he => by
      obtain ⟨_, _, rfl⟩ := place_eq_some he
      rw [Hole.enter, Hole.outline_start, Hole.outline_iterate, List.map_append, hp, List.map_append]
      rfl) (l := []) rfl hs
  rw [← Trees.map_outline 0, Hole.outline_trees]
  exact hrun

/-- **The outline of what is built** is the given one, if it starts at depth 0. -/
theorem outline_of_build {l : List (ℕ × α)} {f : Trees α} (h : build fresh l = some f)
    (h0 : ∀ e ∈ l.head?, e.1 = 0) : f.outline 0 = l := by
  obtain ⟨s, hs, rfl⟩ := build_eq_some h
  rw [Hole.outline_trees]
  cases l with
  | nil =>
    rw [placeAll, Option.some.injEq] at hs
    rw [← hs]
    rfl
  | cons e l =>
    rw [placeAll] at hs
    obtain ⟨s₁, he, hs⟩ := Option.bind_eq_some_iff.mp hs
    have hfirst : s₁.1.outline = [e] ∧ s₁.1.up.length = s₁.2 + 1 := by
      obtain ⟨d, a⟩ := e
      obtain rfl : d = 0 := h0 (d, a) rfl
      obtain ⟨_, _, rfl⟩ := place_eq_some he
      exact ⟨rfl, rfl⟩
    have hrun := placeAll_induction (P := fun s l => s.1.outline = l ∧ s.1.up.length = s.2 + 1)
      (fun s s' l e hp he => by
        obtain ⟨hle, _, rfl⟩ := place_eq_some he
        have hlen : (Hole.close^[s.2 + 1 - e.1] s.1).up.length = e.1 := by
          rw [Hole.length_iterate, hp.2]
          omega
        constructor
        · rw [Hole.enter, Hole.outline_start, Hole.outline_iterate, hp.1, hlen]
        · rw [Hole.enter, Hole.start, List.length_cons, hlen]) hfirst hs
    exact hrun.1

end Backend
