import Mathlib.Data.Nat.Notation
import Mathlib.Tactic.Common

/-!
# Connectives without parentheses

A tree of `∧` and `∨` over leaves, and the chain that is left of it without parentheses, where `∧` binds
tighter. The `i`-th leaf from the left stands for `v i`.

* `BoolTree`, `BoolTree.eval`, `BoolTree.map`: the tree, its truth value, and another tree of the same form;
* `chainValue`, `BoolTree.flat`: the truth value of the chain;
* **`BoolTree.flat_eq_eval_iff`**: the two agree for all values of the leaves exactly when no `∨` is inside an
  operand of an `∧`.
-/

set_option autoImplicit false

namespace Backend

/-- The two connectives. -/
inductive Conn where
  | and
  | or
deriving DecidableEq, Repr

/-- The truth function of a connective. -/
def Conn.apply : Conn → Bool → Bool → Bool
  | .and, a, b => a && b
  | .or, a, b => a || b

/-- A tree of connectives. -/
inductive BoolTree (α : Type*) where
  | leaf (a : α)
  | node (c : Conn) (e f : BoolTree α)

variable {α : Type*}

/-- The number of leaves. -/
def BoolTree.size : BoolTree α → ℕ
  | .leaf _ => 1
  | .node _ e f => e.size + f.size

/-- The leaves from left to right. -/
def BoolTree.leaves : BoolTree α → List α
  | .leaf a => [a]
  | .node _ e f => e.leaves ++ f.leaves

/-- The connectives from left to right. -/
def BoolTree.conns : BoolTree α → List Conn
  | .leaf _ => []
  | .node c e f => e.conns ++ c :: f.conns

/-- The truth value of a tree whose first leaf is leaf `k`. -/
def BoolTree.eval (v : ℕ → Bool) : ℕ → BoolTree α → Bool
  | k, .leaf _ => v k
  | k, .node c e f => c.apply (e.eval v k) (f.eval v (k + e.size))

/-- No `∨` in the tree. -/
def BoolTree.noOr : BoolTree α → Bool
  | .leaf _ => true
  | .node .and e f => e.noOr && f.noOr
  | .node .or _ _ => false

/-- No `∨` inside an operand of an `∧`. -/
def BoolTree.orOfAnds : BoolTree α → Bool
  | .leaf _ => true
  | .node .and e f => e.noOr && f.noOr
  | .node .or e f => e.orOfAnds && f.orOfAnds

/-- The truth value of a chain without parentheses; `cur` is the value of the conjunction that is being read
and `k` the next leaf. -/
def chainValue (v : ℕ → Bool) : ℕ → Bool → List Conn → Bool
  | _, cur, [] => cur
  | k, cur, .and :: cs => chainValue v (k + 1) (cur && v k) cs
  | k, cur, .or :: cs => cur || chainValue v (k + 1) (v k) cs

/-- The truth value of a tree without its parentheses. -/
def BoolTree.flat (v : ℕ → Bool) (k : ℕ) (e : BoolTree α) : Bool := chainValue v (k + 1) (v k) e.conns

theorem BoolTree.size_eq (e : BoolTree α) : e.size = e.conns.length + 1 := by
  induction e with
  | leaf a => rfl
  | node c e f ihe ihf =>
    simp only [size, conns, List.length_append, List.length_cons, ihe, ihf]
    omega

/-- The tree with `f` applied to its leaves. -/
def BoolTree.map {β : Type*} (f : α → β) : BoolTree α → BoolTree β
  | .leaf a => .leaf (f a)
  | .node c e e' => .node c (e.map f) (e'.map f)

theorem BoolTree.leaves_map {β : Type*} (f : α → β) (e : BoolTree α) : (e.map f).leaves = e.leaves.map f := by
  induction e with
  | leaf a => rfl
  | node c e e' ihe ihe' => rw [map, leaves, ihe, ihe', leaves, List.map_append]

theorem BoolTree.size_map {β : Type*} (f : α → β) (e : BoolTree α) : (e.map f).size = e.size := by
  induction e with
  | leaf a => rfl
  | node c e e' ihe ihe' => rw [map, size, ihe, ihe', size]

theorem BoolTree.noOr_iff (e : BoolTree α) : e.noOr = true ↔ Conn.or ∉ e.conns := by
  induction e with
  | leaf a => simp [noOr, conns]
  | node c e f ihe ihf => cases c <;> simp [noOr, conns, ihe, ihf]

/-! ## Chains -/

section Chain

variable (v : ℕ → Bool) (k : ℕ) (cur : Bool)

theorem chainValue_append_or (cs ds : List Conn) : chainValue v k cur (cs ++ .or :: ds) =
    (chainValue v k cur cs || chainValue v (k + cs.length + 1) (v (k + cs.length)) ds) := by
  induction cs generalizing k cur with
  | nil => rfl
  | cons c cs ih =>
    have hk : k + 1 + cs.length = k + (cs.length + 1) := by omega
    cases c with
    | and => simp only [List.cons_append, chainValue, ih, hk, List.length_cons]
    | or => simp only [List.cons_append, chainValue, ih, hk, List.length_cons, Bool.or_assoc]

theorem chainValue_append_and (cs ds : List Conn) (hcs : Conn.or ∉ cs) : chainValue v k cur (cs ++ .and :: ds) =
    chainValue v (k + cs.length + 1) (chainValue v k cur cs && v (k + cs.length)) ds := by
  induction cs generalizing k cur with
  | nil => rfl
  | cons c cs ih =>
    have hk : k + 1 + cs.length = k + (cs.length + 1) := by omega
    cases c with
    | and =>
      rw [List.cons_append, chainValue, ih _ _ (fun h => hcs (List.mem_cons_of_mem _ h)), hk]
      rfl
    | or => exact absurd List.mem_cons_self hcs

theorem chainValue_and (b : Bool) (cs : List Conn) (hcs : Conn.or ∉ cs) :
    chainValue v k (cur && b) cs = (cur && chainValue v k b cs) := by
  induction cs generalizing k b with
  | nil => rfl
  | cons c cs ih =>
    cases c with
    | and => rw [chainValue, Bool.and_assoc, ih _ _ (fun h => hcs (List.mem_cons_of_mem _ h)), chainValue]
    | or => exact absurd List.mem_cons_self hcs

theorem chainValue_of_or (cs ds : List Conn) (hor : Conn.or ∈ cs)
    (hv : ∀ i, k ≤ i → i < k + cs.length → v i = true) : chainValue v k true (cs ++ ds) = true := by
  induction cs generalizing k with
  | nil => exact absurd hor List.not_mem_nil
  | cons c cs ih =>
    cases c with
    | and =>
      rw [List.cons_append, chainValue, hv k (Nat.le_refl _) (by simp), Bool.and_true]
      apply ih
      · simpa using hor
      · exact fun i hi hlt => hv i (by omega) (by rw [List.length_cons]; omega)
    | or => simp [chainValue]

theorem chainValue_true (cs : List Conn) (hv : ∀ i, k ≤ i → v i = true) : chainValue v k true cs = true := by
  induction cs generalizing k with
  | nil => rfl
  | cons c cs ih =>
    cases c with
    | and =>
      rw [chainValue, hv k (Nat.le_refl _)]
      exact ih _ (fun i hi => hv i (by omega))
    | or => rw [chainValue, Bool.true_or]

theorem chainValue_of_or_end (cs : List Conn) (hor : Conn.or ∈ cs) (hv : ∀ i, k ≤ i → v i = true) :
    chainValue v k cur cs = true := by
  induction cs generalizing k cur with
  | nil => exact absurd hor List.not_mem_nil
  | cons c cs ih =>
    have hv' : ∀ i, k + 1 ≤ i → v i = true := fun i hi => hv i (by omega)
    cases c with
    | and =>
      apply ih
      · simpa using hor
      · exact hv'
    | or => rw [chainValue, hv k (Nat.le_refl _), chainValue_true v _ cs hv', Bool.or_true]

theorem chainValue_append_of_or_end (cs ds : List Conn) (hor : Conn.or ∈ ds)
    (hv : ∀ i, k + cs.length ≤ i → v i = true) : chainValue v k cur (cs ++ ds) = true := by
  induction cs generalizing k cur with
  | nil => exact chainValue_of_or_end v k cur ds hor hv
  | cons c cs ih =>
    have hv' : ∀ i, k + 1 + cs.length ≤ i → v i = true := fun i hi => hv i (by rw [List.length_cons]; omega)
    cases c with
    | and => exact ih _ _ hv'
    | or => rw [List.cons_append, chainValue, ih _ _ hv', Bool.or_true]

theorem chainValue_congr {w : ℕ → Bool} (cs : List Conn) (hv : ∀ i, k ≤ i → i < k + cs.length → v i = w i) :
    chainValue v k cur cs = chainValue w k cur cs := by
  induction cs generalizing k cur with
  | nil => rfl
  | cons c cs ih =>
    have hk : v k = w k := hv k (Nat.le_refl _) (by simp)
    have hv' : ∀ i, k + 1 ≤ i → i < k + 1 + cs.length → v i = w i :=
      fun i hi hlt => hv i (by omega) (by rw [List.length_cons]; omega)
    cases c with
    | and => rw [chainValue, chainValue, hk, ih _ _ hv']
    | or => rw [chainValue, chainValue, hk, ih _ _ hv']

end Chain

namespace BoolTree

variable (v : ℕ → Bool) (k : ℕ) (e f : BoolTree α)

theorem flat_or : flat v k (node .or e f) = (flat v k e || flat v (k + e.size) f) := by
  have hk : k + 1 + e.conns.length = k + e.size := by rw [size_eq]; omega
  rw [flat, conns, chainValue_append_or, hk]
  rfl

theorem flat_and (he : e.noOr = true) (hf : f.noOr = true) :
    flat v k (node .and e f) = (flat v k e && flat v (k + e.size) f) := by
  have hk : k + 1 + e.conns.length = k + e.size := by rw [size_eq]; omega
  rw [flat, conns, chainValue_append_and _ _ _ _ _ ((noOr_iff e).mp he), hk,
    chainValue_and _ _ _ _ _ ((noOr_iff f).mp hf)]
  rfl

theorem flat_eq_eval_of_noOr (he : e.noOr = true) : flat v k e = eval v k e := by
  induction e generalizing k with
  | leaf a => rfl
  | node c e f ihe ihf =>
    cases c with
    | and =>
      obtain ⟨h₁, h₂⟩ := Bool.and_eq_true_iff.mp he
      rw [flat_and v k e f h₁ h₂, ihe k h₁, ihf _ h₂]
      rfl
    | or => exact absurd he Bool.false_ne_true

theorem flat_eq_eval_of_orOfAnds (he : e.orOfAnds = true) : flat v k e = eval v k e := by
  induction e generalizing k with
  | leaf a => rfl
  | node c e f ihe ihf =>
    cases c with
    | and => exact flat_eq_eval_of_noOr v k _ he
    | or =>
      obtain ⟨h₁, h₂⟩ := Bool.and_eq_true_iff.mp he
      rw [flat_or, ihe k h₁, ihf _ h₂]
      rfl

/-! ## Where a tree and its chain differ -/

theorem eval_congr {w : ℕ → Bool} (hv : ∀ i, k ≤ i → i < k + e.size → v i = w i) : eval v k e = eval w k e := by
  induction e generalizing k with
  | leaf a => exact hv k (Nat.le_refl _) (by simp [size])
  | node c e f ihe ihf =>
    rw [eval, eval, ihe k (fun i hi hlt => hv i hi (by rw [size]; omega)),
      ihf (k + e.size) (fun i hi hlt => hv i (by omega) (by rw [size]; omega))]

theorem flat_congr {w : ℕ → Bool} (hv : ∀ i, k ≤ i → i < k + e.size → v i = w i) : flat v k e = flat w k e := by
  have hs := e.size_eq
  rw [flat, flat, hv k (Nat.le_refl _) (by omega)]
  exact chainValue_congr v _ _ _ (fun i hi hlt => hv i (by omega) (by omega))

theorem eval_false : eval (fun _ => false) k e = false := by
  induction e generalizing k with
  | leaf a => rfl
  | node c e f ihe ihf => cases c <;> simp [eval, ihe, ihf, Conn.apply]

theorem eval_of_false (hv : ∀ i, k ≤ i → i < k + e.size → v i = false) : eval v k e = false :=
  (eval_congr v k e hv).trans (eval_false k e)

/-- An `∨` on the left of an `∧`: the left leaves are true and the right ones false. -/
theorem flat_and_ne_left (he : e.noOr = false) : ∃ v, flat v k (node .and e f) = true ∧
    eval v k (node .and e f) = false := by
  have hor : Conn.or ∈ e.conns := by
    by_contra hc
    exact absurd ((noOr_iff e).mpr hc) (by simp [he])
  have hs := e.size_eq
  refine ⟨fun i => decide (i < k + e.size), ?_, ?_⟩
  · have hk : decide (k < k + e.size) = true := by simp [hs]
    rw [flat, conns, hk]
    apply chainValue_of_or _ _ _ _ hor
    intro i _ hlt
    exact decide_eq_true (by omega)
  · rw [eval, eval_of_false _ (k + e.size) f fun i hi _ => decide_eq_false (by omega)]
    exact Bool.and_false _

/-- An `∨` on the right of an `∧`: the left leaves are false and the right ones true. -/
theorem flat_and_ne_right (hf : f.noOr = false) : ∃ v, flat v k (node .and e f) = true ∧
    eval v k (node .and e f) = false := by
  have hor : Conn.or ∈ f.conns := by
    by_contra hc
    exact absurd ((noOr_iff f).mpr hc) (by simp [hf])
  have hs := e.size_eq
  refine ⟨fun i => decide (k + e.size ≤ i), ?_, ?_⟩
  · rw [flat, conns]
    apply chainValue_append_of_or_end _ _ _ _ _ (List.mem_cons_of_mem _ hor)
    intro i hi
    exact decide_eq_true (by omega)
  · rw [eval, eval_of_false _ k e fun i _ hlt => decide_eq_false (by omega)]
    rfl

theorem exists_flat_ne (he : e.orOfAnds = false) : ∃ v, flat v k e = true ∧ eval v k e = false := by
  induction e generalizing k with
  | leaf a => exact absurd he (by simp [orOfAnds])
  | node c e f ihe ihf =>
    cases c with
    | and =>
      rcases Bool.and_eq_false_iff.mp he with h | h
      · exact flat_and_ne_left k e f h
      · exact flat_and_ne_right k e f h
    | or =>
      -- the leaves of the other operand are all false
      rcases Bool.and_eq_false_iff.mp he with h | h
      · obtain ⟨v, hflat, heval⟩ := ihe k h
        have hv : ∀ i, k ≤ i → i < k + e.size → (decide (i < k + e.size) && v i) = v i :=
          fun i _ hlt => by simp [hlt]
        refine ⟨fun i => decide (i < k + e.size) && v i, ?_, ?_⟩
        · rw [flat_or, flat_congr _ k e hv, hflat, Bool.true_or]
        · rw [eval, eval_congr _ k e hv, heval, eval_of_false _ (k + e.size) f fun i hi _ => by simp; omega]
          rfl
      · obtain ⟨v, hflat, heval⟩ := ihf (k + e.size) h
        have hv : ∀ i, k + e.size ≤ i → i < k + e.size + f.size → (decide (k + e.size ≤ i) && v i) = v i :=
          fun i hle _ => by simp [hle]
        refine ⟨fun i => decide (k + e.size ≤ i) && v i, ?_, ?_⟩
        · rw [flat_or, flat_congr _ (k + e.size) f hv, hflat, Bool.or_true]
        · rw [eval, eval_congr _ (k + e.size) f hv, heval, eval_of_false _ k e fun i _ hlt => by simp; omega]
          rfl

/-- **A chain without parentheses means what the tree says exactly when no `∨` is inside an operand of an `∧`.** -/
theorem flat_eq_eval_iff : (∀ v, flat v k e = eval v k e) ↔ e.orOfAnds = true := by
  constructor
  · intro h
    by_contra he
    obtain ⟨v, hflat, heval⟩ := exists_flat_ne k e (Bool.eq_false_iff.mpr he)
    exact absurd ((hflat.symm.trans (h v)).trans heval) (by simp)
  · exact fun he v => flat_eq_eval_of_orOfAnds v k e he

end BoolTree

end Backend
