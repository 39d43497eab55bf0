import Backend.Sql.Model
import Mathlib.Data.List.Basic

/-!
# What is gathered from a condition (`service_tornado/src/mysql.py`)

`get_sql` and `get_params` go through a condition in the same way: what an object has itself comes first, and then for
each pair of `_sub_conds` what goes with its connective and what the operand gives.

* `Fresh`: the comparisons of an expression are of distinct fresh objects;
* `gather`, `gathered`: what is gathered from an object, and from the comparisons and connectives of an expression;
* `Gathers`, **`build_gathers`**: with the methods called by name, the object of an expression gives what the
  expression gives, from left to right;
* `getSql_eq_gather`, `getParams_eq_gather`: the two functions.
-/

set_option autoImplicit false

namespace Backend.Sql

open Function

variable {V : Type*} {h h' : Heap V} {e f : BoolTree (Atom V)} {r : ℕ}

/-! ## Expressions of fresh objects -/

/-- The objects of an expression. -/
def refs (e : BoolTree (Atom V)) : List ℕ := e.leaves.map Atom.self

/-- The objects of an expression are distinct and as `__init__` leaves them. -/
structure Fresh (h : Heap V) (e : BoolTree (Atom V)) : Prop where
  nodup : (refs e).Nodup
  eq_new : ∀ i ∈ refs e, h i = Conds.new (h i).fieldName

/-- The text of a connective. -/
def connText : Conn → Text
  | .and => " AND ".toList
  | .or => " OR ".toList

theorem refs_node (c : Conn) (e f : BoolTree (Atom V)) : refs (.node c e f) = refs e ++ refs f := List.map_append

theorem Fresh.left {c : Conn} (hf : Fresh h (.node c e f)) : Fresh h e := by
  have hn := hf.nodup
  rw [refs_node] at hn
  refine ⟨(List.nodup_append.mp hn).1, fun i hi => hf.eq_new i ?_⟩
  rw [refs_node]
  exact List.mem_append_left _ hi

theorem Fresh.not_mem {c : Conn} (hf : Fresh h (.node c e f)) {i : ℕ} (he : i ∈ refs e) : i ∉ refs f := by
  have hn := hf.nodup
  rw [refs_node] at hn
  exact fun hi => (List.nodup_append.mp hn).2.2 i he i hi rfl

theorem Fresh.right {c : Conn} (hf : Fresh h (.node c e f)) (hh : ∀ i, i ∉ refs e → h' i = h i) : Fresh h' f := by
  have hn := hf.nodup
  rw [refs_node] at hn
  refine ⟨(List.nodup_append.mp hn).2.1, fun i hi => ?_⟩
  rw [hh i fun he => hf.not_mem he hi]
  apply hf.eq_new
  rw [refs_node]
  exact List.mem_append_right _ hi

theorem compare_new (field : Text) (cmp : Cmp V) : ∃ sql params, (Conds.new field).compare .name cmp =
    .ok { fieldName := field, sql := sql, params := params, hasValue := true, subConds := [] } := by
  cases cmp <;> exact ⟨_, _, rfl⟩

theorem build_node (c : Conn) (e f : BoolTree (Atom V)) (h : Heap V) : build .name (.node c e f) h = (do
    let (self, h) ← build .name e h
    let (cond, h) ← build .name f h
    h.append (connText c) self cond) := by
  cases c <;> rfl

/-! ## Gathering -/

variable {β : Type*}

/-- The loop over `_sub_conds`. -/
def subGather (get : ℕ → Except Err (List β)) (link : Text → List β) : List (ℕ × Text) → Except Err (List β)
  | [] => .ok []
  | (cond, conn) :: conds => do
    let items ← get cond
    let rest ← subGather get link conds
    .ok (link conn ++ items ++ rest)

/-- What is gathered from an object: `own` is what it has itself. -/
def gather (own : Conds V → List β) (link : Text → List β) (h : Heap V) : ℕ → ℕ → Except Err (List β)
  | 0, _ => .error .recursion
  | fuel + 1, self => do
    let rest ← subGather (gather own link h fuel) link (h self).subConds
    .ok (own (h self) ++ rest)

/-- What is gathered from the comparisons and connectives of an expression from left to right. -/
def gathered (s : Atom V → List β) (link : Text → List β) : BoolTree (Atom V) → List β
  | .leaf a => s a
  | .node c e f => gathered s link e ++ link (connText c) ++ gathered s link f

/-- What the object of a comparison has itself. -/
def atomOwn (own : Conds V → List β) (h : Heap V) (a : Atom V) : List β :=
  match (h a.self).compare .name a.cmp with
  | .ok c => own c
  | .error _ => []

theorem subSql_eq_subGather (get : ℕ → Except Err Text) (l : List (ℕ × Text)) : subSql get l = subGather get id l := by
  induction l with
  | nil => rfl
  | cons p l ih => rw [subSql, ih, subGather, id]

theorem getSql_eq_gather (h : Heap V) (fuel : ℕ) :
    getSql h fuel = gather (fun c => c.sql ++ " ".toList) id h fuel := by
  induction fuel with
  | zero => rfl
  | succ fuel ih =>
    funext self
    rw [getSql, ih, subSql_eq_subGather, gather]

theorem subParams_eq_subGather (get : ℕ → Except Err (List V)) (l : List (ℕ × Text)) :
    subParams get l = subGather get (fun _ => []) l := by
  induction l with
  | nil => rfl
  | cons p l ih =>
    rw [subParams, ih, subGather]
    rfl

theorem getParams_eq_gather (h : Heap V) (fuel : ℕ) : getParams h fuel = gather Conds.params (fun _ => []) h fuel := by
  induction fuel with
  | zero => rfl
  | succ fuel ih =>
    funext self
    rw [getParams, ih, subParams_eq_subGather, gather]

theorem subGather_append (get : ℕ → Except Err (List β)) (link : Text → List β) (l m : List (ℕ × Text)) {s t : List β}
    (hl : subGather get link l = .ok s) (hm : subGather get link m = .ok t) :
    subGather get link (l ++ m) = .ok (s ++ t) := by
  induction l generalizing s with
  | nil =>
    obtain rfl : [] = s := Except.ok.inj hl
    exact hm
  | cons p l ih =>
    simp only [subGather, bind_eq_ok] at hl
    obtain ⟨items, hitems, rest, hrest, hs⟩ := hl
    simp only [List.cons_append, subGather, hitems, ih hrest, ok_bind]
    rw [← Except.ok.inj hs]
    simp only [List.append_assoc]

theorem gathered_congr {link : Text → List β} {s t : Atom V → List β} (hst : ∀ a ∈ e.leaves, s a = t a) :
    gathered s link e = gathered t link e := by
  induction e with
  | leaf a => exact hst a (by simp [BoolTree.leaves])
  | node c e f ihe ihf =>
    rw [gathered, gathered, ihe (fun a ha => hst a (List.mem_append_left _ ha)),
      ihf (fun a ha => hst a (List.mem_append_right _ ha))]

/-- The object `r` stands for `e`: what is gathered from it is that of `e`, and what comes behind its own comparison
needs only the other objects of `e`. -/
structure Gathers (own : Conds V → List β) (link : Text → List β) (s : Atom V → List β) (h : Heap V)
    (e : BoolTree (Atom V)) (r : ℕ) : Prop where
  mem : r ∈ refs e
  hasValue : (h r).hasValue = true
  rest : ∃ rest, gathered s link e = own (h r) ++ rest ∧
    ∀ g : Heap V, (∀ i ∈ refs e, i ≠ r → g i = h i) → ∀ fuel, e.size ≤ fuel + 1 →
      subGather (gather own link g fuel) link (h r).subConds = .ok rest

section

variable {own : Conds V → List β} {link : Text → List β} {s : Atom V → List β}

theorem Gathers.gather_eq (hb : Gathers own link s h e r) {g : Heap V} (hg : ∀ i ∈ refs e, g i = h i) {fuel : ℕ}
    (hfuel : e.size ≤ fuel) : gather own link g fuel r = .ok (gathered s link e) := by
  obtain ⟨rest, hall, hsub⟩ := hb.rest
  obtain ⟨n, rfl⟩ : ∃ n, fuel = n + 1 := ⟨fuel - 1, by have := e.size_eq; omega⟩
  rw [gather, hg r hb.mem, hsub g (fun i hi _ => hg i hi) n hfuel, hall]
  rfl

theorem Gathers.node (hown : ∀ (c : Conds V) subs, own { c with subConds := subs } = own c) {c : Conn} {q : ℕ}
    (he : Gathers own link s h e r) (hf : Gathers own link s h' f q) (hne : ∀ i ∈ refs e, i ∉ refs f)
    (hh : ∀ i, i ∉ refs f → h' i = h i) :
    Gathers own link s (update h' r { h' r with subConds := (h' r).subConds ++ [(q, connText c)] }) (.node c e f) r := by
  have hr : h' r = h r := hh r (hne r he.mem)
  have hsize := f.size_eq
  obtain ⟨rest, hall, hsub⟩ := he.rest
  refine ⟨?_, ?_, rest ++ link (connText c) ++ gathered s link f, ?_, ?_⟩
  · rw [refs_node]
    exact List.mem_append_left _ he.mem
  · rw [update_self, hr]
    exact he.hasValue
  · rw [update_self, hr, hown, gathered, hall]
    simp only [List.append_assoc]
  · intro g hg fuel hfuel
    rw [refs_node] at hg
    rw [BoolTree.size] at hfuel
    -- `g` agrees with the heaps after `e` and after `f` on the objects of each, `r` apart
    have hge : ∀ i ∈ refs e, i ≠ r → g i = h i := by
      intro i hi hir
      rw [hg i (List.mem_append_left _ hi) hir, update_of_ne hir, hh i (hne i hi)]
    have hgf : ∀ i ∈ refs f, g i = h' i := by
      intro i hi
      have hir : i ≠ r := ne_of_mem_of_not_mem hi (hne r he.mem)
      rw [hg i (List.mem_append_right _ hi) hir, update_of_ne hir]
    rw [update_self, hr, List.append_assoc]
    apply subGather_append
    · exact hsub g hge fuel (by omega)
    · rw [subGather, hf.gather_eq hgf (by have := e.size_eq; omega)]
      simp [subGather]

/-- **The methods called by name**: for distinct fresh objects there is no exception, and the object of the expression
gives what its comparisons and connectives give from left to right. -/
theorem build_gathers (own : Conds V → List β) (hown : ∀ (c : Conds V) subs, own { c with subConds := subs } = own c)
    (link : Text → List β) (hf : Fresh h e) : ∃ r h', build .name e h = .ok (r, h') ∧ (∀ i, i ∉ refs e → h' i = h i) ∧
      Gathers own link (atomOwn own h) h' e r := by
  induction e generalizing h with
  | leaf a =>
    have hmem : a.self ∈ refs (.leaf a) := by simp [refs, BoolTree.leaves]
    obtain ⟨sql, params, hcmp⟩ := compare_new (h a.self).fieldName a.cmp
    rw [← hf.eq_new _ hmem] at hcmp
    refine ⟨a.self, _, by rw [build, hcmp]; rfl, ?_, hmem, ?_, [], ?_, ?_⟩
    · intro i hi
      exact update_of_ne (ne_of_mem_of_not_mem hmem hi).symm _ _
    · rw [update_self]
    · rw [update_self, gathered, atomOwn, hcmp, List.append_nil]
    · intro g _ fuel _
      rw [update_self]
      rfl
  | node c e f ihe ihf =>
    obtain ⟨r, h₁, hb₁, hh₁, he⟩ := ihe hf.left
    obtain ⟨q, h₂, hb₂, hh₂, hf₂⟩ := ihf (hf.right hh₁)
    have hatom : gathered (atomOwn own h₁) link f = gathered (atomOwn own h) link f := by
      apply gathered_congr
      intro a ha
      rw [atomOwn, atomOwn, hh₁ _ fun he => hf.not_mem he (List.mem_map_of_mem ha)]
    have hf₂' : Gathers own link (atomOwn own h) h₂ f q := by
      refine ⟨hf₂.mem, hf₂.hasValue, ?_⟩
      rw [← hatom]
      exact hf₂.rest
    have hval : (h₂ r).hasValue = true := by
      rw [hh₂ r (hf.not_mem he.mem)]
      exact he.hasValue
    refine ⟨r, _, ?_, ?_, he.node hown hf₂' (fun i hi => hf.not_mem hi) hh₂⟩
    · rw [build_node, hb₁, ok_bind]
      simp only [hb₂, ok_bind, Heap.append, hval, if_true]
    · intro i hi
      rw [refs_node, List.mem_append, not_or] at hi
      rw [update_of_ne (ne_of_mem_of_not_mem he.mem hi.1).symm, hh₂ i hi.2, hh₁ i hi.1]

end

end Backend.Sql
