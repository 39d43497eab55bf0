import Mathlib.Data.List.Nodup
import Mathlib.Logic.Function.Basic

/-!
# Linked chains

Nodes are linked by a function `next`; a pointer is an `Option`. `Chain next h l e` says that from
the pointer `h` the links run through the nodes `l`, in this order, and then to the pointer `e`.

* `chain_append`: a chain is cut at any node;
* **`Chain.congr`**, `Chain.update`: a chain depends on the links of its own nodes only;
* **`Chain.link`**, **`Chain.unlink`**: a node is put after `p`, the node after `p` is taken out.
-/

set_option autoImplicit false

namespace Backend

variable {ν : Type*}

/-- The links run from `h` through `l` to `e`. -/
def Chain (next : ν → Option ν) : Option ν → List ν → Option ν → Prop
  | h, [], e => h = e
  | h, x :: l, e => h = some x ∧ Chain next (next x) l e

theorem chain_nil {next : ν → Option ν} {h e : Option ν} : Chain next h [] e ↔ h = e := Iff.rfl

theorem chain_cons {next : ν → Option ν} {h e : Option ν} {x : ν} {l : List ν} :
    Chain next h (x :: l) e ↔ h = some x ∧ Chain next (next x) l e := Iff.rfl

theorem chain_append {next : ν → Option ν} {h e : Option ν} {l l' : List ν} :
    Chain next h (l ++ l') e ↔ ∃ m, Chain next h l m ∧ Chain next m l' e := by
  induction l generalizing h with
  | nil => simp [chain_nil]
  | cons x l ih =>
    rw [List.cons_append, chain_cons, ih]
    constructor
    · rintro ⟨hx, m, hl, hm⟩
      exact ⟨m, ⟨hx, hl⟩, hm⟩
    · rintro ⟨m, ⟨hx, hl⟩, hm⟩
      exact ⟨hx, m, hl, hm⟩

/-- **Locality**: a chain depends on the links of its own nodes only. -/
theorem Chain.congr {next next' : ν → Option ν} {h e : Option ν} {l : List ν}
    (hc : Chain next h l e) (hl : ∀ x ∈ l, next' x = next x) : Chain next' h l e := by
  induction l generalizing h with
  | nil => exact hc
  | cons x l ih =>
    obtain ⟨hx, hc⟩ := hc
    refine ⟨hx, ?_⟩
    rw [hl x List.mem_cons_self]
    exact ih hc fun y hy => hl y (List.mem_cons_of_mem _ hy)

theorem Chain.update [DecidableEq ν] {next : ν → Option ν} {h e : Option ν} {l : List ν}
    (hc : Chain next h l e) {y : ν} (hy : y ∉ l) (p : Option ν) :
    Chain (Function.update next y p) h l e :=
  hc.congr fun _ hx => Function.update_of_ne (ne_of_mem_of_not_mem hx hy) _ _

/-- **Linking** a new node after `p`. -/
theorem Chain.link [DecidableEq ν] {next : ν → Option ν} {h e : Option ν} {l l' : List ν} {p x : ν}
    (hc : Chain next h (l ++ p :: l') e) (hl : p ∉ l) (hl' : p ∉ l') (hx : x ∉ l ++ p :: l') :
    Chain (Function.update (Function.update next x (next p)) p (some x)) h (l ++ p :: x :: l') e := by
  rw [List.mem_append, List.mem_cons, not_or, not_or] at hx
  obtain ⟨hxl, hxp, hxl'⟩ := hx
  obtain ⟨m, h1, hm, h2⟩ := chain_append.mp hc
  refine chain_append.mpr ⟨m, (h1.update hxl _).update hl _, hm, ?_, ?_⟩
  · rw [Function.update_self]
  · rw [Function.update_of_ne hxp, Function.update_self]
    exact (h2.update hxl' _).update hl' _

/-- **Unlinking** the node after `p`. -/
theorem Chain.unlink [DecidableEq ν] {next : ν → Option ν} {h e : Option ν} {l l' : List ν} {p x : ν}
    (hc : Chain next h (l ++ p :: x :: l') e) (hl : p ∉ l) (hl' : p ∉ l') :
    Chain (Function.update next p (next x)) h (l ++ p :: l') e := by
  obtain ⟨m, h1, hm, -, h2⟩ := chain_append.mp hc
  refine chain_append.mpr ⟨m, h1.update hl _, hm, ?_⟩
  rw [Function.update_self]
  exact h2.update hl' _

end Backend
