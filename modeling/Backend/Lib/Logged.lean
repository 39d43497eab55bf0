import Mathlib.Tactic.SplitIfs

/-!
# Runs that write a log

A run may stop before it has a result; what it has written until then stays.

* `Logged`: the monad of such runs, with `ofOption` and `write`;
* `result_bind`, `result_ite`: the result of a run is that of the run without its log;
* `All`: every entry of the log has a property; **`All.bind`**, `All.of_bind_left`, `All.of_bind_right`.
-/

set_option autoImplicit false

namespace Backend

/-- The entries that a run has written, and its result. -/
structure Logged (ε α : Type) where
  log : List ε
  result : Option α

namespace Logged

variable {ε α β : Type}

/-- One run after the other. -/
def andThen (x : Logged ε α) (f : α → Logged ε β) : Logged ε β :=
  match x.result with
  | none => ⟨x.log, none⟩
  | some a => ⟨x.log ++ (f a).log, (f a).result⟩

instance : Monad (Logged ε) where
  pure a := ⟨[], some a⟩
  bind := andThen

/-- A step that writes nothing. -/
def ofOption (o : Option α) : Logged ε α := ⟨[], o⟩

/-- A step that writes an entry. -/
def write (e : ε) (o : Option α) : Logged ε α := ⟨[e], o⟩

@[simp] theorem result_pure (a : α) : (pure a : Logged ε α).result = some a := rfl

@[simp] theorem result_ofOption (o : Option α) : (ofOption o : Logged ε α).result = o := rfl

@[simp] theorem result_write (e : ε) (o : Option α) : (write e o).result = o := rfl

@[simp] theorem result_bind (x : Logged ε α) (f : α → Logged ε β) :
    (x >>= f).result = x.result.bind fun a => (f a).result := by
  change (andThen x f).result = _
  rw [andThen]
  cases x.result with
  | none => rfl
  | some a => rfl

@[simp] theorem result_ite {p : Prop} [Decidable p] (x y : Logged ε α) :
    (if p then x else y).result = if p then x.result else y.result := by
  split_ifs <;> rfl

/-- Every entry of the log has the property `P`. -/
def All (P : ε → Prop) (x : Logged ε α) : Prop := ∀ e ∈ x.log, P e

variable {P : ε → Prop} {x : Logged ε α} {f : α → Logged ε β}

theorem all_pure (a : α) : (pure a : Logged ε α).All P := fun _ h => absurd h List.not_mem_nil

theorem all_ofOption (o : Option α) : (ofOption o).All P := fun _ h => absurd h List.not_mem_nil

theorem all_write {e : ε} (h : P e) (o : Option α) : (write e o).All P := fun _ h' => by
  rwa [List.mem_singleton.mp h']

theorem all_ite {p : Prop} [Decidable p] {x y : Logged ε α} (hx : p → x.All P) (hy : ¬ p → y.All P) :
    (if p then x else y).All P := by
  split_ifs with h
  · exact hx h
  · exact hy h

/-- **One run after the other**: what the second one writes matters when the first one has a result. -/
theorem All.bind (hx : x.All P) (hf : ∀ a, x.result = some a → (f a).All P) : (x >>= f).All P := by
  change (andThen x f).All P
  rw [andThen]
  cases h : x.result with
  | none => exact hx
  | some a =>
    intro e he
    rcases List.mem_append.mp he with he | he
    · exact hx e he
    · exact hf a h e he

theorem All.of_bind_left (h : (x >>= f).All P) : x.All P := by
  change (andThen x f).All P at h
  rw [andThen] at h
  cases hr : x.result with
  | none =>
    rw [hr] at h
    exact h
  | some a =>
    rw [hr] at h
    exact fun e he => h e (List.mem_append_left _ he)

theorem All.of_bind_right (h : (x >>= f).All P) {a : α} (ha : x.result = some a) : (f a).All P := by
  change (andThen x f).All P at h
  rw [andThen, ha] at h
  exact fun e he => h e (List.mem_append_right _ he)

end Logged

end Backend
