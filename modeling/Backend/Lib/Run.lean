import Mathlib.Logic.Relation
import Mathlib.Data.List.Basic

/-!
# Runs of a labelled machine

A machine is a partial step function `next : σ → α → Option σ`; the label carries the thread that
moves and every choice the environment makes. `run` executes a list of labels, `ReachIf ok` is
reachability by steps that all meet the condition `ok` (a condition on the state before the step
and on its label), and `Reach` is reachability without a condition.

* **`ReachIf.inv`**: an invariant kept by every step that meets `ok` holds in every state reached;
* `ReachIf.of_run`, `Reach.of_run`, `ReachIf.of_run_map`, `Reach.of_run_map`: what a run reaches is
  reachable;
* `Moment`, **`moment_or`**: what holds at some moment of a run, and the rule to find that moment.
-/

set_option autoImplicit false

namespace Backend

variable {σ α : Type*} (next : σ → α → Option σ)

/-- Execute a list of labels. -/
def run : σ → List α → Option σ
  | s, [] => some s
  | s, a :: l => (next s a).bind fun t => run t l

/-- Reachability by steps that all meet `ok`. -/
def ReachIf (ok : σ → α → Prop) : σ → σ → Prop :=
  Relation.ReflTransGen fun s t => ∃ a, ok s a ∧ next s a = some t

/-- Reachability. -/
def Reach : σ → σ → Prop := ReachIf next fun _ _ => True

variable {next}

theorem run_cons {s t : σ} {a : α} (l : List α) (h : next s a = some t) :
    run next s (a :: l) = run next t l := by
  rw [run, h, Option.bind_some]

theorem run_append (s : σ) (l l' : List α) :
    run next s (l ++ l') = (run next s l).bind fun t => run next t l' := by
  induction l generalizing s with
  | nil => rfl
  | cons a l ih =>
    rw [List.cons_append, run, run, Option.bind_assoc]
    exact congrArg _ (funext fun t => ih t)

theorem ReachIf.refl {ok : σ → α → Prop} (s : σ) : ReachIf next ok s s := Relation.ReflTransGen.refl

theorem ReachIf.tail {ok : σ → α → Prop} {s₀ s t : σ} (h : ReachIf next ok s₀ s) {a : α}
    (ha : ok s a) (hn : next s a = some t) : ReachIf next ok s₀ t :=
  Relation.ReflTransGen.tail h ⟨a, ha, hn⟩

theorem ReachIf.mono {ok ok' : σ → α → Prop} {s t : σ} (h : ReachIf next ok s t) (hok : ∀ s a, ok s a → ok' s a) :
    ReachIf next ok' s t := by
  induction h with
  | refl => exact ReachIf.refl s
  | tail _ hst ih =>
    obtain ⟨a, ha, hn⟩ := hst
    exact ReachIf.tail ih (hok _ a ha) hn

theorem ReachIf.reach {ok : σ → α → Prop} {s t : σ} (h : ReachIf next ok s t) : Reach next s t := by
  induction h with
  | refl => exact ReachIf.refl s
  | tail _ hst ih =>
    obtain ⟨a, -, hn⟩ := hst
    exact ReachIf.tail ih trivial hn

/-- **The invariant rule.** -/
theorem ReachIf.inv {ok : σ → α → Prop} {I : σ → Prop} {s₀ s : σ} (h : ReachIf next ok s₀ s)
    (h₀ : I s₀) (hs : ∀ s a t, I s → ok s a → next s a = some t → I t) : I s := by
  induction h with
  | refl => exact h₀
  | tail _ hst ih =>
    obtain ⟨a, ha, hn⟩ := hst
    exact hs _ a _ ih ha hn

theorem Reach.inv {I : σ → Prop} {s₀ s : σ} (h : Reach next s₀ s)
    (h₀ : I s₀) (hs : ∀ s a t, I s → next s a = some t → I t) : I s :=
  ReachIf.inv h h₀ fun s a t hi _ hn => hs s a t hi hn

/-- The labels of `l`, executed from `s`, all meet `ok`. -/
def Meets (next : σ → α → Option σ) (ok : σ → α → Prop) : σ → List α → Prop
  | _, [] => True
  | s, a :: l => ok s a ∧ match next s a with
    | none => True
    | some t => Meets next ok t l

instance Meets.decidable (next : σ → α → Option σ) (ok : σ → α → Prop)
    [h : ∀ s a, Decidable (ok s a)] : ∀ (s : σ) (l : List α), Decidable (Meets next ok s l)
  | _, [] => isTrue trivial
  | s, a :: l => @instDecidableAnd _ _ (h s a) (match next s a with
    | none => isTrue trivial
    | some t => Meets.decidable next ok t l)

theorem ReachIf.of_run {ok : σ → α → Prop} {s₀ s t : σ} {l : List α} (h₀ : ReachIf next ok s₀ s)
    (hm : Meets next ok s l) (h : run next s l = some t) : ReachIf next ok s₀ t := by
  induction l generalizing s with
  | nil => cases h; exact h₀
  | cons a l ih =>
    obtain ⟨u, hu, h⟩ := Option.bind_eq_some_iff.mp h
    obtain ⟨ha, hm⟩ := hm
    rw [hu] at hm
    exact ih (h₀.tail ha hu) hm h

theorem meets_true (s : σ) (l : List α) : Meets next (fun _ _ => True) s l := by
  induction l generalizing s with
  | nil => trivial
  | cons a l ih =>
    refine ⟨trivial, ?_⟩
    split
    · trivial
    · exact ih _

theorem Reach.of_run {s t : σ} {l : List α} (h : run next s l = some t) : Reach next s t :=
  ReachIf.of_run (ReachIf.refl s) (meets_true s l) h

theorem ReachIf.of_run_map {β : Type*} {ok : σ → α → Prop} {s : σ} {l : List α} {f : σ → β} {v : β}
    (hm : Meets next ok s l) (h : (run next s l).map f = some v) :
    ∃ t, ReachIf next ok s t ∧ f t = v := by
  obtain ⟨t, ht, hv⟩ := Option.map_eq_some_iff.mp h
  exact ⟨t, ReachIf.of_run (ReachIf.refl s) hm ht, hv⟩

theorem Reach.of_run_map {β : Type*} {s : σ} {l : List α} {f : σ → β} {v : β}
    (h : (run next s l).map f = some v) : ∃ t, Reach next s t ∧ f t = v :=
  ReachIf.of_run_map (meets_true s l) h

/-- `Q` holds at some moment of the run of `l` from `s`. -/
def Moment (next : σ → α → Option σ) (s : σ) (l : List α) (Q : σ → Prop) : Prop :=
  ∃ l₁ u, l₁ <+: l ∧ run next s l₁ = some u ∧ Q u

/-- **The rule for moments**: a property that only a moment of `Q` can end. -/
theorem moment_or {J Q : σ → Prop} (ok : α → Prop) {s t : σ} {l : List α} (hs : J s)
    (hstep : ∀ u a v, J u → ok a → next u a = some v → Q u ∨ J v) (hl : ∀ a ∈ l, ok a)
    (h : run next s l = some t) : Moment next s l Q ∨ J t := by
  induction l generalizing s with
  | nil =>
    cases h
    exact .inr hs
  | cons a l ih =>
    obtain ⟨u, hu, h⟩ := Option.bind_eq_some_iff.mp h
    rcases hstep s a u hs (hl a List.mem_cons_self) hu with hq | hj
    · exact .inl ⟨[], s, List.nil_prefix, rfl, hq⟩
    · refine (ih hj (fun b hb => hl b (List.mem_cons_of_mem _ hb)) h).imp_left ?_
      rintro ⟨l₁, v, hp, hr, hq⟩
      exact ⟨a :: l₁, v, (List.cons_prefix_cons).mpr ⟨rfl, hp⟩, (run_cons l₁ hu).trans hr, hq⟩

end Backend
