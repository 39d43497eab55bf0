import Backend.Hash.Model
import Backend.Lib.Chain
import Mathlib.Data.Finset.Card
import Mathlib.Data.Finset.Range

/-!
# The lists of `HashMap`

`Holds m h l` says that the list whose `head` is `h` has the nodes `l`. The calls of `LinkedList` are
described by what they do to these nodes.

* `searchLoop_spec`, `insert_mem`, `insert_absent`;
* `deleteLoop_mem`, **`delete_mem`**, **`delete_absent`**: the head, the interior and the empty case;
* `releaseLoop_spec`: exactly the nodes of the list are freed.
-/

set_option autoImplicit false

namespace Backend.Hash

open Function

variable {K V : Type}

/-- The list that begins at `h` has the nodes `l`, with distinct keys. -/
structure Holds (m : Nodes K V) (h : Option ℕ) (l : List ℕ) : Prop where
  chain : Chain m.next h l none
  live : ∀ a ∈ l, m.live a = true
  lt_top : ∀ a ∈ l, a < m.top
  keys : (l.map m.key).Nodup

variable {m : Nodes K V} {h : Option ℕ} {l l₁ l₂ : List ℕ} {a : ℕ} {k : K}

theorem Nodes.key?_of_live (ha : m.live a = true) : m.key? a = some (m.key a) := if_pos ha

theorem Nodes.next?_of_live (ha : m.live a = true) : m.next? a = some (m.next a) := if_pos ha

theorem Nodes.alloc_key_top (v : V) (p : Option ℕ) : (m.alloc k v p).key m.top = k := update_self ..

theorem Nodes.alloc_key_of_ne (ha : a ≠ m.top) (v : V) (p : Option ℕ) :
    (m.alloc k v p).key a = m.key a := update_of_ne ha ..

theorem Nodes.alloc_value_top (v : V) (p : Option ℕ) : (m.alloc k v p).value m.top = v :=
  update_self ..

theorem Nodes.alloc_value_of_ne (ha : a ≠ m.top) (v : V) (p : Option ℕ) :
    (m.alloc k v p).value a = m.value a := update_of_ne ha ..

theorem Nodes.alloc_next_top (v : V) (p : Option ℕ) : (m.alloc k v p).next m.top = p := update_self ..

theorem Holds.nodup (hl : Holds m h l) : l.Nodup := hl.keys.of_map _

theorem Holds.eq_of_key (hl : Holds m h l) {b : ℕ} (ha : a ∈ l) (hb : b ∈ l) (he : m.key a = m.key b) :
    a = b := List.inj_on_of_nodup_map hl.keys ha hb he

theorem Holds.length_lt (hl : Holds m h l) : l.length < m.top + 1 := by
  have hsub : l.toFinset ⊆ Finset.range m.top := fun a ha =>
    Finset.mem_range.mpr (hl.lt_top a (List.mem_toFinset.mp ha))
  have hcard := Finset.card_le_card hsub
  rw [List.toFinset_card_of_nodup hl.nodup, Finset.card_range] at hcard
  omega

theorem holds_nil : Holds m none [] := ⟨rfl, by simp, by simp, List.nodup_nil⟩

theorem Holds.congr (hl : Holds m h l) {m' : Nodes K V} (hkey : ∀ a ∈ l, m'.key a = m.key a)
    (hnext : ∀ a ∈ l, m'.next a = m.next a) (hlive : ∀ a ∈ l, m'.live a = m.live a)
    (htop : m.top ≤ m'.top) : Holds m' h l where
  chain := hl.chain.congr hnext
  live a ha := (hlive a ha).trans (hl.live a ha)
  lt_top a ha := (hl.lt_top a ha).trans_le htop
  keys := by
    rw [List.map_congr_left hkey]
    exact hl.keys

/-! ## The search -/

section

variable [DecidableEq K]

theorem searchLoop_spec {fuel : ℕ} (hc : Chain m.next h l none) (hlive : ∀ a ∈ l, m.live a = true)
    (hf : l.length < fuel) (key : K) :
    m.searchLoop key fuel h = some (l.find? fun a => decide (m.key a = key)) := by
  induction l generalizing h fuel with
  | nil =>
    obtain ⟨fuel, rfl⟩ : ∃ n, fuel = n + 1 := ⟨fuel - 1, by omega⟩
    rw [chain_nil.mp hc]
    rfl
  | cons a l ih =>
    obtain ⟨fuel, rfl⟩ : ∃ n, fuel = n + 1 := ⟨fuel - 1, by omega⟩
    obtain ⟨rfl, hc⟩ := hc
    have ha := hlive a List.mem_cons_self
    have hrec := ih hc (fun b hb => hlive b (List.mem_cons_of_mem _ hb))
      (show l.length < fuel by rw [List.length_cons] at hf; omega)
    by_cases hk : m.key a = key
    · simp [Nodes.searchLoop, Nodes.key?_of_live ha, hk]
    · simp [Nodes.searchLoop, Nodes.key?_of_live ha, Nodes.next?_of_live ha, hk, hrec]

theorem Holds.search_mem (hl : Holds m h l) (ha : a ∈ l) :
    m.searchLoop (m.key a) (m.top + 1) h = some (some a) := by
  rw [searchLoop_spec hl.chain hl.live hl.length_lt, Option.some.injEq]
  cases hf : l.find? fun b => decide (m.key b = m.key a) with
  | none => exact absurd (List.find?_eq_none.mp hf a ha) (by simp)
  | some b =>
    have hb := List.find?_some hf
    rw [decide_eq_true_eq] at hb
    rw [hl.eq_of_key (List.mem_of_find?_eq_some hf) ha hb]

theorem Holds.search_absent (hl : Holds m h l) (hk : ∀ a ∈ l, m.key a ≠ k) :
    m.searchLoop k (m.top + 1) h = some none := by
  rw [searchLoop_spec hl.chain hl.live hl.length_lt, Option.some.injEq, List.find?_eq_none]
  intro a ha
  simpa using hk a ha

/-! ## `Insert` -/

theorem Holds.insert_mem (hl : Holds m h l) (ha : a ∈ l) (v : V) :
    m.insert h (m.key a) v = some (2, h, { m with value := update m.value a v }) := by
  cases h with
  | none =>
    cases l with
    | nil => cases ha
    | cons b l => cases hl.chain.1
  | some h => simp [Nodes.insert, hl.search_mem ha]

theorem Holds.insert_absent (hl : Holds m h l) (hk : ∀ a ∈ l, m.key a ≠ k) (v : V) :
    m.insert h k v = some (1, some m.top, m.alloc k v h) := by
  cases h with
  | none => rfl
  | some h => simp [Nodes.insert, hl.search_absent hk]

omit [DecidableEq K] in
theorem Holds.alloc (hl : Holds m h l) (hk : ∀ a ∈ l, m.key a ≠ k) (v : V) :
    Holds (m.alloc k v h) (some m.top) (m.top :: l) := by
  have hne : ∀ a ∈ l, a ≠ m.top := fun a ha => (hl.lt_top a ha).ne
  have hold : Holds (m.alloc k v h) h l := hl.congr (fun a ha => update_of_ne (hne a ha) ..)
    (fun a ha => update_of_ne (hne a ha) ..) (fun a ha => update_of_ne (hne a ha) ..) (Nat.le_succ _)
  refine ⟨⟨rfl, ?_⟩, fun a ha => ?_, fun a ha => ?_, ?_⟩
  · rw [Nodes.alloc_next_top]
    exact hold.chain
  · rcases List.mem_cons.mp ha with rfl | ha
    · exact update_self ..
    · exact hold.live a ha
  · rcases List.mem_cons.mp ha with rfl | ha
    · exact Nat.lt_succ_self _
    · exact hold.lt_top a ha
  · rw [List.map_cons, List.nodup_cons]
    refine ⟨fun hmem => ?_, hold.keys⟩
    obtain ⟨a, ha, he⟩ := List.mem_map.mp hmem
    rw [Nodes.alloc_key_of_ne (hne a ha), Nodes.alloc_key_top] at he
    exact hk a ha he

/-! ## `Delete` -/

theorem deleteLoop_absent {p fuel : ℕ} (hc : Chain m.next (m.next p) l none) (hp : m.live p = true)
    (hlive : ∀ a ∈ l, m.live a = true) (hf : l.length < fuel) (hk : ∀ a ∈ l, m.key a ≠ k) :
    Nodes.deleteLoop k fuel (some p) (m.next p) m = some (false, m) := by
  induction l generalizing p fuel with
  | nil =>
    obtain ⟨fuel, rfl⟩ : ∃ n, fuel = n + 1 := ⟨fuel - 1, by omega⟩
    rw [chain_nil.mp hc]
    rfl
  | cons a l ih =>
    obtain ⟨fuel, rfl⟩ : ∃ n, fuel = n + 1 := ⟨fuel - 1, by omega⟩
    obtain ⟨hpa, hc⟩ := hc
    have ha := hlive a List.mem_cons_self
    have hrec := ih hc ha (fun b hb => hlive b (List.mem_cons_of_mem _ hb))
      (show l.length < fuel by rw [List.length_cons] at hf; omega)
      fun b hb => hk b (List.mem_cons_of_mem _ hb)
    rw [hpa]
    simp [Nodes.deleteLoop, Nodes.key?_of_live ha, Nodes.next?_of_live ha, Nodes.next?_of_live hp,
      hk a List.mem_cons_self, hpa, hrec]

theorem deleteLoop_mem {p fuel : ℕ} (hc : Chain m.next (m.next p) (l₁ ++ a :: l₂) none)
    (hp : m.live p = true) (hlive : ∀ b ∈ l₁ ++ a :: l₂, m.live b = true) (hf : l₁.length < fuel)
    (hk : ∀ b ∈ l₁, m.key b ≠ m.key a) :
    ∃ l₀ q, p :: l₁ = l₀ ++ [q] ∧ Nodes.deleteLoop (m.key a) fuel (some p) (m.next p) m =
      some (true, ({ m with next := update m.next q (m.next a) }).free a) := by
  induction l₁ generalizing p fuel with
  | nil =>
    obtain ⟨fuel, rfl⟩ : ∃ n, fuel = n + 1 := ⟨fuel - 1, by omega⟩
    have ha := hlive a (by simp)
    refine ⟨[], p, rfl, ?_⟩
    rw [hc.1]
    simp [Nodes.deleteLoop, Nodes.key?_of_live ha, Nodes.next?_of_live ha, Nodes.next?_of_live hp]
  | cons b l₁ ih =>
    obtain ⟨fuel, rfl⟩ : ∃ n, fuel = n + 1 := ⟨fuel - 1, by omega⟩
    obtain ⟨hpb, hc⟩ := hc
    have hb := hlive b (by simp)
    obtain ⟨l₀, q, hq, hrec⟩ := ih hc hb (fun c hc => hlive c (by simp_all))
      (show l₁.length < fuel by rw [List.length_cons] at hf; omega) fun c hc => hk c (by simp [hc])
    refine ⟨p :: l₀, q, by rw [hq]; rfl, ?_⟩
    rw [hpb]
    simp [Nodes.deleteLoop, Nodes.key?_of_live hb, Nodes.next?_of_live hb, Nodes.next?_of_live hp,
      hk b List.mem_cons_self, hpb, hrec]

/-- **`Delete` of an absent key.** -/
theorem Holds.delete_absent (hl : Holds m h l) (hk : ∀ a ∈ l, m.key a ≠ k) :
    m.delete h k = some (false, h, m) := by
  cases l with
  | nil =>
    rw [chain_nil.mp hl.chain]
    rfl
  | cons a l =>
    obtain ⟨rfl, hc⟩ := hl.chain
    have ha := hl.live a List.mem_cons_self
    have hf := hl.length_lt
    rw [List.length_cons] at hf
    have hloop := deleteLoop_absent hc ha (fun b hb => hl.live b (List.mem_cons_of_mem _ hb))
      (show l.length < m.top + 1 by omega) fun b hb => hk b (List.mem_cons_of_mem _ hb)
    simp [Nodes.delete, Nodes.key?_of_live ha, Nodes.next?_of_live ha, hk a List.mem_cons_self, hloop]

/-- **`Delete` of a present key** takes its node out of the list. -/
theorem Holds.delete_mem (hl : Holds m h (l₁ ++ a :: l₂)) :
    ∃ h' next', m.delete h (m.key a) = some (true, h', ({ m with next := next' }).free a) ∧
      Chain next' h' (l₁ ++ l₂) none ∧ ∀ b ∉ l₁ ++ a :: l₂, next' b = m.next b := by
  have hne : ∀ b ∈ l₁, m.key b ≠ m.key a := by
    intro b hb he
    have hba := hl.eq_of_key (by simp [hb]) (by simp) he
    subst hba
    have hn := List.nodup_append.mp hl.nodup
    exact hn.2.2 b hb b List.mem_cons_self rfl
  cases l₁ with
  | nil =>
    obtain ⟨rfl, hc⟩ := hl.chain
    have ha := hl.live a (by simp)
    refine ⟨m.next a, m.next, ?_, hc, fun _ _ => rfl⟩
    simp [Nodes.delete, Nodes.key?_of_live ha, Nodes.next?_of_live ha]
  | cons p l₁ =>
    obtain ⟨rfl, hc⟩ := hl.chain
    have hp := hl.live p (by simp)
    have hf := hl.length_lt
    simp only [List.cons_append, List.length_cons, List.length_append] at hf
    obtain ⟨l₀, q, hq, hloop⟩ := deleteLoop_mem hc hp
      (fun b hb => hl.live b (List.mem_cons_of_mem _ hb)) (show l₁.length < m.top + 1 by omega)
      fun b hb => hne b (List.mem_cons_of_mem _ hb)
    have hchain := hl.chain
    have hnodup := hl.nodup
    rw [hq, List.append_assoc, List.singleton_append] at hchain hnodup ⊢
    have hn := List.nodup_append.mp hnodup
    refine ⟨some p, update m.next q (m.next a), ?_, ?_, fun b hb => update_of_ne ?_ ..⟩
    · simp [Nodes.delete, Nodes.key?_of_live hp, Nodes.next?_of_live hp, hne p List.mem_cons_self, hloop]
    · refine hchain.unlink (fun hmem => hn.2.2 q hmem q List.mem_cons_self rfl) fun hmem => ?_
      exact (List.nodup_cons.mp hn.2.1).1 (List.mem_cons_of_mem _ hmem)
    · rintro rfl
      exact hb (by simp)

end

/-! ## `Release` -/

theorem releaseLoop_spec {fuel : ℕ} (hc : Chain m.next h l none) (hlive : ∀ a ∈ l, m.live a = true)
    (hn : l.Nodup) (hf : l.length < fuel) :
    Nodes.releaseLoop fuel h m = some { m with live := fun a => m.live a && decide (a ∉ l) } := by
  induction l generalizing h fuel m with
  | nil =>
    obtain ⟨fuel, rfl⟩ : ∃ n, fuel = n + 1 := ⟨fuel - 1, by omega⟩
    rw [chain_nil.mp hc]
    simp [Nodes.releaseLoop]
  | cons a l ih =>
    obtain ⟨fuel, rfl⟩ : ∃ n, fuel = n + 1 := ⟨fuel - 1, by omega⟩
    obtain ⟨rfl, hc⟩ := hc
    have ha := hlive a List.mem_cons_self
    obtain ⟨hal, hn⟩ := List.nodup_cons.mp hn
    have hrec := ih (m := m.free a) hc
      (fun b hb => (update_of_ne (ne_of_mem_of_not_mem hb hal) ..).trans
        (hlive b (List.mem_cons_of_mem _ hb))) hn
      (show l.length < fuel by rw [List.length_cons] at hf; omega)
    rw [Nodes.releaseLoop, Nodes.next?_of_live ha, Option.bind_eq_bind, Option.bind_some, hrec,
      Option.some.injEq]
    simp only [Nodes.free, Nodes.mk.injEq, true_and, and_true]
    funext b
    by_cases hb : b = a
    · simp [hb]
    · rw [update_of_ne hb]
      simp [hb]

end Backend.Hash
