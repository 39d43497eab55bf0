import Backend.Skip.Model
import Backend.Lib.Chain
import Mathlib.Data.Finset.Card

/-!
# `SkipList`: the chains of the levels

`Layers s h L` says that from the head `h` the pointers `forward[i]` run through the nodes `L i`, that the
keys of `L 0` increase strictly, and that `L (i + 1)` is a subsequence of `L i`. On every level the
search stops at the last node below the key, `prev`.

* `below`, `notBelow`, `prev`: a chain cut at a key;
* **`search_spec`**, **`locate_mem`**, **`locate_absent`**: the search;
* **`Layers.link`**, **`Layers.unlink`**: a node is put into the levels, a node is taken out.
-/

set_option autoImplicit false
set_option linter.unusedSectionVars false

namespace Backend.Skip

open Function

variable {K V : Type} [LinearOrder K]

/-! ## A chain cut at a key -/

/-- The nodes of `l` whose key is below `k`. -/
def below (s : SkipList K V) (k : K) (l : List ℕ) : List ℕ := l.filter fun a => s.key a < k

/-- The other nodes of `l`. -/
def notBelow (s : SkipList K V) (k : K) (l : List ℕ) : List ℕ := l.filter fun a => ¬ s.key a < k

/-- The last node below `k`, or the head `h`. -/
def prev (s : SkipList K V) (k : K) (h : ℕ) (l : List ℕ) : ℕ := (below s k l).getLast?.getD h

variable {s : SkipList K V} {k : K} {h : ℕ} {l : List ℕ}

theorem mem_below {a : ℕ} : a ∈ below s k l ↔ a ∈ l ∧ s.key a < k := by simp [below]

theorem mem_notBelow {a : ℕ} : a ∈ notBelow s k l ↔ a ∈ l ∧ k ≤ s.key a := by simp [notBelow]

theorem below_append_notBelow (hs : l.Pairwise fun a b => s.key a < s.key b) :
    below s k l ++ notBelow s k l = l := by
  induction l with
  | nil => rfl
  | cons x l ih =>
    obtain ⟨hx, hs⟩ := List.pairwise_cons.mp hs
    by_cases hk : s.key x < k
    · have h1 : below s k (x :: l) = x :: below s k l := List.filter_cons_of_pos (by simpa using hk)
      have h2 : notBelow s k (x :: l) = notBelow s k l := List.filter_cons_of_neg (by simpa using hk)
      rw [h1, h2, List.cons_append, ih hs]
    · have h1 : below s k (x :: l) = [] := List.filter_eq_nil_iff.mpr fun a ha => by
        rcases List.mem_cons.mp ha with rfl | ha
        · simpa using hk
        · simpa using (le_of_not_gt hk).trans (hx a ha).le
      have h2 : notBelow s k (x :: l) = x :: l := List.filter_eq_self.mpr fun a ha => by
        rcases List.mem_cons.mp ha with rfl | ha
        · simpa using hk
        · simpa using (le_of_not_gt hk).trans (hx a ha).le
      rw [h1, h2, List.nil_append]

theorem mem_cut {a x : ℕ} : a ∈ below s k l ++ x :: notBelow s k l ↔ a = x ∨ a ∈ l := by
  rw [List.mem_append, List.mem_cons, mem_below, mem_notBelow]
  have := lt_or_ge (s.key a) k
  tauto

theorem exists_cons_below (s : SkipList K V) (k : K) (h : ℕ) (l : List ℕ) :
    ∃ X, h :: below s k l = X ++ [prev s k h l] := by
  rcases List.eq_nil_or_concat' (h :: below s k l) with he | ⟨X, p, he⟩
  · cases he
  · refine ⟨X, ?_⟩
    have hl := congrArg List.getLast? he
    rw [List.getLast?_cons, List.getLast?_concat, Option.some.injEq] at hl
    rw [he, prev, hl]

theorem prev_mem (s : SkipList K V) (k : K) (h : ℕ) (l : List ℕ) : prev s k h l ∈ h :: below s k l := by
  obtain ⟨X, hX⟩ := exists_cons_below s k h l
  rw [hX]
  simp

/-! ## The levels -/

/-- The chains of the levels. -/
structure Layers (s : SkipList K V) (h : ℕ) (L : ℕ → List ℕ) : Prop where
  head : s.head = some h
  level : s.level h = maxSkipLevel - 1
  chain : ∀ i < maxSkipLevel, Chain (s.forward i) (some h) (h :: L i) none
  nest : ∀ i, i + 1 < maxSkipLevel → (L (i + 1)).Sublist (L i)
  sorted : (L 0).Pairwise fun a b => s.key a < s.key b
  live : ∀ a ∈ h :: L 0, s.live a = true
  lt_top : ∀ a ∈ h :: L 0, a < s.top
  header : h ∉ L 0

variable {L : ℕ → List ℕ}

theorem Layers.sublist (hL : Layers s h L) {i : ℕ} (hi : i < maxSkipLevel) : (L i).Sublist (L 0) := by
  induction i with
  | zero => exact List.Sublist.refl _
  | succ i ih => exact (hL.nest i hi).trans (ih (by omega))

theorem Layers.sorted_level (hL : Layers s h L) {i : ℕ} (hi : i < maxSkipLevel) :
    (L i).Pairwise fun a b => s.key a < s.key b := hL.sorted.sublist (hL.sublist hi)

theorem Layers.nodup (hL : Layers s h L) : (h :: L 0).Nodup :=
  List.nodup_cons.mpr ⟨hL.header, hL.sorted.imp fun hlt he => absurd (he ▸ hlt) (lt_irrefl _)⟩

theorem Layers.key_ne (hL : Layers s h L) {a b : ℕ} (ha : a ∈ L 0) (hb : b ∈ L 0) (hab : a ≠ b) :
    s.key a ≠ s.key b := by
  intro he
  have hinj := List.inj_on_of_nodup_map ((List.pairwise_map.mpr hL.sorted).imp fun hlt => hlt.ne) ha hb
  exact hab (hinj he)

theorem Layers.nodup_level (hL : Layers s h L) {i : ℕ} (hi : i < maxSkipLevel) : (h :: L i).Nodup :=
  hL.nodup.sublist ((hL.sublist hi).cons_cons h)

theorem Layers.live_level (hL : Layers s h L) {i : ℕ} (hi : i < maxSkipLevel) {a : ℕ}
    (ha : a ∈ h :: L i) : s.live a = true := hL.live a (((hL.sublist hi).cons_cons h).subset ha)

theorem Layers.length_lt (hL : Layers s h L) {i : ℕ} (hi : i < maxSkipLevel) :
    (L i).length < s.top := by
  have hsub : (h :: L 0).toFinset ⊆ Finset.range s.top := fun a ha =>
    Finset.mem_range.mpr (hL.lt_top a (List.mem_toFinset.mp ha))
  have hcard := Finset.card_le_card hsub
  rw [List.toFinset_card_of_nodup hL.nodup, Finset.card_range, List.length_cons] at hcard
  exact ((hL.sublist hi).length_le.trans_lt (Nat.lt_succ_self _)).trans_le hcard

theorem Layers.cut (hL : Layers s h L) (k : K) {i : ℕ} (hi : i < maxSkipLevel) :
    ∃ X, h :: below s k (L i) = X ++ [prev s k h (L i)] ∧
      h :: L i = X ++ prev s k h (L i) :: notBelow s k (L i) := by
  obtain ⟨X, hX⟩ := exists_cons_below s k h (L i)
  refine ⟨X, hX, ?_⟩
  calc h :: L i = h :: (below s k (L i) ++ notBelow s k (L i)) := by
        rw [below_append_notBelow (hL.sorted_level hi)]
    _ = X ++ [prev s k h (L i)] ++ notBelow s k (L i) := by rw [← List.cons_append, hX]
    _ = X ++ prev s k h (L i) :: notBelow s k (L i) := by rw [List.append_assoc, List.singleton_append]

theorem Layers.forward_prev (hL : Layers s h L) (k : K) {i : ℕ} (hi : i < maxSkipLevel) :
    s.forward i (prev s k h (L i)) = (notBelow s k (L i)).head? := by
  obtain ⟨X, -, hX⟩ := hL.cut k hi
  have hc := hL.chain i hi
  rw [hX] at hc
  obtain ⟨m, -, -, hc⟩ := chain_append.mp hc
  cases hn : notBelow s k (L i) with
  | nil =>
    rw [hn] at hc
    exact hc
  | cons a l =>
    rw [hn] at hc
    exact hc.1

/-! ## The search -/

theorem forward?_of_live {i a : ℕ} (ha : s.live a = true) : s.forward? i a = some (s.forward i a) :=
  if_pos ha

theorem key?_of_live {a : ℕ} (ha : s.live a = true) : s.key? a = some (s.key a) := if_pos ha

theorem advance_spec {i cur fuel : ℕ} {A B : List ℕ}
    (hc : Chain (s.forward i) (s.forward i cur) (A ++ B) none) (hA : ∀ a ∈ A, s.key a < k)
    (hB : ∀ b ∈ B, k ≤ s.key b) (hl : ∀ a ∈ cur :: (A ++ B), s.live a = true) (hf : A.length < fuel) :
    s.advance k i fuel cur = some (A.getLast?.getD cur) := by
  induction A generalizing cur fuel with
  | nil =>
    obtain ⟨fuel, rfl⟩ : ∃ f, fuel = f + 1 := ⟨fuel - 1, by omega⟩
    rw [SkipList.advance, forward?_of_live (hl cur List.mem_cons_self)]
    cases B with
    | nil =>
      rw [chain_nil.mp hc]
      rfl
    | cons b B =>
      rw [hc.1]
      simp [key?_of_live (hl b (by simp)), not_lt.mpr (hB b List.mem_cons_self)]
  | cons a A ih =>
    obtain ⟨fuel, rfl⟩ : ∃ f, fuel = f + 1 := ⟨fuel - 1, by omega⟩
    obtain ⟨ha, hc⟩ := hc
    have hlen : A.length < fuel := by simpa using hf
    have hstep := ih hc (fun x hx => hA x (List.mem_cons_of_mem _ hx))
      (fun x hx => hl x (List.mem_cons_of_mem _ hx)) hlen
    rw [SkipList.advance, forward?_of_live (hl cur List.mem_cons_self), ha]
    simp only [Option.bind_eq_bind, Option.bind_some, key?_of_live (hl a (by simp)),
      if_pos (hA a List.mem_cons_self), hstep, List.getLast?_cons, Option.getD_some]

theorem Layers.advance (hL : Layers s h L) {i cur : ℕ} (hi : i < maxSkipLevel)
    (hcur : cur ∈ h :: below s k (L i)) :
    s.advance k i (s.top + 1) cur = some (prev s k h (L i)) := by
  obtain ⟨P, A, hP⟩ := List.append_of_mem hcur
  have hsplit : h :: L i = P ++ cur :: (A ++ notBelow s k (L i)) := by
    calc h :: L i = h :: (below s k (L i) ++ notBelow s k (L i)) := by
          rw [below_append_notBelow (hL.sorted_level hi)]
      _ = P ++ cur :: A ++ notBelow s k (L i) := by rw [← List.cons_append, hP]
      _ = P ++ cur :: (A ++ notBelow s k (L i)) := by rw [List.append_assoc, List.cons_append]
  have hA : A ⊆ below s k (L i) := by
    cases P with
    | nil =>
      cases hP
      exact List.Subset.refl _
    | cons x P =>
      obtain ⟨-, hP⟩ := List.cons.inj hP
      rw [hP]
      exact fun a ha => by simp [ha]
  have hlast : prev s k h (L i) = A.getLast?.getD cur := by
    have := congrArg List.getLast? hP
    rw [List.getLast?_cons, List.getLast?_append, List.getLast?_cons] at this
    simpa [prev] using this
  have hc := hL.chain i hi
  rw [hsplit] at hc
  obtain ⟨m, -, -, hc⟩ := chain_append.mp hc
  rw [hlast]
  refine advance_spec hc (fun a ha => (mem_below.mp (hA ha)).2) (fun b hb => (mem_notBelow.mp hb).2)
    (fun a ha => hL.live_level hi ?_) ?_
  · rw [hsplit]
    exact List.mem_append_right _ ha
  · have hlen := congrArg List.length hsplit
    have := hL.length_lt hi
    simp only [List.length_cons, List.length_append] at hlen
    omega

theorem prev_mem_below_of_sublist {l' : List ℕ} (hs : l.Sublist l') :
    prev s k h l ∈ h :: below s k l' :=
  ((hs.filter _).cons_cons h).subset (prev_mem s k h l)

/-- **The search**, from level `i` down. -/
theorem search_spec (hL : Layers s h L) {i cur : ℕ} (hi : i < maxSkipLevel)
    (hcur : cur ∈ h :: below s k (L i)) (upd : ℕ → ℕ) :
    ∃ upd', s.search k (i + 1) cur upd = some (prev s k h (L 0), upd') ∧
      (∀ j ≤ i, upd' j = prev s k h (L j)) ∧ ∀ j, i < j → upd' j = upd j := by
  induction i generalizing cur upd with
  | zero =>
    refine ⟨update upd 0 (prev s k h (L 0)), ?_, fun j hj => ?_, fun j hj => update_of_ne hj.ne' ..⟩
    · rw [SkipList.search, hL.advance hi hcur]
      rfl
    · rw [Nat.le_zero.mp hj, update_self]
  | succ i ih =>
    obtain ⟨upd', hs, hle, hgt⟩ := ih (by omega) (prev_mem_below_of_sublist (hL.nest i hi))
      (update upd (i + 1) (prev s k h (L (i + 1))))
    refine ⟨upd', ?_, fun j hj => ?_, fun j hj => ?_⟩
    · rw [SkipList.search, hL.advance hi hcur]
      exact hs
    · rcases Nat.lt_or_eq_of_le hj with hj | rfl
      · exact hle j (by omega)
      · rw [hgt _ (Nat.lt_succ_self i), update_self]
    · rw [hgt j (by omega), update_of_ne hj.ne']

theorem Layers.live_prev (hL : Layers s h L) (k : K) {i : ℕ} (hi : i < maxSkipLevel) :
    s.live (prev s k h (L i)) = true :=
  hL.live_level hi ((List.filter_sublist.cons_cons h).subset (prev_mem s k h (L i)))

theorem Layers.locate (hL : Layers s h L) (k : K) :
    ∃ upd, s.locate k h = some ((notBelow s k (L 0)).head?.getD (prev s k h (L 0)), upd) ∧
      ∀ j < maxSkipLevel, upd j = prev s k h (L j) := by
  have h5 : maxSkipLevel - 1 < maxSkipLevel := by decide
  obtain ⟨upd, hs, hupd, -⟩ := search_spec hL h5 (k := k) List.mem_cons_self fun _ => h
  have hlive := hL.live_prev k (show 0 < maxSkipLevel by decide)
  refine ⟨upd, ?_, fun j hj => hupd j (by omega)⟩
  rw [SkipList.locate, hL.level, hs]
  simp only [Option.bind_eq_bind, Option.bind_some, forward?_of_live hlive,
    hL.forward_prev k (show 0 < maxSkipLevel by decide)]
  cases (notBelow s k (L 0)).head? with
  | none => rfl
  | some a => rfl

/-- A node with key `k` is the first that is not below `k`, on each of its levels. -/
theorem Layers.notBelow_eq (hL : Layers s h L) {i a : ℕ} (hi : i < maxSkipLevel) (ha : a ∈ L i) :
    ∃ l, notBelow s (s.key a) (L i) = a :: l := by
  have hmem : a ∈ notBelow s (s.key a) (L i) := mem_notBelow.mpr ⟨ha, le_rfl⟩
  obtain ⟨b, l, hb⟩ := List.exists_cons_of_ne_nil (List.ne_nil_of_mem hmem)
  refine ⟨l, ?_⟩
  have hs : (b :: l).Pairwise fun a b => s.key a < s.key b :=
    hb ▸ (hL.sorted_level hi).sublist List.filter_sublist
  rw [hb] at hmem
  rcases List.mem_cons.mp hmem with rfl | hal
  · exact hb
  · have hlt := (List.pairwise_cons.mp hs).1 a hal
    have hle := (mem_notBelow.mp (hb ▸ List.mem_cons_self : b ∈ notBelow s (s.key a) (L i))).2
    exact absurd hlt (not_lt.mpr hle)

/-- **A present key is found.** -/
theorem locate_mem (hL : Layers s h L) {a : ℕ} (ha : a ∈ L 0) :
    ∃ upd, s.locate (s.key a) h = some (a, upd) ∧
      (∀ j < maxSkipLevel, upd j = prev s (s.key a) h (L j)) ∧ a ≠ h ∧ s.key? a = some (s.key a) := by
  obtain ⟨upd, hs, hupd⟩ := hL.locate (s.key a)
  obtain ⟨l, hl⟩ := hL.notBelow_eq (by decide) ha
  rw [hl] at hs
  exact ⟨upd, hs, hupd, ne_of_mem_of_not_mem ha hL.header,
    key?_of_live (hL.live a (List.mem_cons_of_mem _ ha))⟩

/-- **An absent key is not found.** -/
theorem locate_absent (hL : Layers s h L) (hk : ∀ a ∈ L 0, s.key a ≠ k) :
    ∃ c upd, s.locate k h = some (c, upd) ∧ (∀ j < maxSkipLevel, upd j = prev s k h (L j)) ∧
      s.key? c = some (s.key c) ∧ ¬ (c ≠ h ∧ k = s.key c) := by
  obtain ⟨upd, hs, hupd⟩ := hL.locate k
  refine ⟨_, upd, hs, hupd, ?_⟩
  cases hn : notBelow s k (L 0) with
  | nil =>
    have hp := prev_mem s k h (L 0)
    rw [List.mem_cons, mem_below] at hp
    refine ⟨key?_of_live (hL.live _ ?_), ?_⟩
    · rw [List.mem_cons]
      exact hp.imp_right And.left
    · rintro ⟨hne, he⟩
      exact absurd he.symm ((hp.resolve_left hne).2.ne)
  | cons b l =>
    have hb := (mem_notBelow.mp (hn ▸ List.mem_cons_self : b ∈ notBelow s k (L 0))).1
    refine ⟨key?_of_live (hL.live b (List.mem_cons_of_mem _ hb)), ?_⟩
    rintro ⟨-, he⟩
    exact hk b hb he.symm

/-! ## A node is put into the levels -/

/-- The pointers of level `j` after `Insert` has linked `new` into the levels up to `level`. -/
def linked (forward : ℕ → ℕ → Option ℕ) (new level : ℕ) (upd : ℕ → ℕ) (j : ℕ) : ℕ → Option ℕ :=
  if j ≤ level then update (update (forward j) new (forward j (upd j))) (upd j) (some new)
  else update (forward j) new none

theorem linkLevel_eq {new level i : ℕ} {upd : ℕ → ℕ} (hl : s.live (upd i) = true) :
    s.linkLevel new level upd i =
      some { s with forward := update s.forward i (linked s.forward new level upd i) } := by
  rw [SkipList.linkLevel, linked]
  split
  · rw [forward?_of_live hl]
    rfl
  · rfl

theorem foldlM_linkLevel {new level : ℕ} {upd : ℕ → ℕ} {m : ℕ} (hl : ∀ j < m, s.live (upd j) = true) :
    (List.range m).foldlM (SkipList.linkLevel new level upd) s =
      some { s with forward := fun j =>
        if j < m then linked s.forward new level upd j else s.forward j } := by
  induction m with
  | zero => rfl
  | succ m ih =>
    rw [List.range_succ, List.foldlM_append, ih fun j hj => hl j (by omega)]
    simp only [Option.bind_eq_bind, Option.bind_some, List.foldlM_cons, List.foldlM_nil]
    rw [linkLevel_eq (by exact hl m (Nat.lt_succ_self m))]
    simp only [Option.bind_some, Option.pure_def, Option.some.injEq, SkipList.mk.injEq, true_and,
      and_true]
    funext j
    by_cases hj : j = m
    · subst hj
      simp [linked]
    · have hlt : j < m + 1 ↔ j < m := by omega
      rw [update_of_ne hj]
      simp [hlt]

theorem Layers.sorted_link (hL : Layers s h L) (hk : ∀ a ∈ L 0, s.key a ≠ k) :
    (below s k (L 0) ++ s.top :: notBelow s k (L 0)).Pairwise
      fun a b => update s.key s.top k a < update s.key s.top k b := by
  have hkey : ∀ a ∈ L 0, update s.key s.top k a = s.key a := fun a ha =>
    update_of_ne (hL.lt_top a (List.mem_cons_of_mem h ha)).ne ..
  have hsort : ∀ l : List ℕ, l.Sublist (L 0) →
      l.Pairwise fun a b => update s.key s.top k a < update s.key s.top k b := fun l hl =>
    (hL.sorted.sublist hl).imp_of_mem fun ha hb hlt => by
      rwa [hkey _ (hl.subset ha), hkey _ (hl.subset hb)]
  refine List.pairwise_append.mpr ⟨hsort _ List.filter_sublist, List.pairwise_cons.mpr
    ⟨fun b hb => ?_, hsort _ List.filter_sublist⟩, fun a ha b hb => ?_⟩
  · obtain ⟨hb, hkb⟩ := mem_notBelow.mp hb
    rw [update_self, hkey b hb]
    exact lt_of_le_of_ne hkb (hk b hb).symm
  · obtain ⟨ha, hka⟩ := mem_below.mp ha
    rw [hkey a ha]
    rcases List.mem_cons.mp hb with rfl | hb
    · rwa [update_self]
    · obtain ⟨hb, hkb⟩ := mem_notBelow.mp hb
      rw [hkey b hb]
      exact hka.trans_le hkb

/-- **A new node** is put into the levels up to `level`. -/
theorem Layers.link (hL : Layers s h L) (hk : ∀ a ∈ L 0, s.key a ≠ k) {upd : ℕ → ℕ}
    (hupd : ∀ j < maxSkipLevel, upd j = prev s k h (L j)) (value : V) (level : ℕ) (size : ℤ) :
    Layers { s with key := update s.key s.top k, value := update s.value s.top value
                    level := update s.level s.top level, live := update s.live s.top true
                    top := s.top + 1, size := size
                    forward := fun j =>
                      if j < maxSkipLevel then linked s.forward s.top level upd j else s.forward j }
      h fun j => if j ≤ level then below s k (L j) ++ s.top :: notBelow s k (L j) else L j := by
  have htop : ∀ a ∈ h :: L 0, a ≠ s.top := fun a ha => (hL.lt_top a ha).ne
  have htop' : ∀ i < maxSkipLevel, s.top ∉ h :: L i := fun i hi hm =>
    htop _ (((hL.sublist hi).cons_cons h).subset hm) rfl
  constructor
  case head => exact hL.head
  case level => exact (update_of_ne (htop h List.mem_cons_self) ..).trans hL.level
  case chain =>
    intro i hi
    obtain ⟨X, hX, hX'⟩ := hL.cut k hi
    have hc := hL.chain i hi
    simp only [if_pos hi, linked]
    by_cases hle : i ≤ level
    · rw [hX'] at hc
      have hn := hX' ▸ hL.nodup_level hi
      have hp := List.nodup_middle.mp hn
      rw [List.nodup_cons, List.mem_append, not_or] at hp
      rw [if_pos hle, if_pos hle, hupd i hi, ← List.cons_append, hX, List.append_assoc,
        List.singleton_append]
      exact hc.link hp.1.1 hp.1.2 (hX' ▸ htop' i hi)
    · rw [if_neg hle, if_neg hle]
      exact hc.update (htop' i hi) none
  case nest =>
    intro i hi
    have hsub := hL.nest i hi
    by_cases hle : i + 1 ≤ level
    · rw [if_pos hle, if_pos (by omega)]
      exact (hsub.filter _).append ((hsub.filter _).cons_cons _)
    · rw [if_neg hle]
      split
      · apply hsub.trans
        conv_lhs => rw [← below_append_notBelow (k := k) (hL.sorted_level (show i < maxSkipLevel by omega))]
        exact (List.Sublist.refl _).append (List.sublist_cons_self _ _)
      · exact hsub
  case sorted =>
    rw [if_pos (Nat.zero_le _)]
    exact hL.sorted_link hk
  case live =>
    intro a ha
    rw [if_pos (Nat.zero_le _), List.mem_cons] at ha
    rcases ha with rfl | ha
    · exact (update_of_ne (htop a List.mem_cons_self) ..).trans (hL.live a List.mem_cons_self)
    · rcases mem_cut.mp ha with rfl | ha
      · exact update_self ..
      · have ha := List.mem_cons_of_mem h ha
        exact (update_of_ne (htop a ha) ..).trans (hL.live a ha)
  case lt_top =>
    intro a ha
    rw [if_pos (Nat.zero_le _), List.mem_cons] at ha
    rcases ha with rfl | ha
    · exact (hL.lt_top a List.mem_cons_self).trans (Nat.lt_succ_self _)
    · rcases mem_cut.mp ha with rfl | ha
      · exact Nat.lt_succ_self _
      · exact (hL.lt_top a (List.mem_cons_of_mem h ha)).trans (Nat.lt_succ_self _)
  case header =>
    rw [if_pos (Nat.zero_le _)]
    intro hm
    rcases mem_cut.mp hm with he | hm
    · exact htop h List.mem_cons_self he
    · exact hL.header hm

/-! ## A node is taken out of the levels -/

/-- The pointers of level `j` after `Delete` has unlinked `a`. -/
def unlinked (forward : ℕ → ℕ → Option ℕ) (a : ℕ) (upd : ℕ → ℕ) (j : ℕ) : ℕ → Option ℕ :=
  update (forward j) (upd j) (forward j a)

/-- The loop of `Delete` takes `a` out of the levels `p` that hold it, which are the lowest ones. -/
theorem unlinkLoop_spec {a : ℕ} {upd : ℕ → ℕ} (p : ℕ → Prop) [DecidablePred p] {m i : ℕ}
    (hlive : ∀ j < i + m, s.live (upd j) = true) (ha : s.live a = true)
    (hp : ∀ j, i ≤ j → j < i + m → (s.forward j (upd j) = some a ↔ p j))
    (hdown : ∀ j, i ≤ j → j + 1 < i + m → p (j + 1) → p j) :
    SkipList.unlinkLoop a upd m i s =
      some { s with forward := fun j =>
                      if (i ≤ j ∧ j < i + m) ∧ p j then unlinked s.forward a upd j
                      else s.forward j } := by
  induction m generalizing i s with
  | zero =>
    have hf : (fun j => if (i ≤ j ∧ j < i + 0) ∧ p j then unlinked s.forward a upd j
        else s.forward j) = s.forward := funext fun j => if_neg (by omega)
    rw [SkipList.unlinkLoop, hf]
  | succ m ih =>
    rw [SkipList.unlinkLoop, forward?_of_live (hlive i (by omega)), forward?_of_live ha]
    simp only [Option.bind_eq_bind, Option.bind_some]
    by_cases hi : p i
    · have hstep := ih (i := i + 1)
        (s := { s with forward := update s.forward i (unlinked s.forward a upd i) })
        (fun j hj => hlive j (by omega)) ha
        (fun j hj hj' => by
          simp only [update_of_ne (show j ≠ i by omega)]
          exact hp j (by omega) (by omega))
        (fun j hj hj' => hdown j (by omega) (by omega))
      rw [if_neg (not_not.mpr ((hp i le_rfl (by omega)).mpr hi))]
      apply hstep.trans
      simp only [Option.some.injEq, SkipList.mk.injEq, true_and, and_true]
      funext j
      by_cases hj : j = i
      · subst hj
        simp [hi]
      · have hle : i + 1 ≤ j ∧ j < i + 1 + m ↔ i ≤ j ∧ j < i + (m + 1) := by omega
        simp only [hle, unlinked, update_of_ne hj]
    · -- the loop breaks: the higher levels do not hold `a` either
      have hnot : ∀ d, i + d < i + (m + 1) → ¬ p (i + d) := by
        intro d
        induction d with
        | zero => exact fun _ => hi
        | succ d ihd => exact fun hd hpd => ihd (by omega) (hdown (i + d) (by omega) hd hpd)
      have hf : (fun j => if (i ≤ j ∧ j < i + (m + 1)) ∧ p j then unlinked s.forward a upd j
          else s.forward j) = s.forward := funext fun j => if_neg fun hj => by
        obtain ⟨d, rfl⟩ := Nat.exists_eq_add_of_le hj.1.1
        exact hnot d hj.1.2 hj.2
      rw [if_pos fun he => hi ((hp i le_rfl (by omega)).mp he), hf]

theorem filter_ne_splice {X Y : List ℕ} {a : ℕ} (hn : (X ++ a :: Y).Nodup) :
    (X ++ a :: Y).filter (fun b => b ≠ a) = X ++ Y := by
  have ha := List.nodup_middle.mp hn
  rw [List.nodup_cons, List.mem_append, not_or] at ha
  have hX : X.filter (fun b => b ≠ a) = X := List.filter_eq_self.mpr fun b hb =>
    decide_eq_true (ne_of_mem_of_not_mem hb ha.1.1)
  have hY : Y.filter (fun b => b ≠ a) = Y := List.filter_eq_self.mpr fun b hb =>
    decide_eq_true (ne_of_mem_of_not_mem hb ha.1.2)
  rw [List.filter_append, hX, List.filter_cons_of_neg (by simp), hY]

theorem Layers.forward_prev_eq (hL : Layers s h L) {a j : ℕ} (hj : j < maxSkipLevel) :
    s.forward j (prev s (s.key a) h (L j)) = some a ↔ a ∈ L j := by
  rw [hL.forward_prev _ hj]
  constructor
  · intro he
    exact (mem_notBelow.mp (List.mem_of_head? he)).1
  · intro ha
    obtain ⟨l, hl⟩ := hL.notBelow_eq hj ha
    rw [hl, List.head?_cons]

/-- **A node** is taken out of its levels. -/
theorem Layers.unlink (hL : Layers s h L) {a : ℕ} (ha : a ∈ L 0) {upd : ℕ → ℕ}
    (hupd : ∀ j < maxSkipLevel, upd j = prev s (s.key a) h (L j)) (size : ℤ) :
    Layers { s with live := update s.live a false, size := size
                    forward := fun j =>
                      if (0 ≤ j ∧ j < 0 + maxSkipLevel) ∧ a ∈ L j then unlinked s.forward a upd j
                      else s.forward j }
      h fun j => (L j).filter fun b => b ≠ a := by
  have hah : h ≠ a := (ne_of_mem_of_not_mem ha hL.header).symm
  have hmem : ∀ b, b ∈ h :: (L 0).filter (fun b => b ≠ a) → b ≠ a ∧ b ∈ h :: L 0 := by
    intro b hb
    rw [List.mem_cons, List.mem_filter] at hb
    rcases hb with rfl | ⟨hb, hne⟩
    · exact ⟨hah, List.mem_cons_self⟩
    · exact ⟨of_decide_eq_true hne, List.mem_cons_of_mem _ hb⟩
  constructor
  case head => exact hL.head
  case level => exact hL.level
  case chain =>
    intro i hi
    have hc := hL.chain i hi
    have hfilter : h :: (L i).filter (fun b => b ≠ a) = (h :: L i).filter fun b => b ≠ a := by
      rw [List.filter_cons_of_pos (by simpa using hah)]
    simp only
    by_cases hai : a ∈ L i
    · obtain ⟨X, -, hX⟩ := hL.cut (s.key a) hi
      obtain ⟨l, hl⟩ := hL.notBelow_eq hi hai
      have hn := hL.nodup_level hi
      rw [hX, hl] at hc hn
      have hp := List.nodup_middle.mp hn
      rw [List.nodup_cons, List.mem_append, List.mem_cons, not_or, not_or] at hp
      rw [if_pos ⟨by omega, hai⟩, unlinked, hupd i hi, hfilter, hX, hl, List.append_cons,
        filter_ne_splice (by rwa [List.append_cons] at hn), List.append_assoc, List.singleton_append]
      exact hc.unlink hp.1.1 hp.1.2.2
    · rw [if_neg fun hc => hai hc.2, List.filter_eq_self.mpr fun b hb =>
        decide_eq_true (ne_of_mem_of_not_mem hb hai)]
      exact hc
  case nest => exact fun i hi => (hL.nest i hi).filter _
  case sorted => exact hL.sorted.sublist List.filter_sublist
  case live =>
    intro b hb
    obtain ⟨hne, hb⟩ := hmem b hb
    exact (update_of_ne hne ..).trans (hL.live b hb)
  case lt_top => exact fun b hb => hL.lt_top b (hmem b hb).2
  case header => exact fun hm => hL.header (List.mem_filter.mp hm).1

end Backend.Skip
