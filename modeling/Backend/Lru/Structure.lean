import Backend.Lru.Model
import Backend.Lib.Chain
import Backend.Lib.Linked
import Backend.Lib.Ring
import Mathlib.Data.Fintype.Card

/-!
# `LruHashMap`: the three structures over the entries

`Rep code m L` says that `L` are the live entries in access order, oldest first, that the bucket chains
and the circular access list hold exactly these, and that the ring of free indices holds the others.
Every operation keeps it.

* `EntryQueue.Content`, `pushAll_content`: the ring of free indices;
* `Rep`, `init_rep`, `Rep.reset`;
* **`Rep.find_mem`**, **`Rep.find_absent`**: the lookup finds the live entry of a key;
* `accessRemove_spec`, `accessAddBefore_spec`, **`Rep.recordAccess`**: an entry becomes the newest;
* **`Rep.remove`**, **`Rep.link`**: an entry is removed, an entry is added.
-/

set_option autoImplicit false
set_option linter.unusedSectionVars false

namespace Backend.Lru

open Function

/-! ## The ring of free indices -/

section Content

variable {T : Type}

/-- The ring holds `l`, from `m_head` on. -/
def EntryQueue.Content (q : EntryQueue T) (l : List T) : Prop :=
  ∃ r, Holds q.data q.size r l ∧ q.head = r % q.size ∧ q.tail = (r + l.length) % q.size

theorem EntryQueue.Content.push {q : EntryQueue T} {l : List T} (h : q.Content l)
    (hl : l.length < q.size) (x : T) : (q.push x).Content (l ++ [x]) := by
  obtain ⟨r, hr, hh, ht⟩ := h
  refine ⟨r, ?_, hh, ?_⟩
  · rw [EntryQueue.push, ht]
    exact hr.push hl x
  · simp only [EntryQueue.push, ht, slot_succ, List.length_append, List.length_cons, List.length_nil]
    rfl

theorem EntryQueue.Content.pop {q : EntryQueue T} {l : List T} {x : T} (h : q.Content (x :: l)) :
    q.pop.1 = x ∧ q.pop.2.Content l := by
  obtain ⟨r, hr, hh, ht⟩ := h
  refine ⟨?_, r + 1, hr.tail, ?_, ?_⟩
  · rw [EntryQueue.pop, hh]
    exact hr.head
  · simp only [EntryQueue.pop, hh, slot_succ]
  · simp only [EntryQueue.pop, ht, List.length_cons]
    congr 1
    omega

theorem EntryQueue.Content.foldl_push {ι : Type} (f : ι → T) {q : EntryQueue T} {l : List T}
    (h : q.Content l) (xs : List ι) (hl : l.length + xs.length ≤ q.size) :
    (xs.foldl (fun q i => q.push (f i)) q).Content (l ++ xs.map f) ∧
      (xs.foldl (fun q i => q.push (f i)) q).size = q.size := by
  induction xs generalizing q l with
  | nil => exact ⟨by simpa using h, rfl⟩
  | cons x xs ih =>
    rw [List.length_cons] at hl
    have := ih (h.push (by omega) (f x)) (by simp [EntryQueue.push]; omega)
    rw [List.append_assoc] at this
    exact this

end Content

variable {n : ℕ} {K V : Type}

theorem pushAll_content {q : EntryQueue (Idx n)} (h : q.Content []) (hs : q.size = n + 2) :
    (pushAll q).Content ((List.finRange (n + 2)).map some) ∧ (pushAll q).size = n + 2 := by
  have := h.foldl_push some (List.finRange (n + 2)) (by simp [hs])
  rw [hs] at this
  exact this

/-- After `Init` and `Reset` the ring holds all indices; the first one is taken for the header. -/
theorem pushAll_pop {q : EntryQueue (Idx n)} (hh : q.head = 0) (ht : q.tail = 0)
    (hs : q.size = n + 2) : ∃ q', (pushAll q).pop = (some 0, q') ∧ q'.size = n + 2 ∧
      q'.Content (((List.finRange (n + 1)).map Fin.succ).map some) := by
  have h0 : q.Content [] :=
    ⟨0, holds_nil _ _ _, by rw [hh, Nat.zero_mod], by rw [ht]; exact (Nat.zero_mod _).symm⟩
  obtain ⟨hc, hsize⟩ := pushAll_content h0 hs
  rw [List.finRange_succ, List.map_cons] at hc
  obtain ⟨h1, h2⟩ := hc.pop
  exact ⟨_, Prod.ext h1 rfl, hsize, h2⟩

/-! ## The invariant -/

variable [DecidableEq K] (code : K → UInt32)

/-- `L` are the live entries, oldest first. -/
structure Rep (m : LruHashMap n K V) (L : List (Slot n)) : Prop where
  header : m.header = 0
  access : Linked m.after m.before m.header L m.header
  index : ∀ x ∈ m.header :: L, m.index x = some x
  keys : (L.map m.key).Nodup
  chains : ∃ C : ℕ → List (Slot n), ∀ j, Chain m.next (m.table j) (C j) none ∧ (C j).Nodup ∧
    ∀ x, x ∈ C j ↔ x ∈ L ∧ bucket code n (m.key x) = j
  free : ∃ F : List (Slot n), m.queue.Content (F.map some) ∧
    (m.header :: (L ++ F)).Perm (List.finRange (n + 2))
  size : m.queue.size = n + 2
  nodeNum : m.nodeNum = L.length

variable {code} {m : LruHashMap n K V} {L : List (Slot n)}

theorem Rep.nodup (h : Rep code m L) : (m.header :: L).Nodup := by
  obtain ⟨F, -, hp⟩ := h.free
  have := (hp.nodup_iff).mpr (List.nodup_finRange _)
  rw [← List.cons_append] at this
  exact (List.nodup_append.mp this).1

theorem Rep.key_inj (h : Rep code m L) {x y : Slot n} (hx : x ∈ L) (hy : y ∈ L)
    (he : m.key x = m.key y) : x = y := List.inj_on_of_nodup_map h.keys hx hy he

theorem rep_nil (hh : m.header = 0) (ha : m.after 0 = some 0) (hb : m.before 0 = some 0)
    (hi : m.index 0 = some 0) (ht : ∀ j, m.table j = none) (hn : m.nodeNum = 0)
    (hs : m.queue.size = n + 2)
    (hc : m.queue.Content (((List.finRange (n + 1)).map Fin.succ).map some)) : Rep code m [] where
  header := hh
  access := by
    rw [hh]
    exact ⟨ha, hb⟩
  index x hx := by
    rw [List.mem_singleton.mp hx, hh, hi]
  keys := List.nodup_nil
  chains := ⟨fun _ => [], fun j => ⟨ht j, List.nodup_nil, fun x => by simp⟩⟩
  free := ⟨_, hc, by rw [hh, List.nil_append, ← List.finRange_succ]⟩
  size := hs
  nodeNum := hn

/-- **`Init`** gives a map without entries. -/
theorem init_rep {key : Slot n → K} {value : Slot n → V} (h : LruHashMap.init n key value = some m) :
    Rep code m [] := by
  rw [LruHashMap.init] at h
  split at h
  · cases h
  · obtain ⟨q, hq, hs, hc⟩ := pushAll_pop (q := EntryQueue.init (some (0 : Slot n)) (n + 2)) rfl rfl rfl
    rw [hq] at h
    simp only [Option.map_some, Option.some.injEq] at h
    subst h
    exact rep_nil rfl (by simp) (by simp) (by simp) (fun _ => rfl) rfl hs hc

/-- **`Reset`** gives a map without entries. -/
theorem Rep.reset (h : Rep code m L) : m.reset.1 = true ∧ Rep code m.reset.2 [] := by
  obtain ⟨q, hq, hs, hc⟩ := pushAll_pop (q := m.queue.reset) rfl rfl h.size
  rw [LruHashMap.reset, hq]
  exact ⟨rfl, rep_nil rfl (by simp) (by simp) (by simp) (fun _ => rfl) rfl hs hc⟩

theorem Rep.setValue (h : Rep code m L) (value : Slot n → V) : Rep code { m with value := value } L :=
  ⟨h.header, h.access, h.index, h.keys, h.chains, h.free, h.size, h.nodeNum⟩

/-! ## Lookup -/

theorem findLoop_spec {key : K} {l : List (Slot n)} {h : Idx n} (hc : Chain m.next h l none)
    {fuel : ℕ} (hf : l.length < fuel) :
    m.findLoop key fuel h = some (l.find? fun e => m.key e = key) := by
  induction l generalizing h fuel with
  | nil =>
    obtain ⟨fuel, rfl⟩ : ∃ f, fuel = f + 1 := ⟨fuel - 1, by omega⟩
    rw [chain_nil.mp hc]
    rfl
  | cons x l ih =>
    obtain ⟨fuel, rfl⟩ : ∃ f, fuel = f + 1 := ⟨fuel - 1, by omega⟩
    obtain ⟨rfl, hc⟩ := hc
    rw [LruHashMap.findLoop, List.find?_cons]
    by_cases hx : m.key x = key
    · rw [if_pos hx, decide_eq_true hx]
    · rw [if_neg hx, decide_eq_false hx]
      exact ih hc (by simpa using hf)

theorem length_lt_of_nodup {l : List (Slot n)} (h : l.Nodup) : l.length < n + 3 := by
  have := h.length_le_card
  rw [Fintype.card_fin] at this
  omega

/-- **The lookup of a live key.** -/
theorem Rep.find_mem (h : Rep code m L) {e : Slot n} (he : e ∈ L) :
    m.find code (m.key e) = some (some e) := by
  obtain ⟨C, hC⟩ := h.chains
  obtain ⟨hc, hn, hm⟩ := hC (bucket code n (m.key e))
  rw [LruHashMap.find, findLoop_spec hc (length_lt_of_nodup hn), Option.some.injEq]
  cases hf : List.find? (fun x => m.key x = m.key e) (C (bucket code n (m.key e))) with
  | none =>
    have := List.find?_eq_none.mp hf e ((hm e).mpr ⟨he, rfl⟩)
    simp at this
  | some x =>
    have hx := List.mem_of_find?_eq_some hf
    have hk := List.find?_some hf
    rw [h.key_inj ((hm x).mp hx).1 he (of_decide_eq_true hk)]

/-- **The lookup of a key that is not live.** -/
theorem Rep.find_absent (h : Rep code m L) {key : K} (hk : ∀ x ∈ L, m.key x ≠ key) :
    m.find code key = some none := by
  obtain ⟨C, hC⟩ := h.chains
  obtain ⟨hc, hn, hm⟩ := hC (bucket code n key)
  rw [LruHashMap.find, findLoop_spec hc (length_lt_of_nodup hn), Option.some.injEq]
  refine List.find?_eq_none.mpr fun x hx => ?_
  simpa using hk x ((hm x).mp hx).1

/-! ## The access list -/

theorem accessRemove_spec {A B : List (Slot n)} {e : Slot n} {h : Slot n}
    (hl : Linked m.after m.before h (A ++ e :: B) h) (hn : (h :: (A ++ e :: B)).Nodup) :
    ∃ af bf, m.accessRemove e = some { m with after := af, before := bf } ∧
      Linked af bf h (A ++ B) h := by
  have hnot := (List.nodup_cons.mp hn).1
  obtain ⟨p, hp, q, hq, hb, ha, hl⟩ := hl.splice hn hnot
  have hpe : e ≠ p := by
    rintro rfl
    rw [← List.cons_append] at hn
    exact (List.nodup_append.mp hn).2.2 e hp e (by simp) rfl
  refine ⟨_, _, ?_, hl⟩
  rw [LruHashMap.accessRemove]
  simp only [hb, ha, Option.bind_eq_bind, Option.bind_some, update_of_ne hpe]

theorem accessAddBefore_spec {e : Slot n} (hl : Linked m.after m.before m.header L m.header)
    (hn : (m.header :: L).Nodup) (he : e ∉ m.header :: L) (hi : m.index m.header = some m.header)
    (hie : m.index e = some e) :
    ∃ af bf, m.accessAddBefore e = some { m with after := af, before := bf } ∧
      Linked af bf m.header (L ++ [e]) m.header := by
  have heh : e ≠ m.header := fun h => he (by simp [h])
  obtain ⟨p, hp, hb, hl⟩ := hl.snoc hn (List.nodup_cons.mp hn).1 he heh
  have hep : e ≠ p := (ne_of_mem_of_not_mem hp he).symm
  refine ⟨_, _, ?_, hl⟩
  rw [LruHashMap.accessAddBefore]
  simp only [hb, hi, hie, update_self, Option.bind_eq_bind, Option.bind_some, update_of_ne hep]

theorem Rep.reorder (h : Rep code m L) {L' : List (Slot n)} (hp : L'.Perm L)
    {af bf : Slot n → Idx n} (hl : Linked af bf m.header L' m.header) :
    Rep code { m with after := af, before := bf } L' where
  header := h.header
  access := hl
  index x hx := h.index x ((List.perm_cons _).mpr hp |>.mem_iff.mp hx)
  keys := (hp.map m.key).nodup_iff.mpr h.keys
  chains := by
    obtain ⟨C, hC⟩ := h.chains
    refine ⟨C, fun j => ⟨(hC j).1, (hC j).2.1, fun x => ?_⟩⟩
    rw [hp.mem_iff]
    exact (hC j).2.2 x
  free := by
    obtain ⟨F, hF, hperm⟩ := h.free
    exact ⟨F, hF, ((List.perm_cons _).mpr (hp.append_right F)).trans hperm⟩
  size := h.size
  nodeNum := by
    rw [hp.length_eq]
    exact h.nodeNum

/-- **`RecordAccess`** makes an entry the newest. -/
theorem Rep.recordAccess {A B : List (Slot n)} {e : Slot n} (h : Rep code m (A ++ e :: B)) :
    ∃ af bf, m.recordAccess e true = some { m with after := af, before := bf } ∧
      Rep code { m with after := af, before := bf } (A ++ B ++ [e]) := by
  have hperm : (A ++ B ++ [e]).Perm (A ++ e :: B) :=
    (List.perm_append_singleton e (A ++ B)).trans List.perm_middle.symm
  have hn : (m.header :: (A ++ B ++ [e])).Nodup := ((List.perm_cons _).mpr hperm).nodup_iff.mpr h.nodup
  rw [← List.cons_append] at hn
  obtain ⟨hn, -, hd⟩ := List.nodup_append.mp hn
  obtain ⟨af, bf, hr, hl⟩ := accessRemove_spec h.access h.nodup
  obtain ⟨af', bf', hr', hl'⟩ := accessAddBefore_spec (m := { m with after := af, before := bf }) hl hn
    (fun he => hd e he e (by simp) rfl) (h.index _ (by simp)) (h.index e (by simp))
  refine ⟨af', bf', ?_, h.reorder hperm hl'⟩
  rw [LruHashMap.recordAccess, if_pos rfl, hr]
  exact hr'

/-! ## Removal -/

theorem removeLoop_absent {key : K} {idx : ℕ} {l : List (Slot n)} {pre cur : Idx n}
    (hc : Chain m.next cur l none) (hk : ∀ x ∈ l, m.key x ≠ key) {fuel : ℕ} (hf : l.length < fuel) :
    LruHashMap.removeLoop key idx fuel pre cur m = some (false, m) := by
  induction l generalizing pre cur fuel with
  | nil =>
    obtain ⟨fuel, rfl⟩ : ∃ f, fuel = f + 1 := ⟨fuel - 1, by omega⟩
    rw [chain_nil.mp hc]
    rfl
  | cons x l ih =>
    obtain ⟨fuel, rfl⟩ : ∃ f, fuel = f + 1 := ⟨fuel - 1, by omega⟩
    obtain ⟨rfl, hc⟩ := hc
    rw [LruHashMap.removeLoop]
    simp only [if_neg (hk x List.mem_cons_self)]
    exact ih hc (fun y hy => hk y (List.mem_cons_of_mem _ hy)) (by simpa using hf)

theorem removeLoop_walk {key : K} {idx : ℕ} {X Y : List (Slot n)} {p e : Slot n} {pre cur : Idx n}
    (hc : Chain m.next cur (X ++ p :: e :: Y) none) (hk : ∀ x ∈ X ++ [p], m.key x ≠ key) (fuel : ℕ) :
    LruHashMap.removeLoop key idx (fuel + (X.length + 1)) pre cur m =
      LruHashMap.removeLoop key idx fuel (some p) (some e) m := by
  induction X generalizing pre cur with
  | nil =>
    obtain ⟨rfl, he, -⟩ := hc
    rw [List.length_nil, LruHashMap.removeLoop]
    simp only [if_neg (hk p (by simp)), he]
  | cons x X ih =>
    obtain ⟨rfl, hc⟩ := hc
    rw [List.length_cons, ← Nat.add_assoc, LruHashMap.removeLoop]
    simp only [if_neg (hk x (by simp))]
    exact ih hc fun y hy => hk y (List.mem_cons_of_mem _ hy)

theorem mem_splice {α : Type} {X Y : List α} {e x : α} (h : (X ++ e :: Y).Nodup) :
    x ∈ X ++ Y ↔ x ∈ X ++ e :: Y ∧ x ≠ e := by
  have := (List.nodup_middle.mp h)
  rw [List.nodup_cons] at this
  constructor
  · intro hx
    refine ⟨?_, fun he => this.1 (he ▸ hx)⟩
    rw [List.mem_append] at hx ⊢
    exact hx.imp_right (List.mem_cons_of_mem _)
  · rintro ⟨hx, hne⟩
    rw [List.mem_append, List.mem_cons] at hx
    rw [List.mem_append]
    tauto

theorem chains_splice {C : ℕ → List (Slot n)} {A B X Y : List (Slot n)} {e : Slot n} {idx : ℕ}
    (hC : ∀ j, (C j).Nodup ∧ ∀ x, x ∈ C j ↔ x ∈ A ++ e :: B ∧ bucket code n (m.key x) = j)
    (hL : (A ++ e :: B).Nodup) (hidx : bucket code n (m.key e) = idx) (hXY : C idx = X ++ e :: Y)
    (j : ℕ) : (update C idx (X ++ Y) j).Nodup ∧
      ∀ x, x ∈ update C idx (X ++ Y) j ↔ x ∈ A ++ B ∧ bucket code n (m.key x) = j := by
  obtain ⟨hn, hm⟩ := hC j
  by_cases hj : j = idx
  · subst hj
    rw [hXY] at hn hm
    rw [update_self]
    refine ⟨(List.nodup_middle.mp hn).of_cons, fun x => ?_⟩
    rw [mem_splice hn, mem_splice hL, hm]
    tauto
  · rw [update_of_ne hj]
    refine ⟨hn, fun x => ?_⟩
    rw [hm, mem_splice hL]
    -- `e` is in another chain
    refine ⟨fun hx => ⟨⟨hx.1, fun he => ?_⟩, hx.2⟩, fun hx => ⟨hx.1.1, hx.2⟩⟩
    exact hj (hx.2.symm.trans (he ▸ hidx))

/-- Entry `e` is taken out of its chain, given by `t` and `nx`, out of the access list, given by `af`
and `bf`, and put into the ring. -/
theorem Rep.unlink {A B : List (Slot n)} {e : Slot n} (h : Rep code m (A ++ e :: B)) {t : ℕ → Idx n}
    {nx af bf : Slot n → Idx n} {C : ℕ → List (Slot n)}
    (hC : ∀ j, Chain nx (t j) (C j) none ∧ (C j).Nodup ∧
      ∀ x, x ∈ C j ↔ x ∈ A ++ B ∧ bucket code n (m.key x) = j)
    (hl : Linked af bf m.header (A ++ B) m.header) :
    Rep code { m with nodeNum := m.nodeNum - 1, table := t, next := nx, after := af, before := bf
                      queue := m.queue.push (some e) } (A ++ B) where
  header := h.header
  access := hl
  index x hx := h.index x (by
    rw [List.mem_cons, List.mem_append] at hx
    rw [List.mem_cons, List.mem_append, List.mem_cons]
    tauto)
  keys := h.keys.sublist ((List.sublist_cons_self e B).append_left A |>.map m.key)
  chains := ⟨C, hC⟩
  free := by
    obtain ⟨F, hF, hp⟩ := h.free
    have hlen := hp.length_eq
    simp only [List.length_cons, List.length_append, List.length_finRange] at hlen
    refine ⟨F ++ [e], ?_, List.Perm.trans ((List.perm_cons _).mpr ?_) hp⟩
    · rw [List.map_append]
      exact hF.push (by rw [h.size, List.length_map]; omega) (some e)
    · rw [← List.append_assoc]
      apply (List.perm_append_singleton e (A ++ B ++ F)).trans
      rw [List.append_assoc, List.append_assoc, List.cons_append]
      exact List.perm_middle.symm
  size := h.size
  nodeNum := by
    have := h.nodeNum
    simp only [List.length_append, List.length_cons] at this ⊢
    omega

theorem removeLoop_found {key : K} {idx fuel : ℕ} {pre : Idx n} {e : Slot n} (hk : m.key e = key)
    {m₁ m₂ : LruHashMap n K V}
    (h₁ : { m with nodeNum := m.nodeNum - 1 }.unlink idx pre e = some m₁)
    (h₂ : m₁.accessRemove e = some m₂) :
    LruHashMap.removeLoop key idx (fuel + 1) pre (some e) m =
      some (true, { m₂ with queue := m₂.queue.push (some e) }) := by
  rw [LruHashMap.removeLoop]
  simp only [if_pos hk, h₁, Option.bind_eq_bind, Option.bind_some, h₂]

/-- **`Remove`** of a live key. -/
theorem Rep.remove {A B : List (Slot n)} {e : Slot n} (h : Rep code m (A ++ e :: B)) :
    ∃ m', m.remove code (m.key e) = some (true, m') ∧ Rep code m' (A ++ B) ∧ m'.key = m.key ∧
      m'.value = m.value := by
  obtain ⟨C, hC⟩ := h.chains
  obtain ⟨idx, hidx⟩ : ∃ j, bucket code n (m.key e) = j := ⟨_, rfl⟩
  obtain ⟨hc, hn, hm⟩ := hC idx
  obtain ⟨X, Y, hXY⟩ := List.append_of_mem ((hm e).mpr ⟨by simp, hidx⟩)
  rw [hXY] at hc hn hm
  have hkX : ∀ x ∈ X, m.key x ≠ m.key e := fun x hx hk => by
    have := h.key_inj ((hm x).mp (List.mem_append_left _ hx)).1 (by simp) hk
    exact (List.nodup_append.mp hn).2.2 x hx e (by simp) this
  have hC' := chains_splice (fun j => (hC j).2) h.nodup.of_cons hidx hXY
  have hlen := length_lt_of_nodup hn
  rw [LruHashMap.remove, hidx]
  rcases List.eq_nil_or_concat' X with rfl | ⟨X, p, rfl⟩
  · -- `e` is the first entry of its chain
    obtain ⟨ht, hc⟩ := hc
    obtain ⟨af, bf, hr, hl⟩ := accessRemove_spec (h := m.header)
      (m := { m with nodeNum := m.nodeNum - 1, table := update m.table idx (m.next e) })
      h.access h.nodup
    have hc' : ∀ j, Chain m.next (update m.table idx (m.next e) j) (update C idx Y j) none := by
      intro j
      by_cases hj : j = idx
      · rw [hj, update_self, update_self]
        exact hc
      · rw [update_of_ne hj, update_of_ne hj]
        exact (hC j).1
    rw [ht]
    exact ⟨_, removeLoop_found rfl (if_pos rfl) hr, h.unlink (fun j => ⟨hc' j, hC' j⟩) hl, rfl, rfl⟩
  · -- `p` is the entry before it
    rw [List.append_assoc, List.singleton_append] at hc hn hm hlen
    have hnp := List.nodup_middle.mp hn
    rw [List.nodup_cons, List.mem_append, List.mem_cons, not_or, not_or] at hnp
    obtain ⟨⟨hpX, hpe, hpY⟩, -⟩ := hnp
    obtain ⟨af, bf, hr, hl⟩ := accessRemove_spec (h := m.header)
      (m := { m with nodeNum := m.nodeNum - 1, next := update m.next p (m.next e) })
      h.access h.nodup
    obtain ⟨fuel, hf⟩ : ∃ fuel, n + 3 = fuel + 1 + (X.length + 1) := by
      rw [List.length_append, List.length_cons, List.length_cons] at hlen
      exact ⟨n + 1 - X.length, by omega⟩
    have hc' : ∀ j, Chain (update m.next p (m.next e)) (m.table j) (update C idx (X ++ [p] ++ Y) j)
        none := by
      intro j
      by_cases hj : j = idx
      · rw [hj, update_self, List.append_assoc]
        exact hc.unlink hpX hpY
      · rw [update_of_ne hj]
        refine (hC j).1.update (fun hp => hj ?_) _
        exact ((hC j).2.2 p).mp hp |>.2.symm.trans ((hm p).mp (by simp)).2
    rw [hf, removeLoop_walk hc hkX]
    exact ⟨_, removeLoop_found rfl (if_neg fun he => hpe (Option.some.inj he)) hr,
      h.unlink (fun j => ⟨hc' j, hC' j⟩) hl, rfl, rfl⟩

theorem Rep.remove_absent (h : Rep code m L) {key : K} (hk : ∀ x ∈ L, m.key x ≠ key) :
    m.remove code key = some (false, m) := by
  obtain ⟨C, hC⟩ := h.chains
  obtain ⟨hc, hn, hm⟩ := hC (bucket code n key)
  exact removeLoop_absent hc (fun x hx => hk x ((hm x).mp hx).1) (length_lt_of_nodup hn)

/-! ## Insertion -/

theorem chains_linkEntry {C : ℕ → List (Slot n)} (hC : ∀ j, Chain m.next (m.table j) (C j) none ∧
      (C j).Nodup ∧ ∀ x, x ∈ C j ↔ x ∈ L ∧ bucket code n (m.key x) = j) {e : Slot n} (he : e ∉ L)
    (key : K) (value : V) {idx : ℕ} (hidx : bucket code n key = idx) (j : ℕ) :
    Chain (m.linkEntry e key value idx).next ((m.linkEntry e key value idx).table j)
        (update C idx (e :: C idx) j) none ∧ (update C idx (e :: C idx) j).Nodup ∧
      ∀ x, x ∈ update C idx (e :: C idx) j ↔
        x ∈ L ++ [e] ∧ bucket code n ((m.linkEntry e key value idx).key x) = j := by
  have heC : ∀ j, e ∉ C j := fun j hj => he (((hC j).2.2 e).mp hj).1
  have hmem : ∀ j x, x ∈ C j ↔ x ∈ L ∧ bucket code n (update m.key e key x) = j := by
    intro j x
    rw [(hC j).2.2]
    refine and_congr_right fun hx => ?_
    rw [update_of_ne (ne_of_mem_of_not_mem hx he)]
  by_cases hj : j = idx
  · subst hj
    simp only [LruHashMap.linkEntry, update_self]
    refine ⟨⟨rfl, ?_⟩, List.nodup_cons.mpr ⟨heC j, (hC j).2.1⟩, fun x => ?_⟩
    · rw [update_self]
      exact (hC j).1.update (heC j) _
    · rw [List.mem_cons, List.mem_append, List.mem_singleton, hmem]
      by_cases hx : x = e
      · subst hx
        simp [hidx]
      · simp [hx]
  · simp only [LruHashMap.linkEntry, update_of_ne hj]
    refine ⟨(hC j).1.update (heC j) _, (hC j).2.1, fun x => ?_⟩
    rw [List.mem_append, List.mem_singleton, hmem]
    by_cases hx : x = e
    · subst hx
      simp [he, hidx, Ne.symm hj]
    · simp [hx]

/-- **A free entry** is taken for a key that is not live. -/
theorem Rep.link (h : Rep code m L) (hl : L.length ≤ n) {key : K} (hk : ∀ x ∈ L, m.key x ≠ key)
    (value : V) : ∃ e q af bf, m.queue.pop = (some e, q) ∧ e ∉ L ∧
      ({ m with queue := q }.linkEntry e key value (bucket code n key)).accessAddBefore e =
        some { { m with queue := q }.linkEntry e key value (bucket code n key) with
          after := af, before := bf } ∧
      Rep code { { m with queue := q }.linkEntry e key value (bucket code n key) with
        after := af, before := bf, nodeNum := m.nodeNum + 1 } (L ++ [e]) := by
  obtain ⟨F, hF, hp⟩ := h.free
  have hlen := hp.length_eq
  simp only [List.length_cons, List.length_append, List.length_finRange] at hlen
  obtain ⟨e, F, rfl⟩ := List.exists_cons_of_length_pos (l := F) (by omega)
  obtain ⟨hpop, hF⟩ := hF.pop
  have hall := hp.nodup_iff.mpr (List.nodup_finRange _)
  rw [← List.cons_append] at hall
  have he : e ∉ m.header :: L := fun he => (List.nodup_append.mp hall).2.2 e he e (by simp) rfl
  have heL : e ∉ L := fun h => he (List.mem_cons_of_mem _ h)
  have hne : ∀ x ∈ m.header :: L, x ≠ e := fun x hx => ne_of_mem_of_not_mem hx he
  have hindex : ∀ x ∈ m.header :: L, update m.index e (some e) x = some x := fun x hx =>
    (update_of_ne (hne x hx) ..).trans (h.index x hx)
  obtain ⟨C, hC⟩ := h.chains
  obtain ⟨af, bf, hadd, hlinked⟩ := accessAddBefore_spec (L := L) (e := e)
    (m := { m with queue := m.queue.pop.2 }.linkEntry e key value (bucket code n key)) h.access h.nodup
    he (hindex _ List.mem_cons_self) (update_self ..)
  refine ⟨e, _, af, bf, Prod.ext hpop rfl, heL, hadd, ?_⟩
  exact {
    header := h.header
    access := hlinked
    index := fun x hx => by
      rw [← List.cons_append, List.mem_append, List.mem_singleton] at hx
      rcases hx with hx | rfl
      · exact hindex x hx
      · exact update_self ..
    keys := by
      have hmap : L.map (update m.key e key) = L.map m.key :=
        List.map_congr_left fun x hx => update_of_ne (ne_of_mem_of_not_mem hx heL) ..
      simp only [LruHashMap.linkEntry, List.map_append, hmap, List.map_cons, update_self, List.map_nil]
      refine List.nodup_append.mpr ⟨h.keys, List.nodup_singleton _, fun k hk' y hy => ?_⟩
      obtain ⟨x, hx, rfl⟩ := List.mem_map.mp hk'
      rw [List.mem_singleton.mp hy]
      exact hk x hx
    chains := ⟨_, chains_linkEntry (m := { m with queue := m.queue.pop.2 }) hC heL key value rfl⟩
    free := ⟨F, hF, by
      rw [List.append_assoc, List.singleton_append]
      exact hp⟩
    size := h.size
    nodeNum := by
      simp [h.nodeNum] }

end Backend.Lru
