import Backend.XServer.Slots
import Mathlib.Data.List.ReduceOption

/-!
# `get_free_conn` against `put_free_conn` (`base/longconn/xserver.cc`)

The accept thread takes connections from the list of a worker and the worker puts them back, without a
lock. One step is one read or write of a pointer.

* `Getter`, `Putter`, `Act`, `State`, `next`: the two threads; `handed` and `returned` are the
  connections in the order in which they were handed out and put back, `results` is what the calls of
  `get_free_conn` have returned;
* `Step`, **`step_of_next`**: what one step can do;
* `Inv`, `Inv.step`: the nodes from `m_head` to `m_tail` are the connections that come next in the order
  in which they were put back;
* **`correct_of_reach`**: the list is a queue.

`m_head` is written by the getter only, so that the order of the two reads of its comparison does not
matter.
-/

set_option autoImplicit false

namespace Backend.XServer.FreeList

open Function

variable {n : ℕ}

/-- Where the thread in `get_free_conn` is. -/
inductive Getter (n : ℕ)
  /-- outside -/
  | idle
  /-- before the read of `m_head` in the comparison -/
  | head
  /-- before the read of `m_tail` in the comparison -/
  | tail (h : Option (Fin (n + 1)))
  /-- before `item = list->m_head` -/
  | item
  /-- before the read of `m_head` in `list->m_head->m_next` -/
  | again (item : Option (Fin (n + 1)))
  /-- before the read of `h->m_next` -/
  | next (item h : Option (Fin (n + 1)))
  /-- before the write of `m_head` -/
  | write (item p : Option (Fin (n + 1)))

/-- Where the thread in `put_free_conn` is. -/
inductive Putter (n : ℕ)
  /-- outside -/
  | idle
  /-- before the read of `m_tail` in `list->m_tail->m_next` -/
  | tail (conn : Fin (n + 1))
  /-- before the write of `t->m_next` -/
  | link (conn t : Fin (n + 1))
  /-- before the write of `m_tail` -/
  | move (conn : Fin (n + 1))

/-- The list, the two threads and the monitors: which connections are handed out, and the orders. -/
structure State (n : ℕ) where
  next : Fin (n + 1) → Option (Fin (n + 1))
  head : Option (Fin (n + 1))
  tail : Fin (n + 1)
  getter : Getter n
  putter : Putter n
  out : Fin (n + 1) → Bool
  handed : List (Fin (n + 1))
  returned : List (Fin (n + 1))
  results : List (Option (Fin (n + 1)))

/-- The list that `init_conn_list(n)` builds. -/
def State.init (n : ℕ) : State n :=
  { next := (initConnList n).links, head := (initConnList n).head, tail := (initConnList n).tail,
    getter := .idle, putter := .idle, out := fun _ => false, handed := [], returned := [], results := [] }

/-- The steps: a call of `get_free_conn`, a call of `put_free_conn` and the steps inside them. -/
inductive Act (n : ℕ)
  | get
  | getter
  | put (conn : Fin (n + 1))
  | putter

/-- `m_head` is written and `item` returned. -/
def State.hand (s : State n) (item : Fin (n + 1)) (p : Option (Fin (n + 1))) : State n :=
  { s with head := p, getter := .idle, out := update s.out item true, handed := s.handed ++ [item],
           results := s.results ++ [some item] }

/-- `m_tail` is written. -/
def State.moveTail (s : State n) (conn : Fin (n + 1)) : State n :=
  { s with tail := conn, putter := .idle, returned := s.returned ++ [conn] }

/-- The getter goes on; `none` is the use of `NULL`. -/
def State.goGetter (s : State n) : Option (State n) :=
  match s.getter with
  | .idle => none
  | .head => some { s with getter := .tail s.head }
  | .tail h => if h ≠ some s.tail then some { s with getter := .item }
      else some { s with getter := .idle, results := s.results ++ [none] }
  | .item => some { s with getter := .again s.head }
  | .again item => some { s with getter := .next item s.head }
  | .next item h => h.map fun h => { s with getter := .write item (s.next h) }
  | .write item p => item.map fun item => s.hand item p

/-- The putter goes on. -/
def State.goPutter (s : State n) : Option (State n) :=
  match s.putter with
  | .idle => none
  | .tail conn => some { s with putter := .link conn s.tail }
  | .link conn t => some { s with next := update s.next t (some conn), putter := .move conn }
  | .move conn => some (s.moveTail conn)

/-- One step. Only a connection that is handed out is put back. -/
def next (s : State n) : Act n → Option (State n)
  | .get => match s.getter with
    | .idle => some { s with getter := .head }
    | _ => none
  | .getter => s.goGetter
  | .put conn => match s.putter with
    | .idle => if s.out conn then some { s with putter := .tail conn, out := update s.out conn false }
        else none
    | _ => none
  | .putter => s.goPutter

/-- What one step can do. -/
inductive Step (s : State n) : State n → Prop
  | get : s.getter = .idle → Step s { s with getter := .head }
  | head : s.getter = .head → Step s { s with getter := .tail s.head }
  | found (h : Option (Fin (n + 1))) : s.getter = .tail h → h ≠ some s.tail →
      Step s { s with getter := .item }
  | null (h : Option (Fin (n + 1))) : s.getter = .tail h → h = some s.tail →
      Step s { s with getter := .idle, results := s.results ++ [none] }
  | item : s.getter = .item → Step s { s with getter := .again s.head }
  | again (item : Option (Fin (n + 1))) : s.getter = .again item →
      Step s { s with getter := .next item s.head }
  | next (item : Option (Fin (n + 1))) (h : Fin (n + 1)) : s.getter = .next item (some h) →
      Step s { s with getter := .write item (s.next h) }
  | hand (item : Fin (n + 1)) (p : Option (Fin (n + 1))) : s.getter = .write (some item) p →
      Step s (s.hand item p)
  | put (conn : Fin (n + 1)) : s.putter = .idle → s.out conn = true →
      Step s { s with putter := .tail conn, out := update s.out conn false }
  | tail (conn : Fin (n + 1)) : s.putter = .tail conn → Step s { s with putter := .link conn s.tail }
  | link (conn t : Fin (n + 1)) : s.putter = .link conn t →
      Step s { s with next := update s.next t (some conn), putter := .move conn }
  | move (conn : Fin (n + 1)) : s.putter = .move conn → Step s (s.moveTail conn)

theorem step_of_goGetter {s s' : State n} (h : s.goGetter = some s') : Step s s' := by
  unfold State.goGetter at h
  split at h
  case h_1 => cases h
  case h_2 hp => cases h; exact .head hp
  case h_3 p hp =>
    split at h <;> cases h
    · exact .found p hp ‹_›
    · exact .null p hp (not_not.mp ‹_›)
  case h_4 hp => cases h; exact .item hp
  case h_5 item hp => cases h; exact .again item hp
  case h_6 item p hp =>
    obtain ⟨q, rfl, rfl⟩ := Option.map_eq_some_iff.mp h
    exact .next item q hp
  case h_7 item p hp =>
    obtain ⟨q, rfl, rfl⟩ := Option.map_eq_some_iff.mp h
    exact .hand q p hp

theorem step_of_goPutter {s s' : State n} (h : s.goPutter = some s') : Step s s' := by
  unfold State.goPutter at h
  split at h
  case h_1 => cases h
  case h_2 c hp => cases h; exact .tail c hp
  case h_3 c t hp => cases h; exact .link c t hp
  case h_4 c hp => cases h; exact .move c hp

/-- **What one step can do.** -/
theorem step_of_next {s s' : State n} {a : Act n} (h : FreeList.next s a = some s') : Step s s' := by
  cases a with
  | get =>
    simp only [FreeList.next] at h
    split at h <;> cases h
    exact .get ‹_›
  | getter => exact step_of_goGetter h
  | put c =>
    simp only [FreeList.next] at h
    split at h
    case h_1 hp => split at h <;> cases h; exact .put c hp ‹_›
    case h_2 => cases h
  | putter => exact step_of_goPutter h

/-! ## The invariant -/

/-- Whether `i` is being put back. -/
def Putter.has (i : Fin (n + 1)) : Putter n → ℕ
  | .idle => 0
  | .tail c | .link c _ | .move c => if c = i then 1 else 0

/-- The connections in the order in which they are to be handed out. -/
def State.order (s : State n) : List (Fin (n + 1)) := List.finRange (n + 1) ++ s.returned

/-- A further node is in the list. -/
def State.More (s : State n) : Prop := s.handed.length + 1 < s.order.length

/-- What the getter knows. -/
def GetterOk (s : State n) : Prop :=
  match s.getter with
  | .idle | .head => True
  | .tail h => h = s.head
  | .item => s.More
  | .again item => item = s.head ∧ s.More
  | .next item h => item = s.head ∧ h = s.head ∧ s.More
  | .write item p => item = s.head ∧ p = s.order[s.handed.length + 1]? ∧ s.More

/-- What the putter knows. -/
def PutterOk (s : State n) : Prop :=
  match s.putter with
  | .idle | .tail _ => True
  | .link _ t => t = s.tail
  | .move c => s.next s.tail = some c

/-- The invariant: `l` are the nodes before the tail. -/
structure Inv (s : State n) (l : List (Fin (n + 1))) : Prop where
  order : s.order = s.handed ++ (l ++ [s.tail])
  chain : Chain s.next s.head l (some s.tail)
  places : ∀ i, (l ++ [s.tail]).count i + (s.out i).toNat + s.putter.has i = 1
  getter : GetterOk s
  putter : PutterOk s
  results : s.results.reduceOption = s.handed

theorem chain_start {ν : Type} {next : ν → Option ν} {h : Option ν} {l : List ν} {e : ν}
    (hc : Chain next h l (some e)) : h = (l ++ [e]).head? := by
  cases l with
  | nil => exact hc
  | cons x l => exact hc.1

variable {s : State n} {l : List (Fin (n + 1))}

theorem Inv.nodup (h : Inv s l) : (l ++ [s.tail]).Nodup :=
  List.nodup_iff_count_le_one.mpr fun i => by
    have := h.places i
    omega

theorem Inv.more_iff (h : Inv s l) : s.More ↔ l ≠ [] := by
  rw [State.More, h.order, List.length_append, List.length_append, List.length_singleton,
    ← List.length_pos_iff]
  omega

theorem Inv.first (h : Inv s l) (hm : s.More) : ∃ x l', l = x :: l' ∧ s.head = some x ∧
    s.next x = (l' ++ [s.tail]).head? ∧ s.order[s.handed.length + 1]? = (l' ++ [s.tail]).head? := by
  cases l with
  | nil => exact absurd rfl (h.more_iff.mp hm)
  | cons x l =>
    refine ⟨x, l, rfl, h.chain.1, chain_start h.chain.2, ?_⟩
    rw [h.order, List.getElem?_append_right (Nat.le_add_right _ 1),
      Nat.add_sub_cancel_left, List.cons_append, List.getElem?_cons_succ, List.head?_eq_getElem?]

theorem init_inv (n : ℕ) : ∃ l, Inv (State.init n) l := by
  obtain ⟨l, hc, hl⟩ := initConnList_chain n
  refine ⟨l, ?_, hc, fun i => ?_, trivial, trivial, rfl⟩
  · simp only [State.order, State.init, List.append_nil, List.nil_append, hl]
  · simp only [State.init]
    rw [hl, List.count_eq_one_of_mem (List.nodup_finRange _) (List.mem_finRange i)]
    rfl

theorem Inv.move_getter (h : Inv s l) {g : Getter n} (hg : GetterOk { s with getter := g }) :
    Inv { s with getter := g } l := ⟨h.order, h.chain, h.places, hg, h.putter, h.results⟩

theorem Inv.hand (h : Inv s l) {item : Fin (n + 1)} {p : Option (Fin (n + 1))}
    (hp : s.getter = .write (some item) p) : ∃ l', Inv (s.hand item p) l' := by
  have hg := h.getter
  simp only [GetterOk, hp] at hg
  obtain ⟨hitem, hnext, hm⟩ := hg
  obtain ⟨x, l', rfl, hx, hlink, hord⟩ := h.first hm
  obtain rfl : item = x := Option.some.inj (hitem.trans hx)
  have hplace := h.places item
  rw [List.cons_append, List.count_cons_self] at hplace
  refine ⟨l', ?_, ?_, fun i => ?_, trivial, h.putter, ?_⟩
  · have := h.order
    rw [State.order] at this
    simp [State.order, State.hand, this]
  · rw [State.hand, hnext, hord, ← hlink]
    exact h.chain.2
  · have hi := h.places i
    rw [List.cons_append, List.count_cons] at hi
    simp only [State.hand]
    by_cases he : i = item
    · subst he
      simp only [beq_self_eq_true, if_true] at hi
      rw [update_self, Bool.toNat_true]
      omega
    · have hne : ¬ item = i := fun h => he h.symm
      simp only [beq_iff_eq, hne, if_false, Nat.add_zero] at hi
      rw [update_of_ne he]
      exact hi
  · rw [State.hand, List.reduceOption_append, h.results, List.reduceOption_singleton]
    rfl

theorem GetterOk.append {s' : State n} (h : GetterOk s) (hg : s'.getter = s.getter)
    (hh : s'.head = s.head) (hd : s'.handed = s.handed) (ho : s.order <+: s'.order) : GetterOk s' := by
  have hm : s.More → s'.More := fun hm => by
    rw [State.More, hd]
    exact Nat.lt_of_lt_of_le hm ho.length_le
  unfold GetterOk at h ⊢
  rw [hg]
  split
  case h_1 => trivial
  case h_2 => trivial
  case h_3 p hp => rw [hp] at h; rw [hh]; exact h
  case h_4 hp => rw [hp] at h; exact hm h
  case h_5 item hp => rw [hp] at h; rw [hh]; exact ⟨h.1, hm h.2⟩
  case h_6 item p hp => rw [hp] at h; rw [hh]; exact ⟨h.1, h.2.1, hm h.2.2⟩
  case h_7 item p hp =>
    rw [hp] at h
    obtain ⟨h1, h2, h3⟩ := h
    refine ⟨h1.trans hh.symm, ?_, hm h3⟩
    rw [h2, hd, List.getElem?_eq_getElem h3]
    exact (List.getElem?_eq_some_iff.mpr ⟨_, (ho.getElem h3).symm⟩).symm

theorem Inv.put (h : Inv s l) {c : Fin (n + 1)} (hp : s.putter = .idle) (hc : s.out c = true) :
    Inv { s with putter := .tail c, out := update s.out c false } l := by
  refine ⟨h.order, h.chain, fun i => ?_, h.getter, trivial, h.results⟩
  have hi := h.places i
  rw [hp] at hi
  by_cases he : i = c
  · subst he
    rw [hc] at hi
    simpa [Putter.has] using hi
  · have hne : ¬ c = i := fun h => he h.symm
    simpa [Putter.has, he, hne] using hi

theorem Inv.link (h : Inv s l) {c t : Fin (n + 1)} (hp : s.putter = .link c t) :
    Inv { s with next := update s.next t (some c), putter := .move c } l := by
  have ht := h.putter
  simp only [PutterOk, hp] at ht
  subst ht
  have hmem : s.tail ∉ l := fun hm => (List.nodup_append.mp h.nodup).2.2 _ hm _ (by simp) rfl
  refine ⟨h.order, h.chain.update hmem _, fun i => ?_, h.getter, update_self .., h.results⟩
  have hi := h.places i
  rwa [hp] at hi

theorem Inv.moveTail (h : Inv s l) {c : Fin (n + 1)} (hp : s.putter = .move c) :
    Inv (s.moveTail c) (l ++ [s.tail]) := by
  have ht := h.putter
  simp only [PutterOk, hp] at ht
  have horder : (s.moveTail c).order = s.order ++ [c] := by
    simp [State.order, State.moveTail]
  refine ⟨?_, ?_, fun i => ?_, ?_, trivial, h.results⟩
  · rw [horder, h.order]
    simp [State.moveTail]
  · exact chain_append.mpr ⟨some s.tail, h.chain, rfl, ht⟩
  · have hi := h.places i
    rw [hp] at hi
    simp only [Putter.has] at hi
    simp only [State.moveTail, Putter.has, List.count_append, List.count_singleton, beq_iff_eq] at hi ⊢
    omega
  · exact h.getter.append rfl rfl rfl ⟨[c], horder.symm⟩

/-- **Every step keeps the invariant.** -/
theorem Inv.step (h : Inv s l) {s' : State n} (hs : Step s s') : ∃ l', Inv s' l' := by
  have hg := h.getter
  cases hs with
  | get hp => exact ⟨l, h.move_getter trivial⟩
  | head hp => exact ⟨l, h.move_getter rfl⟩
  | found p hp hne =>
    simp only [GetterOk, hp] at hg
    refine ⟨l, h.move_getter (h.more_iff.mpr fun hnil => hne ?_)⟩
    rw [hg]
    have hc := h.chain
    rw [hnil] at hc
    exact hc
  | null p hp he =>
    refine ⟨l, h.order, h.chain, h.places, trivial, h.putter, ?_⟩
    rw [List.reduceOption_append, h.results, List.reduceOption_singleton]
    exact List.append_nil _
  | item hp =>
    simp only [GetterOk, hp] at hg
    exact ⟨l, h.move_getter ⟨rfl, hg⟩⟩
  | again item hp =>
    simp only [GetterOk, hp] at hg
    exact ⟨l, h.move_getter ⟨hg.1, rfl, hg.2⟩⟩
  | next item p hp =>
    simp only [GetterOk, hp] at hg
    obtain ⟨hitem, hhead, hm⟩ := hg
    obtain ⟨x, l', -, hx, hlink, hord⟩ := h.first hm
    obtain rfl : p = x := Option.some.inj (hhead.trans hx)
    exact ⟨l, h.move_getter ⟨hitem, hlink.trans hord.symm, hm⟩⟩
  | hand item p hp => exact h.hand hp
  | put c hp hc => exact ⟨l, h.put hp hc⟩
  | tail c hp =>
    refine ⟨l, h.order, h.chain, fun i => ?_, h.getter, rfl, h.results⟩
    have hi := h.places i
    rwa [hp] at hi
  | link c t hp => exact ⟨l, h.link hp⟩
  | move c hp => exact ⟨_, h.moveTail hp⟩

/-! ## The main result -/

/-- The number of connections that are handed out or still being put back. -/
def State.outNum (s : State n) : ℕ := ∑ i, ((s.out i).toNat + s.putter.has i)

/-- The list is a queue of connections. -/
structure Correct (s : State n) : Prop where
  /-- the connection about to be returned is neither handed out nor being put back -/
  fresh : ∀ item p, s.getter = .write item p →
    ∃ c, item = some c ∧ s.out c = false ∧ s.putter.has c = 0
  /-- the pointer that is followed is that connection, and its link goes to the next one in order -/
  links : ∀ item h, s.getter = .next item h →
    ∃ c q, item = some c ∧ h = some c ∧ s.next c = some q ∧ s.order[s.handed.length + 1]? = some q
  /-- connections are handed out in array order and then in the order in which they were put back -/
  order : s.handed <+: s.order
  bound : s.outNum ≤ n
  /-- `NULL` is returned when all but the reserved connection are out or still being put back -/
  null : ∀ h, s.getter = .tail h → h = some s.tail → s.outNum = n
  /-- what the calls have returned, `NULL` left out, is what was handed out -/
  results : s.results.reduceOption = s.handed
  /-- a step in which a call returns `NULL` is one of `null` -/
  returnsNull : ∀ a s', FreeList.next s a = some s' → s'.results = s.results ++ [none] → s.outNum = n

theorem Inv.outNum (h : Inv s l) : s.outNum + l.length = n := by
  have hcount : ∑ i, (l ++ [s.tail]).count i = l.length + 1 := by
    have := Multiset.sum_count_eq_card (s := Finset.univ) (m := Multiset.ofList (l ++ [s.tail]))
      fun a _ => Finset.mem_univ a
    simpa using this
  have hsum : ∑ i, ((l ++ [s.tail]).count i + ((s.out i).toNat + s.putter.has i)) =
      ∑ _i : Fin (n + 1), 1 :=
    Finset.sum_congr rfl fun i _ => by rw [← Nat.add_assoc]; exact h.places i
  rw [Finset.sum_add_distrib, hcount, Finset.sum_const, Finset.card_univ, Fintype.card_fin,
    smul_eq_mul, Nat.mul_one] at hsum
  rw [State.outNum]
  omega

theorem Inv.null (h : Inv s l) {p : Option (Fin (n + 1))} (hp : s.getter = .tail p) (he : p = some s.tail) :
    s.outNum = n := by
  have hg := h.getter
  simp only [GetterOk, hp] at hg
  have hnil : l = [] := by
    by_contra hne
    obtain ⟨x, l', rfl, hx, -, -⟩ := h.first (h.more_iff.mpr hne)
    obtain rfl : x = s.tail := Option.some.inj (hx.symm.trans (hg.symm.trans he))
    have := h.nodup
    rw [List.cons_append, List.nodup_cons] at this
    exact this.1 (by simp)
  have := h.outNum
  rwa [hnil] at this

theorem Step.null_of_results {s' : State n} (hs : Step s s') (h : s'.results = s.results ++ [none]) :
    ∃ p, s.getter = .tail p ∧ p = some s.tail := by
  cases hs with
  | null p hp he => exact ⟨p, hp, he⟩
  | hand item p hp =>
    have := List.append_cancel_left h
    cases this
  | get | head | found | item | again | next | put | tail | link | move => exact absurd h (by simp [State.moveTail])

theorem Inv.correct (h : Inv s l) : Correct s where
  fresh item p hp := by
    have hg := h.getter
    simp only [GetterOk, hp] at hg
    obtain ⟨x, l', rfl, hx, -, -⟩ := h.first hg.2.2
    have hplace := h.places x
    rw [List.cons_append, List.count_cons_self] at hplace
    exact ⟨x, hg.1.trans hx, Bool.toNat_eq_zero.mp (by omega), by omega⟩
  links item p hp := by
    have hg := h.getter
    simp only [GetterOk, hp] at hg
    obtain ⟨hitem, hhead, hm⟩ := hg
    obtain ⟨x, l', -, hx, hlink, hord⟩ := h.first hm
    obtain ⟨q, hq⟩ : ∃ q, (l' ++ [s.tail]).head? = some q :=
      Option.isSome_iff_exists.mp (by cases l' <;> rfl)
    exact ⟨x, q, hitem.trans hx, hhead.trans hx, hlink.trans hq, hord.trans hq⟩
  order := ⟨_, h.order.symm⟩
  bound := by
    have := h.outNum
    omega
  null _ hp he := h.null hp he
  results := h.results
  returnsNull a s' hn hr := by
    obtain ⟨p, hp, he⟩ := (step_of_next hn).null_of_results hr
    exact h.null hp he

/-- **The free list is a queue** of one getter and one putter, at every reachable state. -/
theorem correct_of_reach (n : ℕ) {s : State n} (h : Reach FreeList.next (State.init n) s) :
    Correct s := by
  obtain ⟨l, hi⟩ := Reach.inv (I := fun s => ∃ l, Inv s l) h (init_inv n)
    fun _ _ _ hi hn => hi.choose_spec.step (step_of_next hn)
  exact hi.correct

/-- `get_free_conn` without interruption. -/
def getting : List (Act n) := .get :: List.replicate 6 .getter

/-- `put_free_conn(conn)` without interruption. -/
def putting (conn : Fin (n + 1)) : List (Act n) := [.put conn, .putter, .putter, .putter]

/-- One connection and the reserved one: both are handed out in turn, and then `NULL` is returned. -/
theorem correct_of_reach_one : ∃ s : State 1, Reach FreeList.next (State.init 1) s ∧ s.handed = [0, 1] ∧
    s.returned = [0] ∧ s.results = [some 0, some 1, none] ∧ Correct s := by
  have hr : (run FreeList.next (State.init 1) (getting ++ putting 0 ++ getting ++ getting.take 3)).map
      (fun s => (s.handed, s.returned, s.results)) = some ([0, 1], [0], [some 0, some 1, none]) := by
    decide +kernel
  obtain ⟨s, hs, hv⟩ := Reach.of_run_map hr
  simp only [Prod.mk.injEq] at hv
  obtain ⟨hhanded, hreturned, hresults⟩ := hv
  exact ⟨s, hs, hhanded, hreturned, hresults, correct_of_reach 1 hs⟩

end Backend.XServer.FreeList
