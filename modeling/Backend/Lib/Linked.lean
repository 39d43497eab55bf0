import Backend.Lib.Chain

/-!
# Doubly linked lists

Nodes are linked by two functions, `after` and `before`; a pointer is an `Option`.
`Linked after before x l y` says that going along `after` from `x` one meets the nodes `l`, in this
order, and then `y`, and that `before` goes back the same way. A circular list with the nodes `l` and
the header `x` is `Linked after before x l x`.

* `linked_append`: a list is cut at any node; `Linked.reverse`, `Linked.chain`: it is a chain both
  ways;
* **`Linked.redirect`**: the last link can be bent to another node;
* **`Linked.snoc`**, **`Linked.splice`**: a node is put before `y`, a node is taken out.
-/

set_option autoImplicit false

namespace Backend

variable {ν : Type*}

/-- From `x` through `l` to `y`, and back. -/
def Linked (after before : ν → Option ν) : ν → List ν → ν → Prop
  | x, [], y => after x = some y ∧ before y = some x
  | x, z :: l, y => (after x = some z ∧ before z = some x) ∧ Linked after before z l y

variable {after before after' before' : ν → Option ν}

theorem linked_nil {x y : ν} :
    Linked after before x [] y ↔ after x = some y ∧ before y = some x := Iff.rfl

theorem linked_cons {x y z : ν} {l : List ν} : Linked after before x (z :: l) y ↔
    (after x = some z ∧ before z = some x) ∧ Linked after before z l y := Iff.rfl

theorem linked_append {x y z : ν} {l l' : List ν} : Linked after before x (l ++ z :: l') y ↔
    Linked after before x l z ∧ Linked after before z l' y := by
  induction l generalizing x with
  | nil => exact Iff.rfl
  | cons w l ih => rw [List.cons_append, linked_cons, ih, linked_cons, ← and_assoc]

theorem Linked.reverse {x y : ν} {l : List ν} (h : Linked after before x l y) :
    Linked before after y l.reverse x := by
  induction l generalizing x with
  | nil => exact h.symm
  | cons z l ih =>
    rw [List.reverse_cons]
    exact linked_append.mpr ⟨ih h.2, h.1.symm⟩

theorem Linked.chain {x y : ν} {l : List ν} (h : Linked after before x l y) :
    Chain after (after x) l (some y) := by
  induction l generalizing x with
  | nil => exact h.1
  | cons z l ih => exact ⟨h.1.1, ih h.2⟩

theorem Linked.congr {x y : ν} {l : List ν} (h : Linked after before x l y)
    (ha : ∀ u ∈ x :: l, after' u = after u) (hb : ∀ u ∈ l ++ [y], before' u = before u) :
    Linked after' before' x l y := by
  induction l generalizing x with
  | nil =>
    rw [linked_nil, ha x List.mem_cons_self, hb y (by simp)]
    exact h
  | cons z l ih =>
    rw [linked_cons, ha x List.mem_cons_self, hb z (by simp)]
    refine ⟨h.1, ih h.2 (fun u hu => ha u (List.mem_cons_of_mem _ hu)) fun u hu => hb u ?_⟩
    exact List.mem_cons_of_mem _ hu

/-- **Bending the last link** of a list to the node `q`. -/
theorem Linked.redirect {x y : ν} {l : List ν} (h : Linked after before x l y)
    (hn : (x :: l).Nodup) : ∃ p ∈ x :: l, before y = some p ∧ after p = some y ∧
      ∀ (after' before' : ν → Option ν) (q : ν), after' p = some q → before' q = some p →
        (∀ u ∈ x :: l, u ≠ p → after' u = after u) → (∀ u ∈ l, before' u = before u) →
        Linked after' before' x l q := by
  induction l generalizing x with
  | nil => exact ⟨x, List.mem_cons_self, h.2, h.1, fun _ _ q ha hb _ _ => ⟨ha, hb⟩⟩
  | cons z l ih =>
    obtain ⟨p, hp, hby, hay, hr⟩ := ih h.2 hn.of_cons
    have hxp : x ≠ p := fun he => (List.nodup_cons.mp hn).1 (he ▸ hp)
    refine ⟨p, List.mem_cons_of_mem _ hp, hby, hay, fun after' before' q ha hb hau hbu => ⟨?_, ?_⟩⟩
    · rw [hau x List.mem_cons_self hxp, hbu z List.mem_cons_self]
      exact h.1
    · exact hr after' before' q ha hb (fun u hu => hau u (List.mem_cons_of_mem _ hu))
        fun u hu => hbu u (List.mem_cons_of_mem _ hu)

variable [DecidableEq ν]

open Function

/-- **Putting a node** before `y`. -/
theorem Linked.snoc {x y e : ν} {l : List ν} (h : Linked after before x l y) (hn : (x :: l).Nodup)
    (hy : y ∉ l) (he : e ∉ x :: l) (hey : e ≠ y) : ∃ p ∈ x :: l, before y = some p ∧
      Linked (update (update after e (some y)) p (some e))
        (update (update before e (some p)) y (some e)) x (l ++ [e]) y := by
  obtain ⟨p, hp, hby, -, hr⟩ := h.redirect hn
  have hep : e ≠ p := (ne_of_mem_of_not_mem hp he).symm
  refine ⟨p, hp, hby, linked_append.mpr ⟨?_, ?_, update_self ..⟩⟩
  · refine hr _ _ e (update_self ..) ?_ (fun u hu hup => ?_) fun u hu => ?_
    · rw [update_of_ne hey, update_self]
    · rw [update_of_ne hup, update_of_ne (ne_of_mem_of_not_mem hu he)]
    · rw [update_of_ne (ne_of_mem_of_not_mem hu hy),
        update_of_ne (ne_of_mem_of_not_mem (List.mem_cons_of_mem _ hu) he)]
  · rw [update_of_ne hep, update_self]

/-- **Taking a node out.** -/
theorem Linked.splice {x y e : ν} {l l' : List ν} (h : Linked after before x (l ++ e :: l') y)
    (hn : (x :: (l ++ e :: l')).Nodup) (hy : y ∉ l ++ e :: l') :
    ∃ p ∈ x :: l, ∃ q ∈ l' ++ [y], before e = some p ∧ after e = some q ∧
      Linked (update after p (some q)) (update before q (some p)) x (l ++ l') y := by
  obtain ⟨h, h'⟩ := linked_append.mp h
  rw [← List.cons_append, List.nodup_append] at hn
  obtain ⟨hn, hn', hd⟩ := hn
  obtain ⟨p, hp, hbe, -, hr⟩ := h.redirect hn
  cases l' with
  | nil =>
    refine ⟨p, hp, y, by simp, hbe, h'.1, ?_⟩
    rw [List.append_nil]
    refine hr _ _ y (update_self ..) (update_self ..) (fun u _ hup => update_of_ne hup ..) fun u hu => ?_
    exact update_of_ne (ne_of_mem_of_not_mem (List.mem_append_left _ hu) hy) ..
  | cons q l' =>
    obtain ⟨⟨hae, hbq⟩, h'⟩ := h'
    have hq : ∀ u ∈ l, u ≠ q := fun u hu => hd u (List.mem_cons_of_mem _ hu) q (by simp)
    refine ⟨p, hp, q, by simp, hbe, hae, linked_append.mpr ⟨?_, ?_⟩⟩
    · exact hr _ _ q (update_self ..) (update_self ..) (fun u _ hup => update_of_ne hup ..)
        fun u hu => update_of_ne (hq u hu) ..
    · refine h'.congr (fun u hu => ?_) fun u hu => ?_
      · exact update_of_ne (Ne.symm (hd p hp u (List.mem_cons_of_mem _ hu))) ..
      · refine update_of_ne (fun h => ?_) ..
        subst h
        rcases List.mem_append.mp hu with hu | hu
        · exact (List.nodup_cons.mp hn'.of_cons).1 hu
        · exact hy (by simp [List.mem_singleton.mp hu])

end Backend
