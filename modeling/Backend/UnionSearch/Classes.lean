import Backend.Lib.Forest
import Backend.UnionSearch.Model

/-!
# The classes of `UnionSearchSet`

* `Forest`: the fathers form a forest on the elements in use;
* `climbLoop_spec`, `compressLoop_spec`, `search_spec`, `union_spec`: what the loops and the calls do to
  the roots;
* `Inv`, `step_inv`, `exec_inv`: after any calls two elements share a root if and only if the pairs
  united so far generate it;
* **`classes_of_exec`**: what `Search` and `Union` do after any calls, with indices in range.
-/

set_option autoImplicit false

namespace Backend.UnionSearch

open Function Relation

/-- The fathers of the elements in use are in use, and every way up ends. -/
structure Forest (s : UnionSearchSet) : Prop where
  father : ∀ i < s.size, s.father i < s.size
  root : ∀ i < s.size, ∃ r, Root s.father i r

/-- The indices of a call are those of elements in use. -/
def Op.InRange (size : ℕ) : Op → Prop
  | .search idx => idx < size
  | .union a b => a < size ∧ b < size

/-- The pairs united by the calls `ops`. -/
def United (ops : List Op) (a b : ℕ) : Prop := Op.union a b ∈ ops

/-- `Search(a) == Search(b)`. -/
def UnionSearchSet.Same (s : UnionSearchSet) (a b : ℕ) : Prop :=
  ∃ i s₁ s₂, s.search a = some (i, s₁) ∧ s₁.search b = some (i, s₂)

/-! ## The loops -/

theorem climbLoop_spec {f : ℕ → ℕ} {k x r fuel : ℕ} (h : Climbs f k x r) (hk : k < fuel) :
    climbLoop f fuel x = some r := by
  induction h generalizing fuel with
  | root h =>
    obtain ⟨fuel, rfl⟩ : ∃ n, fuel = n + 1 := ⟨fuel - 1, by omega⟩
    rw [climbLoop, if_neg (not_not.mpr h)]
  | up hne _ ih =>
    obtain ⟨fuel, rfl⟩ : ∃ n, fuel = n + 1 := ⟨fuel - 1, by omega⟩
    rw [climbLoop, if_pos hne]
    exact ih (by omega)

/-- The elements in use and the roots of two sets are the same. -/
structure SameRoots (s s' : UnionSearchSet) : Prop where
  size : s'.size = s.size
  root : ∀ x r, Root s'.father x r ↔ Root s.father x r
  father : (∀ i < s.size, s.father i < s.size) → ∀ i < s.size, s'.father i < s.size

theorem SameRoots.refl (s : UnionSearchSet) : SameRoots s s := ⟨rfl, fun _ _ => Iff.rfl, id⟩

theorem SameRoots.trans {s s' t : UnionSearchSet} (h : SameRoots s s') (h' : SameRoots s' t) :
    SameRoots s t where
  size := h'.size.trans h.size
  root x r := (h'.root x r).trans (h.root x r)
  father hs := by
    have := h'.father
    rw [h.size] at this
    exact this (h.father hs)

theorem SameRoots.forest {s s' : UnionSearchSet} (h : SameRoots s s') (hs : Forest s) :
    Forest s' where
  father := by
    rw [h.size]
    exact h.father hs.father
  root i hi := by
    rw [h.size] at hi
    obtain ⟨r, hr⟩ := hs.root i hi
    exact ⟨r, (h.root i r).mpr hr⟩

theorem SameRoots.share {s s' : UnionSearchSet} (h : SameRoots s s') {x y : ℕ} :
    Share s'.father x y ↔ Share s.father x y := share_congr h.root

theorem sameRoots_compress {s : UnionSearchSet} {a r : ℕ} (h : Root s.father a r) (ha : a < s.size)
    (rank : ℕ → ℤ) : SameRoots s { s with father := update s.father a r, rank := rank } where
  size := rfl
  root _ _ := root_compress h
  father hs := by
    have hr : r < s.size := h.choose_spec.mem hs ha
    intro i hi
    by_cases hia : i = a
    · simpa only [hia, update_self] using hr
    · simpa only [update_of_ne hia] using hs i hi

theorem compressLoop_spec {s : UnionSearchSet} {k a r fuel : ℕ} (hs : Forest s)
    (h : Climbs s.father k a r) (ha : a < s.size) (hk : k < fuel) :
    ∃ s', compressLoop r fuel a s = some s' ∧ SameRoots s s' := by
  induction fuel generalizing s k a with
  | zero => omega
  | succ fuel ih =>
    rw [compressLoop]
    split
    case isFalse => exact ⟨s, rfl, .refl s⟩
    case isTrue hne =>
      cases h with
      | root h => exact absurd h hne
      | @up k _ _ hne' h =>
        -- The rest of the way does not meet `a` again.
        have hup := h.update (.up hne' h) (Nat.lt_succ_self k) r
        have hc := sameRoots_compress ⟨k + 1, .up hne' h⟩ ha (update s.rank a 1)
        obtain ⟨s', he, hs'⟩ := ih (hc.forest hs) hup (hs.father a ha) (by omega)
        exact ⟨s', he, hc.trans hs'⟩

/-! ## The calls -/

/-- **`Search`** returns the root and keeps all roots. -/
theorem search_spec {s : UnionSearchSet} {a : ℕ} (hs : Forest s) (ha : a < s.size) :
    ∃ (r : ℕ) (s' : UnionSearchSet), s.search a = some ((r : ℤ), s') ∧ Root s.father a r ∧ r < s.size ∧
      SameRoots s s' := by
  obtain ⟨r, k, h⟩ := hs.root a ha
  have hk : k < s.size := by
    have := h.lt_card (Finset.range s.size) (by simpa using hs.father) (by simpa using ha)
    rwa [Finset.card_range] at this
  obtain ⟨s', he, hs'⟩ := compressLoop_spec hs h ha (show k < s.size + 1 by omega)
  refine ⟨r, s', ?_, ⟨k, h⟩, h.mem hs.father ha, hs'⟩
  rw [UnionSearchSet.search, if_neg (by omega), climbLoop_spec h (by omega)]
  simp [he]

theorem same_iff_share {s : UnionSearchSet} {a b : ℕ} (hs : Forest s) (ha : a < s.size)
    (hb : b < s.size) : s.Same a b ↔ Share s.father a b := by
  obtain ⟨r, s₁, h₁, hr, -, hs₁⟩ := search_spec hs ha
  obtain ⟨t, s₂, h₂, ht, -, -⟩ := search_spec (hs₁.forest hs) (hs₁.size ▸ hb)
  rw [share_iff hr ((hs₁.root b t).mp ht)]
  constructor
  · rintro ⟨i, u₁, u₂, hu₁, hu₂⟩
    rw [h₁, Option.some.injEq, Prod.mk.injEq] at hu₁
    obtain ⟨rfl, rfl⟩ := hu₁
    rw [h₂, Option.some.injEq, Prod.mk.injEq] at hu₂
    exact_mod_cast hu₂.1.symm
  · rintro rfl
    exact ⟨r, s₁, s₂, h₁, h₂⟩

theorem forest_update {f : ℕ → ℕ} {n a b : ℕ} (hf : ∀ i < n, f i < n) (hr : ∀ i < n, ∃ r, Root f i r)
    (ha : f a = a) (hb : f b = b) (hab : a ≠ b) (hbn : b < n) :
    (∀ i < n, update f a b i < n) ∧ ∀ i < n, ∃ r, Root (update f a b) i r := by
  constructor
  · intro i hi
    by_cases hia : i = a
    · simpa only [hia, update_self] using hbn
    · simpa only [update_of_ne hia] using hf i hi
  · intro i hi
    obtain ⟨r, h⟩ := hr i hi
    exact ⟨_, root_link ha hb hab h⟩

/-- The end of `Union` joins the trees of the two roots, whichever of them it hangs below the other. -/
theorem link_spec {s : UnionSearchSet} {c d a b : ℕ} (hs : Forest s) (hc : Root s.father c a)
    (hd : Root s.father d b) (ha : a < s.size) (hb : b < s.size) (hab : a ≠ b) :
    Forest (s.link a b) ∧ (s.link a b).size = s.size ∧
      ∀ x < s.size, ∀ y < s.size, (Share (s.link a b).father x y ↔
        Share s.father x y ∨ (Share s.father x c ∧ Share s.father d y) ∨
          (Share s.father x d ∧ Share s.father c y)) := by
  rw [UnionSearchSet.link]
  split
  · obtain ⟨hf, hr⟩ := forest_update hs.father hs.root hc.fixed hd.fixed hab hb
    exact ⟨⟨hf, hr⟩, rfl, fun x hx y hy => share_link hab hc hd (hs.root x hx) (hs.root y hy)⟩
  · obtain ⟨hf, hr⟩ := forest_update hs.father hs.root hd.fixed hc.fixed (Ne.symm hab) ha
    refine ⟨⟨hf, hr⟩, rfl, fun x hx y hy => ?_⟩
    rw [show Share _ x y ↔ _ from share_link (Ne.symm hab) hd hc (hs.root x hx) (hs.root y hy),
      or_comm (a := Share s.father x d ∧ _)]

/-- **`Union`** joins the classes of its arguments. -/
theorem union_spec {s : UnionSearchSet} {c d : ℕ} (hs : Forest s) (hc : c < s.size)
    (hd : d < s.size) :
    ∃ s', s.union c d = some (true, s') ∧ Forest s' ∧ s'.size = s.size ∧
      ∀ x < s.size, ∀ y < s.size, (Share s'.father x y ↔
        Share s.father x y ∨ (Share s.father x c ∧ Share s.father d y) ∨
          (Share s.father x d ∧ Share s.father c y)) := by
  obtain ⟨a, s₁, h₁, ha, han, hs₁⟩ := search_spec hs hc
  obtain ⟨b, s₂, h₂, hb, hbn, hs₂⟩ := search_spec (hs₁.forest hs) (hs₁.size ▸ hd)
  have hs₁₂ := hs₁.trans hs₂
  rw [hs₁.root] at hb
  have hu : s.union c d = some (true, if (a : ℤ) = b then s₂ else s₂.link a b) := by
    have hneg : ∀ n : ℕ, ¬ (n : ℤ) < 0 := fun n => by omega
    simp only [UnionSearchSet.union, h₁, Option.bind_eq_bind, Option.bind_some, hneg, h₂, if_false,
      Int.toNat_natCast]
    split <;> rfl
  refine ⟨_, hu, ?_⟩
  by_cases hab : a = b
  · subst hab
    rw [if_pos rfl]
    refine ⟨hs₁₂.forest hs, hs₁₂.size, fun x hx y hy => ?_⟩
    obtain ⟨t, ht⟩ := hs.root x hx
    obtain ⟨u, hu⟩ := hs.root y hy
    rw [hs₁₂.share, share_iff ht hu, share_iff ht ha, share_iff hb hu, share_iff ht hb,
      share_iff ha hu]
    grind
  · rw [if_neg (by exact_mod_cast hab)]
    obtain ⟨hf, hn, h⟩ := link_spec (hs₁₂.forest hs) ((hs₁₂.root c a).mpr ha)
      ((hs₁₂.root d b).mpr hb) (hs₁₂.size ▸ han) (hs₂.size ▸ hbn) hab
    refine ⟨hf, hn.trans hs₁₂.size, fun x hx y hy => ?_⟩
    rw [h x (hs₁₂.size ▸ hx) y (hs₁₂.size ▸ hy)]
    simp only [hs₁₂.share]

/-! ## Sequences of calls -/

/-- After the calls `ops`. -/
structure Inv (ops : List Op) (s : UnionSearchSet) : Prop where
  forest : Forest s
  share : ∀ a < s.size, ∀ b < s.size, (Share s.father a b ↔ EqvGen (United ops) a b)

theorem eqvGen_united_nil {a b : ℕ} : EqvGen (United []) a b ↔ a = b := by
  constructor
  · intro h
    induction h with
    | rel x y h => exact absurd h List.not_mem_nil
    | refl x => rfl
    | symm x y _ ih => exact ih.symm
    | trans x y z _ _ ih ih' => exact ih.trans ih'
  · rintro rfl
    exact .refl a

theorem init_inv {size : ℤ} {s : UnionSearchSet} (h : UnionSearchSet.init size = some s) :
    Inv [] s := by
  rw [UnionSearchSet.init] at h
  split at h
  · cases h
  · cases h
    have hroot : ∀ x : ℕ, Root id x x := fun x => ⟨0, .root rfl⟩
    refine ⟨⟨fun i hi => hi, fun i _ => ⟨i, hroot i⟩⟩, fun a _ b _ => ?_⟩
    rw [show Share _ a b ↔ _ from share_iff (hroot a) (hroot b), eqvGen_united_nil]

theorem step_inv {ops : List Op} {op : Op} {s : UnionSearchSet} (hs : Inv ops s)
    (ho : op.InRange s.size) :
    ∃ r s', s.step op = some (r, s') ∧ s'.size = s.size ∧ Inv (ops ++ [op]) s' := by
  cases op with
  | search idx =>
    obtain ⟨r, s', h, -, -, hs'⟩ := search_spec hs.forest ho
    refine ⟨_, s', by rw [UnionSearchSet.step, h]; rfl, hs'.size, hs'.forest hs.forest, ?_⟩
    have hU : United (ops ++ [.search idx]) = United ops := by
      funext a b
      simp [United]
    rw [hs'.size, hU]
    intro a ha b hb
    rw [hs'.share, hs.share a ha b hb]
  | union c d =>
    obtain ⟨s', h, hf, hn, hsh⟩ := union_spec hs.forest ho.1 ho.2
    refine ⟨_, s', by rw [UnionSearchSet.step, h]; rfl, hn, hf, ?_⟩
    have hU : ∀ x y, United (ops ++ [.union c d]) x y ↔ United ops x y ∨ (x = c ∧ y = d) := by
      intro x y
      simp [United]
    rw [hn]
    intro a ha b hb
    rw [hsh a ha b hb, eqvGen_insert hU, hs.share a ha b hb, hs.share a ha c ho.1,
      hs.share d ho.2 b hb, hs.share a ha d ho.2, hs.share c ho.1 b hb]

theorem exec_inv {past ops : List Op} {s : UnionSearchSet} (hs : Inv past s)
    (ho : ∀ op ∈ ops, op.InRange s.size) :
    ∃ rs t, s.exec ops = some (rs, t) ∧ t.size = s.size ∧ Inv (past ++ ops) t := by
  induction ops generalizing past s with
  | nil => exact ⟨[], s, rfl, rfl, by rwa [List.append_nil]⟩
  | cons op ops ih =>
    obtain ⟨r, s', h, hn, hs'⟩ := step_inv hs (ho op (by simp))
    obtain ⟨rs, t, h', hn', ht⟩ := ih hs' (by rw [hn]; exact fun op hop => ho op (by simp [hop]))
    refine ⟨r :: rs, t, ?_, hn'.trans hn, by rwa [List.append_assoc] at ht⟩
    simp [UnionSearchSet.exec, h, h']

/-- What the calls see of the classes, after the calls `ops`. -/
structure Classes (ops : List Op) (s : UnionSearchSet) : Prop where
  /-- `Search(a) == Search(b)` if and only if the pairs united so far relate `a` and `b`. -/
  same : ∀ a < s.size, ∀ b < s.size, (s.Same a b ↔ EqvGen (United ops) a b)
  /-- `Search` ends, returns a member of the class, and changes no class. -/
  search : ∀ a < s.size, ∃ (r : ℕ) (s' : UnionSearchSet), s.search a = some ((r : ℤ), s') ∧
    s'.size = s.size ∧ r < s.size ∧ EqvGen (United ops) a r ∧
    ∀ x < s.size, ∀ y < s.size, (s'.Same x y ↔ s.Same x y)
  /-- `Union` ends and merges the two classes of its arguments, and no others. -/
  union : ∀ c < s.size, ∀ d < s.size, ∃ s', s.union c d = some (true, s') ∧ s'.size = s.size ∧
    ∀ x < s.size, ∀ y < s.size, (s'.Same x y ↔
      s.Same x y ∨ (s.Same x c ∧ s.Same d y) ∨ (s.Same x d ∧ s.Same c y))

theorem Inv.classes {ops : List Op} {s : UnionSearchSet} (hs : Inv ops s) : Classes ops s where
  same a ha b hb := by
    rw [same_iff_share hs.forest ha hb]
    exact hs.share a ha b hb
  search a ha := by
    obtain ⟨r, s', h, hr, hrn, hs'⟩ := search_spec hs.forest ha
    refine ⟨r, s', h, hs'.size, hrn, ?_, fun x hx y hy => ?_⟩
    · exact (hs.share a ha r hrn).mp ⟨r, hr, hr.self⟩
    · rw [same_iff_share (hs'.forest hs.forest) (hs'.size ▸ hx) (hs'.size ▸ hy), hs'.share,
        same_iff_share hs.forest hx hy]
  union c hc d hd := by
    obtain ⟨s', h, hf, hn, hsh⟩ := union_spec hs.forest hc hd
    refine ⟨s', h, hn, fun x hx y hy => ?_⟩
    rw [same_iff_share hf (hn ▸ hx) (hn ▸ hy), hsh x hx y hy, same_iff_share hs.forest hx hy,
      same_iff_share hs.forest hx hc, same_iff_share hs.forest hd hy,
      same_iff_share hs.forest hx hd, same_iff_share hs.forest hc hy]

/-- **After any calls with indices in range, all of which end**, two elements have the same
representative if and only if the pairs united so far relate them; searching is invisible, and a union
merges exactly the two classes of its arguments. -/
theorem classes_of_exec {size : ℤ} (hsize : 1 ≤ size) :
    ∃ s, UnionSearchSet.init size = some s ∧
      ∀ ops : List Op, (∀ op ∈ ops, op.InRange size.toNat) →
        ∃ rs t, s.exec ops = some (rs, t) ∧ t.size = size.toNat ∧ Classes ops t := by
  have hinit : UnionSearchSet.init size =
      some { father := id, rank := fun _ => 1, size := size.toNat } := if_neg (by omega)
  refine ⟨_, hinit, fun ops ho => ?_⟩
  obtain ⟨rs, t, h, hn, ht⟩ := exec_inv (init_inv hinit) ho
  exact ⟨rs, t, h, hn, ht.classes⟩

theorem classes_of_exec_four :
    ∃ s, UnionSearchSet.init 4 = some s ∧ ∃ rs t,
      s.exec [.union 0 1, .search 1, .union 2 3, .union 3 1] = some (rs, t) ∧ t.Same 0 2 := by
  obtain ⟨s, hs, h⟩ := @classes_of_exec 4 (by decide)
  obtain ⟨rs, t, ht, hn, hc⟩ := h [.union 0 1, .search 1, .union 2 3, .union 3 1] (by
    simp [Op.InRange])
  refine ⟨s, hs, rs, t, ht, (hc.same 0 (by simp [hn]) 2 (by simp [hn])).mpr ?_⟩
  have h01 : EqvGen (United [.union 0 1, .search 1, .union 2 3, .union 3 1]) 0 1 :=
    .rel _ _ (by simp [United])
  have h31 : EqvGen (United [.union 0 1, .search 1, .union 2 3, .union 3 1]) 3 1 :=
    .rel _ _ (by simp [United])
  have h23 : EqvGen (United [.union 0 1, .search 1, .union 2 3, .union 3 1]) 2 3 :=
    .rel _ _ (by simp [United])
  exact (h01.trans _ _ _ (h31.symm _ _)).trans _ _ _ (h23.symm _ _)

end Backend.UnionSearch
