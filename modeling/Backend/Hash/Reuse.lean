import Backend.Hash.Refine

/-!
# `HashMap`: `Release` and a second `Init`

`Release` frees the nodes of all lists and clears `m_array`, `Init` sets `m_bucket_num` and `m_array`;
neither sets `m_size`.

* `release_lists`, `Sim.release`: `Release` frees live nodes only;
* `SameAsNew`, **`sameAsNew_iff`**: the second life is that of a new map if and only if `m_size` was `0`.
-/

set_option autoImplicit false

namespace Backend.Hash

open Function

variable {K V : Type} [DecidableEq K] {code : K → BitVec 32} {base : ℤ} {s : HashMap K V}
  {heads : ℤ → Option ℕ} {L : ℤ → List ℕ} {f : Finmap fun _ : K => V}

theorem release_lists (hs : Sim code base s heads L f) {k : ℕ} (hk : (k : ℤ) ≤ s.bucketNum) :
    ∃ live, ((List.range k).foldlM (fun (m : Nodes K V) (i : ℕ) => do
        let head ← s.list? i
        Nodes.releaseLoop (m.top + 1) head m) s.nodes) = some { s.nodes with live := live } ∧
      ∀ j : ℤ, (k : ℤ) ≤ j → ∀ a ∈ L j, live a = true := by
  induction k with
  | zero => exact ⟨s.nodes.live, rfl, fun j _ => (hs.lists j).live⟩
  | succ k ih =>
    obtain ⟨live, hfold, hlive⟩ := ih (by omega)
    have hlist : s.list? k = some (heads k) := by
      rw [HashMap.list?, if_pos ⟨by omega, by omega⟩, hs.array]
      rfl
    have hloop := releaseLoop_spec (m := { s.nodes with live := live }) (hs.lists k).chain
      (hlive k le_rfl) (hs.lists k).nodup (hs.lists k).length_lt
    refine ⟨fun a => live a && decide (a ∉ L k), ?_, fun j hj a ha => ?_⟩
    · rw [List.range_succ, List.foldlM_append, hfold]
      simp only [Option.bind_eq_bind, Option.bind_some, List.foldlM_cons, List.foldlM_nil, hlist, hloop,
        Option.pure_def]
    · have hne : a ∉ L k := fun ha' => hs.disjoint ha ha' (by omega) rfl
      simp only [hlive j (by omega) a ha, hne, not_false_iff, decide_true, Bool.and_self]

/-- **`Release`** of any map succeeds and keeps `m_size`. -/
theorem Sim.release (hs : Sim code base s heads L f) : ∃ s', s.release = some s' ∧ s'.size = s.size := by
  obtain ⟨j, -, hj⟩ := hs.bucketNum
  have hpos : 0 ≤ s.bucketNum := by
    rw [hj]
    positivity
  obtain ⟨live, hfold, -⟩ := release_lists hs (k := s.bucketNum.toNat) (by omega)
  refine ⟨{ s with nodes := { s.nodes with live := live }, array := none }, ?_, rfl⟩
  rw [HashMap.release, hfold]
  rfl

/-- After `Release` and `Init(n)` every sequence of calls returns what it returns on a new map. -/
def SameAsNew (code : K → BitVec 32) (n : ℤ) (s : HashMap K V) : Prop :=
  ∃ s' t, s.release = some s' ∧ s'.init n = some (true, t) ∧
    ∀ m t₀, (HashMap.new m).init n = some (true, t₀) → ∀ ops : List (Op K V),
      (t.exec code ops).map Prod.fst = (t₀.exec code ops).map Prod.fst

/-- **The second life of a map.** -/
theorem sameAsNew_iff (hs : Sim code base s heads L f) {n : ℤ} (hn : 0 < n) :
    SameAsNew code n s ↔ s.size = 0 := by
  obtain ⟨s', hr, hsize⟩ := hs.release
  have hu : u32 s'.size = s'.size := by
    rw [hsize, hs.size]
    exact Int.emod_emod_of_dvd _ dvd_rfl
  obtain ⟨t, ht, hst⟩ := init_sim code s' hu hn
  constructor
  · rintro ⟨s'', t', hr', ht', hall⟩
    obtain rfl := Option.some.inj (hr.symm.trans hr')
    obtain rfl := (Prod.mk.inj (Option.some.inj (ht.symm.trans ht'))).2
    obtain ⟨t₀, ht₀, hst₀⟩ := init_sim code (HashMap.new s.nodes) rfl hn
    have hres := hall s.nodes t₀ ht₀ [.getSize]
    simp only [HashMap.exec, HashMap.step, HashMap.getSize, Option.bind_eq_bind, Option.bind_some,
      Option.map_some, Option.some.injEq, List.cons.injEq, Res.size.injEq, and_true] at hres
    rw [hst.size, hst₀.size, Finmap.keys_empty, Finset.card_empty, Nat.cast_zero, add_zero, hu, hsize]
      at hres
    exact hres
  · intro h0
    refine ⟨s', t, hr, ht, fun m t₀ ht₀ ops => ?_⟩
    obtain ⟨t₁, ht₁, hst₁⟩ := init_sim code (HashMap.new m) rfl hn
    obtain rfl := (Prod.mk.inj (Option.some.inj (ht₁.symm.trans ht₀))).2
    rw [hsize, h0] at hst
    obtain ⟨u, _, _, hu, -⟩ := exec_sim hst ops
    obtain ⟨u', _, _, hu', -⟩ := exec_sim hst₁ ops
    rw [hu, hu']
    rfl

end Backend.Hash
