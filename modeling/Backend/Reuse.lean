import Backend.Hash.Reuse
import Backend.Lru.Reuse
import Backend.Queue.Serial
import Backend.Skip.Reuse

/-!
# `Release` followed by `Init`

The four containers of `base/dsalgo` keep a counter or an index from one life to the next: `m_size`
(`HashMap`, `SkipList`), `m_node_num` (`LruHashMap`), `m_head` and `m_tail` (`CommonQueue`). The constructor
sets them, `Release` and `Init` do not.

* **`sameAsNew_of_lives`**: when the second life is that of a new object;
* `not_sameAsNew_of_lives`: one life of each container after which it is not.
-/

set_option autoImplicit false

namespace Backend

open Hash (HashMap)
open Lru (LruHashMap)
open Queue (CommonQueue)
open Skip (SkipList)

/-- **A second life is that of a new object** if and only if the counter that survives is `0`, or the indices
that survive agree and lie in the new array: for every first `Init`, every sequence of calls after it, and
every argument that the second `Init` accepts. -/
theorem sameAsNew_of_lives {K V O W T : Type} [DecidableEq K] [LinearOrder O]
    (hash : K → BitVec 32) (code : K → UInt32) {zero : T} (hT : ∃ x, x ≠ zero) :
    (∀ (m : Hash.Nodes K V) (n₁ n : ℤ) (s₀ s : HashMap K V) (ops : List (Hash.Op K V))
      (rs : List (Hash.Res V)),
      (HashMap.new m).init n₁ = some (true, s₀) → s₀.exec hash ops = some (rs, s) → 0 < n →
        (Hash.SameAsNew hash n s ↔ s.size = 0)) ∧
    (∀ (key : ℕ → O) (value : ℕ → W) (s : SkipList O W) (calls : List (Skip.Op O W × (ℕ → ℕ)))
      (rs : List (Skip.Res W)),
      (SkipList.init key value).exec calls = some (rs, s) → (Skip.SameAsNew s ↔ s.size = 0)) ∧
    (∀ (n₁ n : ℕ) (key : Lru.Slot n₁ → K) (value : Lru.Slot n₁ → V) (m₀ m : LruHashMap n₁ K V)
      (ops : List (Lru.Op K V)) (rs : List (Lru.Res K V)),
      LruHashMap.init n₁ key value = some m₀ → m₀.exec code ops = some (rs, m) → 0 < n → n + 2 < 2 ^ 31 →
        (Lru.SameAsNew code n m ↔ m.nodeNum = 0)) ∧
    ∀ (q t₀ : CommonQueue T) (data : ℕ → T) (size : ℕ), CommonQueue.init zero (.new data) size = some t₀ →
      (Queue.SameAsNew zero size q ↔ q.head = q.tail ∧ q.tail < 2 ^ Nat.clog 2 size) := by
  refine ⟨?_, ?_, ?_, ?_⟩
  · intro m n₁ n s₀ s ops rs h₀ h hn
    have hn₁ : 0 < n₁ := by
      by_contra hno
      rw [HashMap.init, if_pos (not_lt.mp hno)] at h₀
      cases h₀
    obtain ⟨s₁, h₁, hs₁⟩ := Hash.init_sim hash (HashMap.new m) rfl hn₁
    obtain rfl := (Prod.mk.inj (Option.some.inj (h₁.symm.trans h₀))).2
    obtain ⟨s', _, _, h', hs⟩ := Hash.exec_sim hs₁ ops
    obtain rfl := (Prod.mk.inj (Option.some.inj (h'.symm.trans h))).2
    exact Hash.sameAsNew_iff hs hn
  · intro key value s calls rs h
    obtain ⟨s', L, h', hs⟩ := Skip.exec_sim (Skip.init_sim key value) calls
    obtain rfl := (Prod.mk.inj (Option.some.inj (h'.symm.trans h))).2
    exact Skip.sameAsNew_iff hs
  · intro n₁ n key value m₀ m ops rs _ _ hn hlt
    exact Lru.sameAsNew_iff code m hn hlt
  · intro q t₀ data size h
    exact Queue.sameAsNew_iff hT q (Queue.size_le_of_init h)

/-- Maps from which the key of the first life is removed, and a queue that one item went through. -/
theorem sameAsNew_of_lives_empty :
    (∃ s₀ s rs, (HashMap.new ⟨fun _ => 0, fun _ => 0, fun _ => none, fun _ => false, 0⟩).init 2 =
        some (true, s₀) ∧
      s₀.exec (BitVec.ofNat 32) [.insert 5 50, .delete 5] = some (rs, s) ∧
        Hash.SameAsNew (BitVec.ofNat 32) 3 s) ∧
    (∃ s rs, (SkipList.init (fun _ => 0) (fun _ => 0)).exec
        [(.insert 5 50, fun _ => 0), (.delete 5, fun _ => 0)] = some (rs, s) ∧ Skip.SameAsNew s) ∧
    (∃ m₀ m rs, LruHashMap.init 1 (fun _ => 0) (fun _ => 0) = some m₀ ∧
      m₀.exec Nat.toUInt32 [.put 5 50 true, .remove 5] = some (rs, m) ∧ Lru.SameAsNew Nat.toUInt32 2 m) ∧
    Queue.SameAsNew 0 2 (⟨fun _ => 5, 1, 1, 2, 0, 2⟩ : CommonQueue ℕ) := by
  obtain ⟨hhash, hskip, hlru, hqueue⟩ := sameAsNew_of_lives (K := ℕ) (V := ℕ) (O := ℕ) (W := ℕ)
    (BitVec.ofNat 32) Nat.toUInt32 (show ∃ x : ℕ, x ≠ 0 from ⟨1, by decide⟩)
  refine ⟨?_, ?_, ?_, ?_⟩
  · have hlife : ((HashMap.new ⟨fun _ => 0, fun _ => 0, fun _ => none, fun _ => false, 0⟩).init 2).map
        (fun r => (r.1, (r.2.exec (BitVec.ofNat 32) [.insert 5 50, .delete 5]).map fun r => r.2.size)) =
          some (true, some 0) := by
      decide +kernel
    obtain ⟨⟨b, s₀⟩, h₀, heq⟩ := Option.map_eq_some_iff.mp hlife
    obtain ⟨rfl, heq⟩ := Prod.mk.inj heq
    obtain ⟨⟨rs, s⟩, h, hsize⟩ := Option.map_eq_some_iff.mp heq
    exact ⟨s₀, s, rs, h₀, h, (hhash _ _ _ _ _ _ _ h₀ h (by decide)).mpr hsize⟩
  · have hlife : ((SkipList.init (fun _ => 0) (fun _ => 0)).exec
        [(.insert 5 50, fun _ => 0), (.delete 5, fun _ => 0)]).map (fun r => r.2.size) = some 0 := by
      decide +kernel
    obtain ⟨⟨rs, s⟩, h, hsize⟩ := Option.map_eq_some_iff.mp hlife
    exact ⟨s, rs, h, (hskip _ _ _ _ _ h).mpr hsize⟩
  · have hlife : (LruHashMap.init 1 (fun _ => 0) (fun _ => 0)).map
        (fun m => (m.exec Nat.toUInt32 [.put 5 50 true, .remove 5]).map fun r => r.2.nodeNum) =
          some (some 0) := by
      decide +kernel
    obtain ⟨m₀, h₀, heq⟩ := Option.map_eq_some_iff.mp hlife
    obtain ⟨⟨rs, m⟩, h, hnum⟩ := Option.map_eq_some_iff.mp heq
    exact ⟨m₀, m, rs, h₀, h, (hlru _ _ _ _ _ _ _ _ h₀ h (by decide) (by decide)).mpr hnum⟩
  · have hinit : (CommonQueue.init 0 (.new fun _ => 0) 2).isSome := by decide +kernel
    obtain ⟨t₀, h₀⟩ := Option.isSome_iff_exists.mp hinit
    exact (hqueue _ _ _ _ h₀).mpr ⟨rfl, by decide⟩

/-- **One life of each container** after which the second is not that of a new object. A size counts a key of
the first life; an `LruHashMap` for one entry removes the entry that was just put; a queue writes past its
new array. -/
theorem not_sameAsNew_of_lives :
    ((do let (_, s₀) ← (HashMap.new ⟨fun _ => 0, fun _ => 0, fun _ => none, fun _ => false, 0⟩).init 2
         let (_, s) ← s₀.exec (BitVec.ofNat 32) [.insert 5 50]
         let (_, t) ← (← s.release).init 2
         let (rs, _) ← t.exec (BitVec.ofNat 32) [.getSize, .find 5 0]
         some rs) = some [.size 1, .find false 0] ∧
      (do let (_, t) ← (HashMap.new ⟨fun _ => 0, fun _ => 0, fun _ => none, fun _ => false, 0⟩).init 2
          let (rs, _) ← t.exec (BitVec.ofNat 32) [.getSize, .find 5 0]
          some rs) = some [.size 0, .find false 0]) ∧
    ((do let (_, s) ← (SkipList.init (fun _ => 0) (fun _ => 0)).exec [(.insert 5 50, fun _ => 0)]
         let (rs, _) ← (← s.release).initOn.exec [(.getSize, fun _ => 0)]
         some rs) = some [.size 1] ∧
      ((SkipList.init (fun _ => 0) (fun _ => 0)).exec [(.getSize, fun _ => 0)]).map Prod.fst =
        some [.size 0]) ∧
    ((do let m₀ ← LruHashMap.init 1 (fun _ => 0) (fun _ => 0)
         let (_, m) ← m₀.exec Nat.toUInt32 [.put 1 10 true]
         let t ← m.release.init 1 (fun _ => 0) (fun _ => 0)
         let (rs, _) ← t.exec Nat.toUInt32 [.put 2 20 true, .get 2 true]
         some rs) = some [.bool true, .value none] ∧
      (do let t ← LruHashMap.init 1 (fun _ => 0) (fun _ => 0)
          let (rs, _) ← t.exec Nat.toUInt32 [.put 2 20 true, .get 2 true]
          some rs) = some [.bool true, .value (some 20)]) ∧
    ((do let q₀ ← CommonQueue.init 0 (.new fun _ => 0) 2
         let q ← (q₀.push .till 5).2
         let t ← CommonQueue.init 0 (q.release (fun _ => 0) 0 0) 1
         some (Queue.exec CommonQueue.call t [.push .till 7])) = some [.outOfBounds] ∧
      (do let t ← CommonQueue.init 0 (.new fun _ => 0) 1
          some (Queue.exec CommonQueue.call t [.push .till 7])) = some [.push true]) := by
  decide +kernel

end Backend
