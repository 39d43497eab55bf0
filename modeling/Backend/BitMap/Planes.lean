import Backend.BitMap.Words
import Mathlib.Algebra.Order.Ring.Nat
import Mathlib.Data.Nat.Bitwise

/-!
# `NBitMap` stores values bit by bit (`base/dsalgo/nbitmap.cc`)

* `Holds`: the bit maps hold the bits of the values; `Holds.get`, `Holds.put`: what `Get` and a loop of `Set` or
  `Clear` do;
* `lastValue`, **`nBitMap_faithful`**: every sequence of calls after one `Init`;
* `SetReports`, **`setReports_iff`**: `Set` tells that the value was stored, except for an index that the bit maps
  reject.
-/

set_option autoImplicit false

namespace Backend.Bits

open Function

/-! ## The powers of two that the loops add up -/

theorem one_shiftLeft_succ (i : ℕ) : (1#32 <<< i) <<< 1 = 1#32 <<< (i + 1) := (BitVec.shiftLeft_add 1#32 i 1).symm

theorem one_shiftLeft (i : ℕ) : 1#32 <<< i = BitVec.ofNat 32 (2 ^ i) := by
  apply BitVec.eq_of_toNat_eq
  rw [BitVec.toNat_shiftLeft, BitVec.toNat_ofNat, Nat.shiftLeft_eq]
  simp

theorem and_value_ne_zero (i : ℕ) (value : Word) : 1#32 <<< i &&& value ≠ 0 ↔ value.getLsbD i = true := by
  have htwo : 1#32 <<< i = BitVec.twoPow 32 i := rfl
  rw [htwo, BitVec.and_comm, BitVec.and_twoPow]
  split_ifs with h
  · have hlt : i < 32 := BitVec.lt_of_getLsbD h
    refine ⟨fun _ => h, fun _ h0 => ?_⟩
    have hbit := congrArg (fun w : Word => w.getLsbD i) h0
    simp [hlt] at hbit
  · simp [h]

theorem toNat_max (n : ℕ) : (1#32 <<< n - 1 : Word).toNat = min (2 ^ n - 1) (2 ^ 32 - 1) := by
  have hpos : 0 < 2 ^ n := Nat.two_pow_pos n
  rw [one_shiftLeft, BitVec.toNat_sub, BitVec.toNat_ofNat]
  by_cases hn : n < 32
  · have hlt : 2 ^ n < 2 ^ 32 := Nat.pow_lt_pow_right (by decide) hn
    rw [Nat.mod_eq_of_lt hlt]
    simp
    omega
  · have hdvd : 2 ^ 32 ∣ 2 ^ n := Nat.pow_dvd_pow 2 (by omega)
    have hle : 2 ^ 32 ≤ 2 ^ n := Nat.pow_le_pow_right (by decide) (by omega)
    rw [Nat.mod_eq_zero_of_dvd hdvd]
    simp
    omega

theorem add_bit (value : Word) (i : ℕ) :
    BitVec.ofNat 32 (value.toNat % 2 ^ i) + BitVec.ofInt 32 (if value.getLsbD i then 1 else 0) * (1#32 <<< i) =
      BitVec.ofNat 32 (value.toNat % 2 ^ (i + 1)) := by
  rw [Nat.mod_pow_succ, ← Nat.toNat_testBit, BitVec.ofNat_add, one_shiftLeft, BitVec.getLsbD]
  cases value.toNat.testBit i with
  | true => simp
  | false => simp

/-! ## What the bit maps hold -/

/-- No bit map rejects the index. -/
def NBitMap.Accepts (m : NBitMap) (index : Word) : Prop := ∀ i < m.bitNum.toNat, (m.bitmap i).rejects index = false

/-- After `Init(size, bit_num)` the bit maps hold the bits of the values `f`. -/
structure Holds (size bitNum : Word) (f : Word → Word) (m : NBitMap) : Prop where
  num : m.bitNum = bitNum
  max : m.maxBitValue = 1#32 <<< bitNum.toNat - 1
  sized : ∀ i < bitNum.toNat, (m.bitmap i).Sized size
  bits : ∀ i < bitNum.toNat, ∀ index, (m.bitmap i).rejects index = false →
    (m.bitmap i).bitAt index = (f index).getLsbD i
  le : ∀ index, f index ≤ m.maxBitValue

section Calls

variable {size bitNum : Word} {f : Word → Word} {m : NBitMap} {index value : Word}

theorem Holds.accepts_iff (h : Holds size bitNum f m) (hb : 1 ≤ bitNum) :
    m.Accepts index ↔ index.toNat < 32 * (size.toNat / 32 + 1) := by
  have hpos : 0 < bitNum.toNat := by
    rw [BitVec.le_def] at hb
    exact hb
  constructor
  · intro ha
    exact (h.sized 0 hpos).rejects_eq_false_iff.mp (ha 0 (by rwa [h.num]))
  · intro hlt i hi
    rw [h.num] at hi
    exact (h.sized i hi).rejects_eq_false_iff.mpr hlt

theorem getLoop_spec (h : Holds size bitNum f m) (ha : m.Accepts index) (n i : ℕ) (hi : i + n = bitNum.toNat) :
    m.getLoop index n i (1#32 <<< i) (BitVec.ofNat 32 ((f index).toNat % 2 ^ i)) =
      some (BitVec.ofNat 32 ((f index).toNat % 2 ^ (i + n))) := by
  induction n generalizing i with
  | zero => rfl
  | succ n ih =>
    have hlt : i < bitNum.toNat := by omega
    have hr : (m.bitmap i).rejects index = false := ha i (by rwa [h.num])
    rw [NBitMap.getLoop, (h.sized i hlt).get hr, h.bits i hlt index hr]
    simp only [Option.bind_eq_bind, Option.bind_some, one_shiftLeft_succ, add_bit]
    rw [ih (i + 1) (by omega)]
    congr 4
    omega

/-- **`Get`** returns the value. -/
theorem Holds.get (h : Holds size bitNum f m) (ha : m.Accepts index) : m.get index = some (f index) := by
  have hloop := getLoop_spec h ha bitNum.toNat 0 (Nat.zero_add _)
  rw [pow_zero, Nat.mod_one, Nat.zero_add] at hloop
  have hle := h.le index
  rw [h.max, BitVec.le_def, toNat_max] at hle
  have hlt : (f index).toNat < 2 ^ bitNum.toNat := by
    have : 0 < 2 ^ bitNum.toNat := Nat.two_pow_pos _
    omega
  rw [NBitMap.get, h.num]
  refine hloop.trans ?_
  rw [Nat.mod_eq_of_lt hlt, BitVec.ofNat_toNat, BitVec.setWidth_eq]

theorem clearLoop_eq (index temp : Word) (n i : ℕ) (m : NBitMap) :
    NBitMap.clearLoop index n i m = NBitMap.setLoop index 0 n i temp m := by
  induction n generalizing i temp m with
  | zero => rfl
  | succ n ih =>
    rw [NBitMap.clearLoop, NBitMap.setLoop, if_neg (by simp)]
    congr 1
    funext r
    exact ih _ _ _

theorem setLoop_spec (size index value : Word) (n i : ℕ) (m : NBitMap)
    (hs : ∀ j, i ≤ j → j < i + n → (m.bitmap j).Sized size) :
    ∃ m', NBitMap.setLoop index value n i (1#32 <<< i) m = some m' ∧ m'.bitNum = m.bitNum ∧
      m'.maxBitValue = m.maxBitValue ∧ (∀ j, j < i → m'.bitmap j = m.bitmap j) ∧
      (∀ j, i ≤ j → j < i + n → (m'.bitmap j).Sized size ∧ ∀ k, (m.bitmap j).rejects k = false →
        (m'.bitmap j).bitAt k = if k = index then value.getLsbD j else (m.bitmap j).bitAt k) ∧
      (¬ index.toNat < 32 * (size.toNat / 32 + 1) → m' = m) := by
  induction n generalizing i m with
  | zero => exact ⟨m, rfl, rfl, rfl, fun _ _ => rfl, fun j h1 h2 => by omega, fun _ => rfl⟩
  | succ n ih =>
    have hi := hs i (Nat.le_refl _) (by omega)
    obtain ⟨b', he, hs', hrej, hbit⟩ := hi.put index (value.getLsbD i)
    have hne : ∀ j, i + 1 ≤ j → update m.bitmap i b' j = m.bitmap j := fun j hj => update_of_ne (by omega) _ _
    obtain ⟨m', he', h1, h2, h3, h4, h5⟩ := ih (i + 1) { m with bitmap := update m.bitmap i b' }
      (fun j h1 h2 => by simpa only [hne j h1] using hs j (by omega) (by omega))
    have hself : m'.bitmap i = b' := by
      rw [h3 i (by omega)]
      exact update_self _ _ _
    refine ⟨m', ?_, h1, h2, ?_, ?_, ?_⟩
    · rw [NBitMap.setLoop]
      simp only [and_value_ne_zero, he, Option.bind_some, one_shiftLeft_succ]
      exact he'
    · intro j hj
      rw [h3 j (by omega)]
      exact update_of_ne (by omega) _ _
    · intro j hj hj'
      rcases Nat.eq_or_lt_of_le hj with rfl | hlt
      · rw [hself]
        exact ⟨hs', hbit⟩
      · simpa only [hne j hlt] using h4 j hlt (by omega)
    · intro hout
      have hr : (m.bitmap i).rejects index = true := by
        rw [← Bool.not_eq_false, hi.rejects_eq_false_iff]
        exact hout
      rw [h5 hout, hrej hr, update_eq_self]

/-- **A loop of `Set`** stores the value, or nothing when the index is rejected. -/
theorem Holds.put (h : Holds size bitNum f m) (index : Word) (hv : value ≤ m.maxBitValue) :
    ∃ m', NBitMap.setLoop index value m.bitNum.toNat 0 1 m = some m' ∧
      Holds size bitNum (update f index value) m' ∧ (¬ index.toNat < 32 * (size.toNat / 32 + 1) → m' = m) := by
  obtain ⟨m', he, h1, h2, -, h4, h5⟩ := setLoop_spec size index value m.bitNum.toNat 0 m fun j _ hj => by
    rw [Nat.zero_add, h.num] at hj
    exact h.sized j hj
  refine ⟨m', he, ⟨h1.trans h.num, h2.trans h.max, fun i hi => ?_, fun i hi k hk => ?_, fun k => ?_⟩, h5⟩
  · exact (h4 i (Nat.zero_le _) (by rwa [Nat.zero_add, h.num])).1
  · obtain ⟨hs, hbit⟩ := h4 i (Nat.zero_le _) (by rwa [Nat.zero_add, h.num])
    rw [(h.sized i hi).rejects_eq hs] at hk
    rw [hbit k hk, h.bits i hi k hk]
    by_cases hki : k = index
    · rw [if_pos hki, hki, update_self]
    · rw [if_neg hki, update_of_ne hki]
  · rw [h2]
    by_cases hki : k = index
    · rw [hki, update_self]
      exact hv
    · rw [update_of_ne hki]
      exact h.le k

end Calls

/-! ## `Init` -/

theorem initLoop_spec (buffer : ℕ → ℕ → Word) (size : Word) (n i : ℕ) (m : NBitMap)
    (hm : m.maxBitValue = 1#32 <<< i - 1) :
    ∃ m', NBitMap.initLoop buffer size n i (1#32 <<< i) m = m' ∧ m'.bitNum = m.bitNum ∧
      m'.maxBitValue = 1#32 <<< (i + n) - 1 ∧ (∀ j, j < i → m'.bitmap j = m.bitmap j) ∧
      ∀ j, i ≤ j → j < i + n → m'.bitmap j = BitMap.init (buffer j) size := by
  induction n generalizing i m with
  | zero => exact ⟨m, rfl, rfl, hm, fun _ _ => rfl, fun j h1 h2 => by omega⟩
  | succ n ih =>
    have hmax : m.maxBitValue + 1#32 <<< i = 1#32 <<< (i + 1) - 1 := by
      rw [hm, one_shiftLeft, one_shiftLeft, pow_succ, mul_two, BitVec.ofNat_add]
      bv_omega
    obtain ⟨m', he, h1, h2, h3, h4⟩ := ih (i + 1)
      { m with bitmap := update m.bitmap i (BitMap.init (buffer i) size)
               maxBitValue := m.maxBitValue + 1#32 <<< i } hmax
    refine ⟨m', ?_, h1, ?_, fun j hj => ?_, fun j hj hj' => ?_⟩
    · rw [NBitMap.initLoop, one_shiftLeft_succ]
      exact he
    · rw [h2, show i + 1 + n = i + (n + 1) by omega]
    · rw [h3 j (by omega)]
      exact update_of_ne (by omega) _ _
    · rcases Nat.eq_or_lt_of_le hj with rfl | hlt
      · rw [h3 i (by omega)]
        exact update_self _ _ _
      · exact h4 j hlt (by omega)

/-- **`Init`** of a new object: all values are `0`. -/
theorem holds_init (bitmap : ℕ → BitMap) (buffer : ℕ → ℕ → Word) (size : Word) {bitNum : Word} (hb : 1 ≤ bitNum) :
    ∃ m, NBitMap.init bitmap buffer size bitNum = some m ∧ Holds size bitNum (fun _ => 0) m := by
  have hpos : ¬ bitNum ≤ 0 := by
    rw [BitVec.le_def] at hb ⊢
    exact Nat.not_le.mpr hb
  obtain ⟨m, he, h1, h2, -, h4⟩ := initLoop_spec buffer size bitNum.toNat 0
    { bitmap := bitmap, bitNum := bitNum, maxBitValue := 0 } rfl
  rw [Nat.zero_add] at h2 h4
  refine ⟨m, ?_, h1, h2, fun i hi => ?_, fun i hi index hr => ?_, fun _ => Nat.zero_le _⟩
  · rw [NBitMap.init, if_neg hpos]
    exact congrArg some he
  · rw [h4 i (Nat.zero_le _) hi]
    exact BitMap.sized_init _ _
  · rw [h4 i (Nat.zero_le _) hi] at hr ⊢
    rw [BitMap.bitAt_init hr]
    exact BitVec.getLsbD_zero.symm

/-! ## Sequences of calls -/

/-- The call decides the value of `index`: a `Set` that returned `true`, or a `Clear`. -/
def decides (index : Word) : NBitMap.Op × Bool → Bool
  | (.set i _, r) => index == i && r
  | (.clear i, _) => index == i

/-- What a call leaves at its index. -/
def NBitMap.Op.value : NBitMap.Op → Word
  | .set _ value => value
  | .clear _ => 0

/-- The value of the last `Set` of `index` that returned `true`, and `0` when there is none or a `Clear` followed. -/
def lastValue (log : List (NBitMap.Op × Bool)) (index : Word) : Word :=
  match (log.filter (decides index)).getLast? with
  | some call => call.1.value
  | none => 0

theorem lastValue_append (log : List (NBitMap.Op × Bool)) (call : NBitMap.Op × Bool) (index : Word) :
    lastValue (log ++ [call]) index = if decides index call then call.1.value else lastValue log index := by
  rw [lastValue, List.filter_append]
  split_ifs with h
  · simp [h]
  · simp [h, lastValue]

theorem NBitMap.exec_append (m : NBitMap) (ops : List NBitMap.Op) (op : NBitMap.Op) {log : List (NBitMap.Op × Bool)}
    {m₁ m₂ : NBitMap} {r : Bool} (h : m.exec ops = some (log, m₁)) (hs : m₁.step op = some (r, m₂)) :
    m.exec (ops ++ [op]) = some (log ++ [(op, r)], m₂) := by
  induction ops generalizing m log with
  | nil =>
    obtain ⟨rfl, rfl⟩ := Prod.mk.inj (Option.some.inj h)
    simp [NBitMap.exec, hs]
  | cons o ops ih =>
    rw [NBitMap.exec] at h
    obtain ⟨⟨r', m'⟩, hstep, h⟩ := Option.bind_eq_some_iff.mp h
    obtain ⟨⟨log', m''⟩, hexec, h⟩ := Option.bind_eq_some_iff.mp h
    obtain ⟨rfl, rfl⟩ := Prod.mk.inj (Option.some.inj h)
    rw [List.cons_append, NBitMap.exec, hstep]
    simp only [Option.bind_eq_bind, Option.bind_some, ih m' hexec]
    rfl

section Steps

variable {size bitNum : Word} {f : Word → Word} {m : NBitMap}

theorem Holds.set_large (h : Holds size bitNum f m) {value : Word} (index : Word)
    (hv : min (2 ^ bitNum.toNat - 1) (2 ^ 32 - 1) < value.toNat) : m.set index value = some (false, m) := by
  rw [NBitMap.set, if_pos]
  rw [h.max, gt_iff_lt, BitVec.lt_def, toNat_max]
  exact hv

theorem Holds.set (h : Holds size bitNum f m) {value : Word} (index : Word)
    (hv : ¬ min (2 ^ bitNum.toNat - 1) (2 ^ 32 - 1) < value.toNat) :
    ∃ m', m.set index value = some (true, m') ∧ Holds size bitNum (update f index value) m' ∧
      (¬ index.toNat < 32 * (size.toNat / 32 + 1) → m' = m) := by
  have hle : ¬ value > m.maxBitValue := by
    rw [h.max, gt_iff_lt, BitVec.lt_def, toNat_max]
    exact hv
  obtain ⟨m', he, hh, hout⟩ := h.put index (BitVec.not_lt.mp hle)
  refine ⟨m', ?_, hh, hout⟩
  rw [NBitMap.set, if_neg hle, he]
  rfl

theorem Holds.clear (h : Holds size bitNum f m) (index : Word) :
    ∃ m', m.clear index = some (true, m') ∧ Holds size bitNum (update f index 0) m' := by
  obtain ⟨m', he, hh, -⟩ := h.put index (show 0 ≤ m.maxBitValue from Nat.zero_le _)
  refine ⟨m', ?_, hh⟩
  rw [NBitMap.clear, clearLoop_eq index 1, he]
  rfl

/-- **One call** changes only the value of its index. -/
theorem Holds.step (h : Holds size bitNum f m) (op : NBitMap.Op) :
    ∃ r m', m.step op = some (r, m') ∧
      Holds size bitNum (fun index => if decides index (op, r) then op.value else f index) m' := by
  have hupdate : ∀ (i value : Word), update f i value = fun index => if index = i then value else f index :=
    fun i value => funext fun index => update_apply f i value index
  cases op with
  | set i value =>
    by_cases hv : min (2 ^ bitNum.toNat - 1) (2 ^ 32 - 1) < value.toNat
    · refine ⟨false, m, h.set_large i hv, ?_⟩
      simpa [decides] using h
    · obtain ⟨m', he, hh, -⟩ := h.set i hv
      refine ⟨true, m', he, ?_⟩
      simpa [decides, hupdate, NBitMap.Op.value] using hh
  | clear i =>
    obtain ⟨m', he, hh⟩ := h.clear i
    refine ⟨true, m', he, ?_⟩
    simpa [decides, hupdate, NBitMap.Op.value] using hh

theorem Holds.exec (h : Holds size bitNum (fun _ => 0) m) (ops : List NBitMap.Op) :
    ∃ log m', m.exec ops = some (log, m') ∧ log.map Prod.fst = ops ∧ Holds size bitNum (lastValue log) m' := by
  induction ops using List.reverseRecOn with
  | nil => exact ⟨[], m, rfl, rfl, h⟩
  | append_singleton ops op ih =>
    obtain ⟨log, m₁, he, hlog, hh⟩ := ih
    obtain ⟨r, m₂, hs, hh₂⟩ := hh.step op
    refine ⟨log ++ [(op, r)], m₂, m.exec_append ops op he hs, ?_, ?_⟩
    · rw [List.map_append, hlog]
      rfl
    · simpa only [← lastValue_append log (op, r)] using hh₂

end Steps

/-- **`NBitMap` stores values faithfully**, for every width: after one `Init` of a new object and any calls of `Set` and
`Clear`, `Get` returns the value of the last `Set` that returned `true`, unless a `Clear` followed; a call changes no
other value; a `Set` of a value that is too large returns `false` and changes nothing, and every other one returns `true`,
after which `Get` returns the value. -/
theorem nBitMap_faithful (bitmap : ℕ → BitMap) (buffer : ℕ → ℕ → Word) (size bitNum : Word) (hb : 1 ≤ bitNum)
    (ops : List NBitMap.Op) :
    ∃ m₀ log m, NBitMap.init bitmap buffer size bitNum = some m₀ ∧ m₀.exec ops = some (log, m) ∧
      log.map Prod.fst = ops ∧
      (∀ index, m.Accepts index ↔ index.toNat < 32 * (size.toNat / 32 + 1)) ∧
      (∀ index, m.Accepts index → m.get index = some (lastValue log index)) ∧
      (∀ op, ∃ r m', m.step op = some (r, m') ∧
        ∀ index, m.Accepts index → index ≠ op.index → m'.get index = m.get index) ∧
      (∀ index value : Word, min (2 ^ bitNum.toNat - 1) (2 ^ 32 - 1) < value.toNat →
        m.set index value = some (false, m)) ∧
      ∀ index value : Word, value.toNat ≤ min (2 ^ bitNum.toNat - 1) (2 ^ 32 - 1) →
        ∃ m', m.set index value = some (true, m') ∧ (m.Accepts index → m'.get index = some value) := by
  obtain ⟨m₀, h0, hh₀⟩ := holds_init bitmap buffer size hb
  obtain ⟨log, m, he, hlog, hh⟩ := hh₀.exec ops
  refine ⟨m₀, log, m, h0, he, hlog, fun index => hh.accepts_iff hb, fun index ha => hh.get ha, fun op => ?_,
    fun index value hv => hh.set_large index hv, fun index value hv => ?_⟩
  · obtain ⟨r, m', hs, hh'⟩ := hh.step op
    refine ⟨r, m', hs, fun index ha hne => ?_⟩
    have ha' : m'.Accepts index := (hh'.accepts_iff hb).mpr ((hh.accepts_iff hb).mp ha)
    have hno : decides index (op, r) = false := by
      cases op with
      | set i value => simpa [decides, NBitMap.Op.index] using fun h => absurd h hne
      | clear i => simpa [decides, NBitMap.Op.index] using hne
    rw [hh'.get ha', hh.get ha, if_neg (by rw [hno]; decide)]
  · obtain ⟨m', hs, hh', -⟩ := hh.set index (Nat.not_lt.mpr hv)
    refine ⟨m', hs, fun ha => ?_⟩
    have ha' : m'.Accepts index := (hh'.accepts_iff hb).mpr ((hh.accepts_iff hb).mp ha)
    rw [hh'.get ha', update_self]

/-- Three bits: `5` is stored, `8` is rejected. -/
theorem nBitMap_faithful_three : ∃ m₀ log m,
    NBitMap.init (fun _ => ⟨fun _ => 0, 0⟩) (fun _ _ => 7) 100 3 = some m₀ ∧
    m₀.exec [.set 10 5, .set 10 8, .clear 11] = some (log, m) ∧
    m.Accepts 10 ∧ m.get 10 = some 5 ∧ m.set 10 8 = some (false, m) := by
  obtain ⟨m₀, log, m, h0, he, -, hacc, hget, -, hset, -⟩ :=
    nBitMap_faithful (fun _ => ⟨fun _ => 0, 0⟩) (fun _ _ => 7) 100 3 (by decide) [.set 10 5, .set 10 8, .clear 11]
  have hlog : log = [(.set 10 5, true), (.set 10 8, false), (.clear 11, true)] := by
    have hrun : ((NBitMap.init (fun _ => ⟨fun _ => 0, 0⟩) (fun _ _ => 7) 100 3).bind fun m =>
        (m.exec [.set 10 5, .set 10 8, .clear 11]).map Prod.fst) =
          some [(.set 10 5, true), (.set 10 8, false), (.clear 11, true)] := rfl
    rw [h0, Option.bind_some, he] at hrun
    exact Option.some.inj hrun
  have ha : m.Accepts 10 := (hacc 10).mpr (by decide)
  refine ⟨m₀, log, m, h0, he, ha, ?_, hset 10 8 (by decide)⟩
  rw [hget 10 ha, hlog]
  rfl

/-! ## What `Set` reports -/

/-- `Set` returns `true` exactly when the value has `bit_num` bits and the index is accepted, and then `Get` returns the
value; otherwise nothing changes. -/
def SetReports (m : NBitMap) (index value : Word) : Prop :=
  ∃ r m', m.set index value = some (r, m') ∧
    (value.toNat ≤ min (2 ^ m.bitNum.toNat - 1) (2 ^ 32 - 1) ∧ m.Accepts index →
      r = true ∧ m'.get index = some value) ∧
    (¬ (value.toNat ≤ min (2 ^ m.bitNum.toNat - 1) (2 ^ 32 - 1) ∧ m.Accepts index) → r = false ∧ m' = m)

theorem Holds.setReports_iff_accepts {size bitNum : Word} {f : Word → Word} {m : NBitMap} (h : Holds size bitNum f m)
    (hb : 1 ≤ bitNum) (index value : Word) : SetReports m index value ↔
      m.Accepts index ∨ min (2 ^ bitNum.toNat - 1) (2 ^ 32 - 1) < value.toNat := by
  rw [SetReports, h.num]
  by_cases hv : min (2 ^ bitNum.toNat - 1) (2 ^ 32 - 1) < value.toNat
  · refine ⟨fun _ => .inr hv, fun _ => ⟨false, m, h.set_large index hv, fun hno => ?_, fun _ => ⟨rfl, rfl⟩⟩⟩
    exact absurd hv (Nat.not_lt.mpr hno.1)
  · obtain ⟨m', he, hh, hout⟩ := h.set index hv
    have hacc : m'.Accepts index ↔ m.Accepts index := (hh.accepts_iff hb).trans (h.accepts_iff hb).symm
    constructor
    · rintro ⟨r, m'', he', -, hfalse⟩
      by_contra hno
      have hr := (hfalse fun hyes => hno (.inl hyes.2)).1
      rw [he, hr] at he'
      exact absurd (Prod.mk.inj (Option.some.inj he')).1 (by decide)
    · intro hor
      have ha := hor.resolve_right hv
      refine ⟨true, m', he, fun _ => ⟨rfl, ?_⟩, fun hno => absurd ⟨Nat.not_lt.mp hv, ha⟩ hno⟩
      rw [hh.get (hacc.mpr ha), update_self]

/-- **`Set` reports** whether the value was stored, in every state after one `Init` and calls of `Set` and `Clear`, if
and only if the bit maps accept the index, which is below the number of their bits, or the value is too large: it drops
what the bit maps return. -/
theorem setReports_iff (bitmap : ℕ → BitMap) (buffer : ℕ → ℕ → Word) (size bitNum : Word) (hb : 1 ≤ bitNum)
    (ops : List NBitMap.Op) :
    ∃ m₀ log m, NBitMap.init bitmap buffer size bitNum = some m₀ ∧ m₀.exec ops = some (log, m) ∧
      (∀ index, m.Accepts index ↔ index.toNat < 32 * (size.toNat / 32 + 1)) ∧
      ∀ index value : Word, SetReports m index value ↔
        m.Accepts index ∨ min (2 ^ bitNum.toNat - 1) (2 ^ 32 - 1) < value.toNat := by
  obtain ⟨m₀, h0, hh₀⟩ := holds_init bitmap buffer size hb
  obtain ⟨log, m, he, -, hh⟩ := hh₀.exec ops
  exact ⟨m₀, log, m, h0, he, fun index => hh.accepts_iff hb, hh.setReports_iff_accepts hb⟩

/-- Three bits for the indices below `128`. -/
theorem setReports_iff_three : ∃ m₀ log m,
    NBitMap.init (fun _ => ⟨fun _ => 0, 0⟩) (fun _ _ => 7) 100 3 = some m₀ ∧
    m₀.exec [.set 10 5] = some (log, m) ∧ m.Accepts 10 ∧ SetReports m 10 6 ∧
    ∃ m', m.set 10 6 = some (true, m') ∧ m'.get 10 = some 6 := by
  obtain ⟨m₀, log, m, h0, he, hacc, hiff⟩ := setReports_iff (fun _ => ⟨fun _ => 0, 0⟩) (fun _ _ => 7) 100 3 (by decide)
    [.set 10 5]
  have hnum : m.bitNum = 3 := by
    have hrun : ((NBitMap.init (fun _ => ⟨fun _ => 0, 0⟩) (fun _ _ => 7) 100 3).bind fun m =>
        (m.exec [.set 10 5]).map fun p => p.2.bitNum) = some 3 := rfl
    rw [h0, Option.bind_some, he] at hrun
    exact Option.some.inj hrun
  have ha : m.Accepts 10 := (hacc 10).mpr (by decide)
  have hs : SetReports m 10 6 := (hiff 10 6).mpr (.inl ha)
  have ⟨r, m', hset, htrue, _⟩ := hs
  obtain ⟨rfl, hget⟩ := htrue ⟨by rw [hnum]; decide, ha⟩
  exact ⟨m₀, log, m, h0, he, ha, hs, m', hset, hget⟩

/-- `Set` of the index `180`, which the bit maps of `128` bits reject, returns `true` and stores nothing. -/
theorem set_rejected_returns_true : ∃ m₀,
    NBitMap.init (fun _ => ⟨fun _ => 0, 0⟩) (fun _ _ => 7) 100 3 = some m₀ ∧ ¬ m₀.Accepts 180 ∧
    m₀.set 180 5 = some (true, m₀) ∧ ¬ SetReports m₀ 180 5 := by
  obtain ⟨m₀, h0, hh⟩ := holds_init (fun _ => ⟨fun _ => 0, 0⟩) (fun _ _ => 7) 100 (show 1 ≤ 3#32 by decide)
  have hna : ¬ m₀.Accepts 180 := by
    rw [hh.accepts_iff (by decide)]
    decide
  obtain ⟨m', he, -, hout⟩ := hh.set 180 (show ¬ min (2 ^ (3#32).toNat - 1) (2 ^ 32 - 1) < (5#32).toNat by decide)
  rw [hout (by decide)] at he
  refine ⟨m₀, h0, hna, he, fun hno => ?_⟩
  rcases (hh.setReports_iff_accepts (by decide) 180 5).mp hno with h | h
  · exact hna h
  · exact absurd h (by decide)

end Backend.Bits
