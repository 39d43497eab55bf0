import Backend.Md5.Spec

/-!
# The message digest in pieces

`MD5_Update` may be called any number of times; the state then holds the compression of the whole blocks, what is left of
the message in the buffer, and the number of bytes in two counters of 29 and 32 bits.

* `bodyLoop_spec`, `body_spec`: whole blocks;
* `Holds`: what the state of a message is; `holds_init`, `updateTail_spec`, **`Holds.update`**: for every piece;
* **`Holds.final`**: `MD5_Final` gives the digest;
* **`md5_pieces`**: any pieces; **`md5bin_eq_digest`**: one piece.
-/

set_option autoImplicit false

namespace Backend.Md5

open Spec

/-! ## Words of 64 bits -/

theorem toNat_and_low {w : ℕ} (x : BitVec w) {k : ℕ} (hk : k ≤ w) :
    (x &&& BitVec.ofNat w (2 ^ k - 1)).toNat = x.toNat % 2 ^ k := by
  have hpos := Nat.two_pow_pos k
  have hle := Nat.pow_le_pow_right (show 0 < 2 by decide) hk
  rw [BitVec.toNat_and, BitVec.toNat_ofNat, Nat.mod_eq_of_lt (show 2 ^ k - 1 < 2 ^ w by omega),
    Nat.and_two_pow_sub_one_eq_mod]

theorem toNat_and_63 (x : BitVec 64) : (x &&& 0x3f).toNat = x.toNat % 64 := toNat_and_low x (by decide : 6 ≤ 64)

theorem toNat_and_not_63 (x : BitVec 64) : (x &&& ~~~0x3f).toNat = 64 * (x.toNat / 64) := by
  have hsum : (x &&& 0x3f) + (x &&& ~~~0x3f) = x := by
    rw [BitVec.add_eq_or_of_and_eq_zero]
    · ext i hi
      rw [BitVec.getElem_or, BitVec.getElem_and, BitVec.getElem_and, BitVec.getElem_not]
      cases x[i] <;> cases (0x3f#64)[i] <;> rfl
    · ext i hi
      rw [BitVec.getElem_and, BitVec.getElem_and, BitVec.getElem_and, BitVec.getElem_not, BitVec.getElem_zero]
      cases x[i] <;> cases (0x3f#64)[i] <;> rfl
  have h := congrArg BitVec.toNat hsum
  have hlow := toNat_and_63 x
  have hlt := (x &&& ~~~0x3f).isLt
  have hx := x.isLt
  rw [BitVec.toNat_add] at h
  omega

/-! ## Whole blocks -/

theorem bodyLoop_spec (k : ℕ) {fuel : ℕ} (hf : k + 1 ≤ fuel) (r : Regs) {data : List UInt8} {size : BitVec 64}
    (hs : size.toNat = 64 * (k + 1)) (hd : 64 * (k + 1) ≤ data.length) :
    bodyLoop fuel r data size = some ((blocks 64 (data.take (64 * (k + 1)))).foldl compress r, data.drop (64 * (k + 1))) := by
  induction k generalizing fuel r data size with
  | zero =>
    obtain ⟨fuel, rfl⟩ : ∃ f, fuel = f + 1 := ⟨fuel - 1, by omega⟩
    have hlen : (data.take 64).length = 64 := List.length_take_of_le (by omega)
    have hsize : size = 64 := BitVec.eq_of_toNat_eq hs
    rw [bodyLoop, if_neg (by omega), hsize, BitVec.sub_self, if_neg (by simp), Nat.zero_add, Nat.mul_one,
      blocks_single (by decide) hlen, transform_eq_compress hlen]
    rfl
  | succ k ih =>
    obtain ⟨fuel, rfl⟩ : ∃ f, fuel = f + 1 := ⟨fuel - 1, by omega⟩
    have hlen : (data.take 64).length = 64 := List.length_take_of_le (by omega)
    have hsub : (size - 64).toNat = 64 * (k + 1) := by
      have h64 : (64 : BitVec 64).toNat = 64 := rfl
      have := size.isLt
      rw [BitVec.toNat_sub, h64]
      omega
    have hne : size - 64 ≠ 0 := by
      intro h0
      rw [h0] at hsub
      exact absurd hsub (by simp)
    have htake : (data.take (64 * (k + 1 + 1))).take 64 = data.take 64 := by
      rw [List.take_take, Nat.min_eq_left (by omega)]
    have hdrop : (data.take (64 * (k + 1 + 1))).drop 64 = (data.drop 64).take (64 * (k + 1)) := by
      rw [List.drop_take]
      congr 1
    rw [bodyLoop, if_neg (by omega), if_pos hne, ih (by omega) _ hsub (by rw [List.length_drop]; omega),
      transform_eq_compress hlen, List.drop_drop, blocks_cons (l := data.take (64 * (k + 1 + 1))) (by decide)
        (by rw [List.length_take_of_le hd]; omega), htake, hdrop, List.foldl_cons]
    congr 3
    omega

theorem body_spec (ctx : Ctx) {data : List UInt8} {size : BitVec 64} (h0 : 0 < size.toNat) (hdvd : 64 ∣ size.toNat)
    (hd : size.toNat ≤ data.length) : body ctx data size =
      some ({ ctx with regs := (blocks 64 (data.take size.toNat)).foldl compress ctx.regs }, data.drop size.toNat) := by
  obtain ⟨k, hk⟩ := hdvd
  obtain ⟨k, rfl⟩ : ∃ j, k = j + 1 := ⟨k - 1, by omega⟩
  rw [body, bodyLoop_spec k (by omega) _ hk (by omega), hk]
  rfl

theorem body_single (ctx : Ctx) {data : List UInt8} (h : data.length = 64) :
    body ctx data 64 = some ({ ctx with regs := compress ctx.regs data }, []) := by
  have h64 : (64 : BitVec 64).toNat = 64 := rfl
  rw [body_spec ctx (by decide) (by decide) (by rw [h64]; omega), h64, ← h, List.take_length, List.drop_length,
    h, blocks_single (by decide) h]
  rfl

theorem memcpy_eq {buffer data : List UInt8} {off : ℕ} (h : off + data.length ≤ buffer.length) :
    memcpy buffer off data = some (buffer.take off ++ data ++ buffer.drop (off + data.length)) := if_pos h

theorem length_memcpy {buffer data : List UInt8} {off : ℕ} (h : off + data.length ≤ buffer.length) :
    (buffer.take off ++ data ++ buffer.drop (off + data.length)).length = buffer.length := by
  rw [List.length_append, List.length_append, List.length_take_of_le (by omega), List.length_drop]
  omega

theorem memcpy_fill {buffer data : List UInt8} {off : ℕ} (h : off + data.length = buffer.length) :
    memcpy buffer off data = some (buffer.take off ++ data) := by
  rw [memcpy_eq h.le, h, List.drop_length, List.append_nil]

/-! ## The state -/

/-- The state of the message `m`. -/
structure Holds (ctx : Ctx) (m : List UInt8) : Prop where
  length : ctx.buffer.length = 64
  regs : ctx.regs = (blocks 64 m).foldl compress initRegs
  buffer : ctx.buffer.take (m.length % 64) = rest 64 m
  lo : ctx.lo.toNat < 2 ^ 29
  count : ctx.lo.toNat + 2 ^ 29 * ctx.hi.toNat = m.length % 2 ^ 61

theorem holds_init {buffer : List UInt8} (h : buffer.length = 64) : Holds (MD5_Init buffer) [] where
  length := h
  regs := rfl
  buffer := rfl
  lo := Nat.two_pow_pos 29
  count := rfl

variable {ctx : Ctx} {m : List UInt8}

theorem Holds.used (h : Holds ctx m) : ((ctx.lo &&& 0x3f).setWidth 64 : BitVec 64).toNat = m.length % 64 := by
  have hlow : (ctx.lo &&& 0x3f).toNat = ctx.lo.toNat % 64 := toNat_and_low ctx.lo (by decide : 6 ≤ 32)
  have hcount := h.count
  rw [BitVec.toNat_setWidth, hlow]
  omega

theorem Holds.counters (h : Holds ctx m) {n : ℕ} (hn : n < 2 ^ 64) :
    let size := BitVec.ofNat 64 n
    let lo : Word := ((ctx.lo.setWidth 64 + size) &&& 0x1fffffff).setWidth 32
    let hi := if lo < ctx.lo then ctx.hi + 1 else ctx.hi
    let hi' : Word := (hi.setWidth 64 + size >>> 29).setWidth 32
    lo.toNat < 2 ^ 29 ∧ lo.toNat + 2 ^ 29 * hi'.toNat = (m.length + n) % 2 ^ 61 := by
  intro size lo hi hi'
  have hsize : size.toNat = n := by rw [BitVec.toNat_ofNat, Nat.mod_eq_of_lt hn]
  have hlo0 := h.lo
  have hcount := h.count
  have hwide : ∀ x : Word, (x.setWidth 64).toNat = x.toNat := fun x => by
    rw [BitVec.toNat_setWidth, Nat.mod_eq_of_lt (by omega)]
  have hlo : lo.toNat = (ctx.lo.toNat + n) % 2 ^ 29 := by
    have hand := toNat_and_low (ctx.lo.setWidth 64 + size) (by decide : 29 ≤ 64)
    have hw : lo.toNat = ((ctx.lo.setWidth 64 + size) &&& BitVec.ofNat 64 (2 ^ 29 - 1)).toNat % 2 ^ 32 :=
      BitVec.toNat_setWidth 32 _
    rw [hand, BitVec.toNat_add, hwide, hsize] at hw
    omega
  have hhi : hi.toNat = (ctx.hi.toNat + if lo.toNat < ctx.lo.toNat then 1 else 0) % 2 ^ 32 := by
    by_cases hlt : lo < ctx.lo
    · have hnat : lo.toNat < ctx.lo.toNat := hlt
      have hif : hi = ctx.hi + 1 := if_pos hlt
      rw [if_pos hnat, hif, BitVec.toNat_add]
      rfl
    · have hnat : ¬ lo.toNat < ctx.lo.toNat := hlt
      have hif : hi = ctx.hi := if_neg hlt
      have := ctx.hi.isLt
      rw [if_neg hnat, hif]
      omega
  have hhi' : hi'.toNat = (hi.toNat + n / 2 ^ 29) % 2 ^ 32 := by
    have hw : hi'.toNat = (hi.setWidth 64 + size >>> 29).toNat % 2 ^ 32 := BitVec.toNat_setWidth 32 _
    have := hi.isLt
    rw [BitVec.toNat_add, hwide, BitVec.toNat_ushiftRight, hsize, Nat.shiftRight_eq_div_pow] at hw
    omega
  have := ctx.hi.isLt
  split_ifs at hhi with hlt <;> exact ⟨by omega, by omega⟩

theorem length_rest_append (data : List UInt8) {buffer : List UInt8} (h : buffer.length = 64) :
    (rest 64 data ++ buffer.drop (data.length % 64)).length = 64 := by
  rw [List.length_append, length_rest, List.length_drop, h]
  omega

theorem updateTail_spec (ctx : Ctx) (hlen : ctx.buffer.length = 64) {data : List UInt8} {size : BitVec 64}
    (hs : size.toNat = data.length) : updateTail ctx data size =
      some { ctx with regs := (blocks 64 data).foldl compress ctx.regs
                      buffer := rest 64 data ++ ctx.buffer.drop (data.length % 64) } := by
  have hrest : (rest 64 data).length = data.length % 64 := length_rest
  have hlt : data.length % 64 < 64 := Nat.mod_lt _ (by decide)
  have hcopy : ∀ d : List UInt8, d = rest 64 data →
      memcpy ctx.buffer 0 d = some (rest 64 data ++ ctx.buffer.drop (data.length % 64)) := by
    rintro d rfl
    rw [memcpy_eq (by omega), hrest, List.take_zero, List.nil_append, Nat.zero_add]
  have hge : size ≥ 64 ↔ 64 ≤ data.length := by
    rw [← hs]
    exact BitVec.le_def
  rw [updateTail]
  by_cases h64 : 64 ≤ data.length
  · have hmask : (size &&& ~~~0x3f).toNat = 64 * (data.length / 64) := by rw [toNat_and_not_63, hs]
    have hle : 64 * (data.length / 64) ≤ data.length := Nat.mul_div_le _ _
    have hpos : 1 ≤ data.length / 64 := (Nat.one_le_div_iff (by decide)).mpr h64
    rw [if_pos (hge.mpr h64), body_spec ctx (by omega) (by omega) (by omega), hmask]
    have hblocks : blocks 64 (data.take (64 * (data.length / 64))) = blocks 64 data := by
      have h := blocks_append_of_dvd (l := data.take (64 * (data.length / 64))) (show 0 < 64 by decide)
        (by rw [List.length_take_of_le hle]; exact Nat.dvd_mul_right _ _) (data.drop (64 * (data.length / 64)))
      rw [List.take_append_drop, blocks_of_lt (l := data.drop _) (by rw [List.length_drop]; omega), List.append_nil] at h
      exact h.symm
    have hfin : (size &&& 0x3f).toNat = data.length % 64 := by rw [toNat_and_63, hs]
    simp only [Option.map_some, Option.bind_eq_bind, Option.bind_some, hfin, hblocks]
    rw [hcopy ((data.drop (64 * (data.length / 64))).take (data.length % 64)) (List.take_of_length_le hrest.le)]
    rfl
  · rw [if_neg (fun h => h64 (hge.mp h))]
    have hlt : data.length < 64 := by omega
    simp only [Option.bind_eq_bind, Option.bind_some, hs]
    rw [hcopy _ (by rw [List.take_length, rest_of_lt hlt]), blocks_of_lt hlt]
    rfl

/-- **`MD5_Update`** adds a piece to the message. -/
theorem Holds.update (h : Holds ctx m) {data : List UInt8} (hd : data.length < 2 ^ 64) :
    ∃ ctx', MD5_Update ctx data = some ctx' ∧ Holds ctx' (m ++ data) := by
  have h64 : (64 : BitVec 64).toNat = 64 := rfl
  have hused := h.used
  obtain ⟨hlo, hcount⟩ := h.counters hd
  have hsize : (BitVec.ofNat 64 data.length).toNat = data.length := by rw [BitVec.toNat_ofNat, Nat.mod_eq_of_lt hd]
  have hu : m.length % 64 < 64 := Nat.mod_lt _ (by decide)
  have hr : (rest 64 m).length = m.length % 64 := length_rest
  rw [MD5_Update]
  generalize (((ctx.lo.setWidth 64 + BitVec.ofNat 64 data.length) &&& 0x1fffffff).setWidth 32 : Word) = lo at hlo hcount ⊢
  generalize (((if lo < ctx.lo then ctx.hi + 1 else ctx.hi).setWidth 64 + BitVec.ofNat 64 data.length >>> 29).setWidth 32 :
    Word) = hi at hcount ⊢
  generalize ((ctx.lo &&& 0x3f).setWidth 64 : BitVec 64) = used at hused ⊢
  have hlen : (m ++ data).length = m.length + data.length := List.length_append
  dsimp only
  by_cases h0 : used = 0
  · -- the buffer is empty
    rw [if_neg (not_not.mpr h0)]
    rw [h0] at hused
    have hnil : rest 64 m = [] := List.length_eq_zero_iff.mp (hr.trans hused.symm)
    refine ⟨_, updateTail_spec ⟨lo, hi, ctx.regs, ctx.buffer⟩ h.length hsize,
      ⟨length_rest_append data h.length, ?_, ?_, hlo, by rw [hlen]; exact hcount⟩⟩
    · rw [foldl_blocks_append (by decide), hnil, List.nil_append, ← h.regs]
    · rw [rest_append (by decide), hnil, List.nil_append]
      have hmod : (m ++ data).length % 64 = (rest 64 data).length := by
        rw [hlen, length_rest]
        change 0 = _ at hused
        omega
      rw [hmod, List.take_left]
  · rw [if_pos h0]
    have hfree : (64 - used).toNat = 64 - m.length % 64 := by
      rw [BitVec.toNat_sub, h64, hused]
      omega
    by_cases hlt : data.length < 64 - m.length % 64
    · -- the buffer is not full
      have hlt' : BitVec.ofNat 64 data.length < 64 - used := by
        rw [BitVec.lt_def, hsize, hfree]
        exact hlt
      have hroom : used.toNat + data.length ≤ ctx.buffer.length := by
        rw [hused, h.length]
        omega
      rw [if_pos hlt', memcpy_eq hroom, hused]
      refine ⟨_, rfl, ⟨?_, ?_, ?_, hlo, by rw [hlen]; exact hcount⟩⟩
      · rw [← hused]
        exact (length_memcpy hroom).trans h.length
      · have hshort : (rest 64 m ++ data).length < 64 := by
          rw [List.length_append]
          omega
        rw [foldl_blocks_append (by decide), blocks_of_lt hshort, ← h.regs]
        rfl
      · have hshort : (rest 64 m ++ data).length < 64 := by
          rw [List.length_append]
          omega
        have hmod : (m ++ data).length % 64 = (rest 64 m ++ data).length := by
          rw [hlen, List.length_append]
          omega
        rw [rest_append (by decide), rest_of_lt hshort, h.buffer, hmod, List.take_left]
    · -- the buffer is filled and compressed
      have hlt' : ¬ BitVec.ofNat 64 data.length < 64 - used := by
        rw [BitVec.lt_def, hsize, hfree]
        exact hlt
      rw [if_neg hlt', hfree, hused]
      have hfill : m.length % 64 + (data.take (64 - m.length % 64)).length = ctx.buffer.length := by
        rw [List.length_take_of_le (by omega), h.length]
        omega
      have hfull : (rest 64 m ++ data.take (64 - m.length % 64)).length = 64 := by
        rw [List.length_append, hr, hfill, h.length]
      rw [memcpy_fill hfill, h.buffer]
      simp only [Option.bind_eq_bind, Option.bind_some]
      rw [body_single _ hfull, Option.bind_some]
      have htail : (BitVec.ofNat 64 data.length - (64 - used)).toNat = (data.drop (64 - m.length % 64)).length := by
        rw [BitVec.toNat_sub, hsize, hfree, List.length_drop]
        omega
      have hsplit : rest 64 m ++ data =
          (rest 64 m ++ data.take (64 - m.length % 64)) ++ data.drop (64 - m.length % 64) := by
        rw [List.append_assoc, List.take_append_drop]
      refine ⟨_, updateTail_spec _ hfull htail, ⟨length_rest_append _ hfull, ?_, ?_, hlo, by rw [hlen]; exact hcount⟩⟩
      · rw [foldl_blocks_append (by decide), hsplit, blocks_append_of_dvd (by decide) (by rw [hfull]),
          blocks_single (by decide) hfull, ← h.regs]
        rfl
      · have hmod : (m ++ data).length % 64 = (rest 64 (data.drop (64 - m.length % 64))).length := by
          rw [hlen, length_rest, List.length_drop]
          omega
        rw [rest_append (by decide), hsplit, rest_append_of_dvd (by decide) (by rw [hfull]), hmod, List.take_left]

/-! ## The digest -/

theorem memcpy_append {p q d : List UInt8} {off : ℕ} (hoff : off = p.length) (h : d.length ≤ q.length) :
    memcpy (p ++ q) off d = some (p ++ d ++ q.drop d.length) := by
  rw [hoff, memcpy_eq (by rw [List.length_append]; omega), List.take_left, List.drop_length_add_append]

theorem bytes_eq_toLe (x : Word) : bytes x = toLe 4 x.toNat := by
  have hbyte : ∀ k, (⟨(x >>> k).setWidth 8⟩ : UInt8) = UInt8.ofNat (x.toNat / 2 ^ k) := by
    intro k
    apply UInt8.toNat.inj
    rw [UInt8.toNat_ofNat', ← Nat.shiftRight_eq_div_pow, ← BitVec.toNat_ushiftRight, ← BitVec.toNat_setWidth]
    rfl
  have hzero : (⟨x.setWidth 8⟩ : UInt8) = UInt8.ofNat x.toNat := by
    have h := hbyte 0
    rwa [BitVec.ushiftRight_zero, Nat.pow_zero, Nat.div_one] at h
  rw [bytes, hzero, hbyte, hbyte, hbyte]
  simp only [toLe, Nat.div_div_eq_div_mul]
  rfl

theorem Holds.bits (h : Holds ctx m) : bytes (ctx.lo <<< 3) ++ bytes ctx.hi = toLe 8 (8 * m.length) := by
  have hlo := h.lo
  have hcount := h.count
  have hhi := ctx.hi.isLt
  have hshift : (ctx.lo <<< 3).toNat = 8 * ctx.lo.toNat := by
    rw [BitVec.toNat_shiftLeft, Nat.shiftLeft_eq]
    omega
  have hlow : toLe 4 (8 * m.length) = toLe 4 (8 * ctx.lo.toNat) := by
    rw [← toLe_mod 4 (8 * m.length), ← toLe_mod 4 (8 * ctx.lo.toNat)]
    congr 1
    omega
  have hhigh : toLe 4 (8 * m.length / 256 ^ 4) = toLe 4 ctx.hi.toNat := by
    rw [← toLe_mod 4 (8 * m.length / 256 ^ 4), ← toLe_mod 4 ctx.hi.toNat]
    congr 1
    omega
  rw [bytes_eq_toLe, bytes_eq_toLe, hshift, toLe_add 4 4, hlow, hhigh]

theorem finalTail_spec (ctx : Ctx) {p q e : List UInt8} (hbuf : ctx.buffer = p ++ q) (hp : p.length ≤ 56)
    (hq : p.length + q.length = 64) (he : bytes (ctx.lo <<< 3) ++ bytes ctx.hi = e) (used free : BitVec 64)
    (hused : used.toNat = p.length) (hfree : free.toNat = 64 - p.length) :
    (p ++ List.replicate (56 - p.length) 0 ++ e).length = 64 ∧
      finalTail ctx used free = some (output (compress ctx.regs (p ++ List.replicate (56 - p.length) 0 ++ e))) := by
  have h8 : (8 : BitVec 64).toNat = 8 := rfl
  have hzeros : (free - 8).toNat = 56 - p.length := by
    rw [BitVec.toNat_sub, h8, hfree]
    omega
  have hz : (List.replicate (56 - p.length) (0 : UInt8)).length = 56 - p.length := List.length_replicate
  have h56 : (p ++ List.replicate (56 - p.length) 0).length = 56 := by
    rw [List.length_append, hz]
    omega
  have hlen : e.length = 8 := by
    rw [← he]
    rfl
  have hold : (q.drop (56 - p.length)).length = 8 := by
    rw [List.length_drop]
    omega
  have hfull : (p ++ List.replicate (56 - p.length) 0 ++ e).length = 64 := by rw [List.length_append, h56, hlen]
  refine ⟨hfull, ?_⟩
  rw [finalTail, hbuf, hused, hzeros, memcpy_append rfl (by omega), hz, Option.bind_eq_bind, Option.bind_some]
  simp only [Option.bind_eq_bind, he]
  rw [memcpy_append h56.symm (by omega), hlen, ← hold, List.drop_length, List.append_nil, Option.bind_some,
    body_single _ hfull, Option.bind_some]
  simp only [bytes_eq_toLe]
  rfl

theorem foldl_pad (h : Holds ctx m) : (blocks 64 (pad m)).foldl compress initRegs =
    (blocks 64 (rest 64 m ++ [0x80] ++ List.replicate ((119 - m.length % 64) % 64) 0 ++ toLe 8 (8 * m.length))).foldl
      compress ctx.regs := by
  have hpad : pad m = m ++ ([0x80] ++ List.replicate ((119 - m.length % 64) % 64) 0 ++ toLe 8 (8 * m.length)) := by
    simp only [pad, List.cons_append, List.nil_append]
  rw [hpad, foldl_blocks_append (by decide), ← h.regs, List.append_assoc, List.append_assoc, List.append_assoc]

/-- **`MD5_Final`** gives the digest of the message. -/
theorem Holds.final (h : Holds ctx m) : MD5_Final ctx = some (digest m) := by
  have h64 : (64 : BitVec 64).toNat = 64 := rfl
  have h8 : (8 : BitVec 64).toNat = 8 := rfl
  have h1 : (1 : BitVec 64).toNat = 1 := rfl
  have hused := h.used
  have hu : m.length % 64 < 64 := Nat.mod_lt _ (by decide)
  have hr : (rest 64 m).length = m.length % 64 := length_rest
  have hmarked : (rest 64 m ++ [(0x80 : UInt8)]).length = m.length % 64 + 1 := by rw [List.length_append, hr]; rfl
  -- the buffer as the rest of the message and old bytes
  have hbuffer : ctx.buffer = rest 64 m ++ ctx.buffer.drop (m.length % 64) := by
    rw [← h.buffer, List.take_append_drop]
  have hold : (ctx.buffer.drop (m.length % 64)).length = 64 - m.length % 64 := by rw [List.length_drop, h.length]
  generalize ctx.buffer.drop (m.length % 64) = old at hbuffer hold
  have hold' : (old.drop 1).length = 63 - m.length % 64 := by
    rw [List.length_drop, hold]
    omega
  have hmark : memcpy ctx.buffer (m.length % 64) [0x80] = some (rest 64 m ++ [0x80] ++ old.drop 1) := by
    rw [hbuffer]
    exact memcpy_append hr.symm (by rw [hold, List.length_singleton]; omega)
  rw [MD5_Final]
  generalize ((ctx.lo &&& 0x3f).setWidth 64 : BitVec 64) = used at hused
  have hused' : (used + 1).toNat = m.length % 64 + 1 := by
    rw [BitVec.toNat_add, h1, hused]
    omega
  have hfree : (64 - (used + 1)).toNat = 63 - m.length % 64 := by
    rw [BitVec.toNat_sub, h64, hused']
    omega
  simp only [hused, hmark, Option.bind_eq_bind, Option.bind_some, hused']
  by_cases hlt : 63 - m.length % 64 < 8
  · -- the length does not fit into this block
    have hlt' : 64 - (used + 1) < 8 := by
      rw [BitVec.lt_def, hfree, h8]
      exact hlt
    have hzeros : memcpy (rest 64 m ++ [0x80] ++ old.drop 1) (m.length % 64 + 1) (List.replicate (63 - m.length % 64) 0) =
        some (rest 64 m ++ [0x80] ++ List.replicate (63 - m.length % 64) 0) := by
      rw [memcpy_append hmarked.symm (by rw [List.length_replicate, hold']), List.length_replicate, ← hold',
        List.drop_length, List.append_nil]
    have hfull : (rest 64 m ++ [0x80] ++ List.replicate (63 - m.length % 64) 0).length = 64 := by
      rw [List.length_append, hmarked, List.length_replicate]
      omega
    have hpad : (119 - m.length % 64) % 64 = (63 - m.length % 64) + 56 := by omega
    rw [if_pos hlt', hfree, hzeros, Option.bind_some, body_single _ hfull, Option.bind_some]
    generalize hfirst : rest 64 m ++ [0x80] ++ List.replicate (63 - m.length % 64) 0 = first at hfull ⊢
    obtain ⟨hlen, he⟩ := finalTail_spec { ctx with regs := compress ctx.regs first, buffer := first } (p := []) (q := first)
      rfl (Nat.zero_le 56) (by rw [hfull]; rfl) h.bits 0 64 rfl rfl
    have hsplit : rest 64 m ++ [0x80] ++ List.replicate (63 - m.length % 64 + 56) 0 ++ toLe 8 (8 * m.length) =
        first ++ ([] ++ List.replicate (56 - ([] : List UInt8).length) 0 ++ toLe 8 (8 * m.length)) := by
      rw [← hfirst, List.replicate_add]
      simp only [List.append_assoc, List.nil_append, List.length_nil, Nat.sub_zero]
    rw [he, digest, foldl_pad h, hpad, hsplit, blocks_append_of_dvd (by decide) (by rw [hfull]),
      blocks_single (by decide) hfull, blocks_single (by decide) hlen]
    rfl
  · -- the length fits
    have hlt' : ¬ 64 - (used + 1) < 8 := by
      rw [BitVec.lt_def, hfree, h8]
      exact hlt
    have hpad : (119 - m.length % 64) % 64 = 56 - (rest 64 m ++ [(0x80 : UInt8)]).length := by omega
    obtain ⟨hlen, he⟩ := finalTail_spec { ctx with buffer := rest 64 m ++ [0x80] ++ old.drop 1 } rfl (by omega)
      (by rw [hmarked, hold']; omega) h.bits (used + 1) (64 - (used + 1)) (by rw [hused', hmarked])
      (by rw [hfree, hmarked]; omega)
    rw [if_neg hlt', he, digest, foldl_pad h, hpad, blocks_single (by decide) hlen]
    rfl

/-! ## Messages in pieces -/

/-- The calls of `MD5_Update` for the pieces of a message. -/
def updates : Ctx → List (List UInt8) → Option Ctx
  | ctx, [] => some ctx
  | ctx, data :: l => (MD5_Update ctx data).bind fun ctx => updates ctx l

theorem Holds.updates (h : Holds ctx m) {l : List (List UInt8)} (hl : ∀ data ∈ l, data.length < 2 ^ 64) :
    ∃ ctx', updates ctx l = some ctx' ∧ Holds ctx' (m ++ l.flatten) := by
  induction l generalizing ctx m with
  | nil => exact ⟨ctx, rfl, by rwa [List.flatten_nil, List.append_nil]⟩
  | cons data l ih =>
    obtain ⟨ctx₁, he, h₁⟩ := h.update (hl data List.mem_cons_self)
    obtain ⟨ctx₂, he', h₂⟩ := ih h₁ fun d hd => hl d (List.mem_cons_of_mem data hd)
    refine ⟨ctx₂, by rw [Md5.updates, he, Option.bind_some, he'], ?_⟩
    rwa [List.flatten_cons, ← List.append_assoc]

/-- **The digest of a message in pieces**: however it is cut, `MD5_Update` for every piece and `MD5_Final` stay in their
arrays and give the digest of the message. -/
theorem md5_pieces {buffer : List UInt8} (hb : buffer.length = 64) {l : List (List UInt8)}
    (hl : ∀ data ∈ l, data.length < 2 ^ 64) : (updates (MD5_Init buffer) l).bind MD5_Final = some (digest l.flatten) := by
  obtain ⟨ctx, he, h⟩ := (holds_init hb).updates hl
  rw [he, Option.bind_some, h.final, List.nil_append]

/-- `abc` in two pieces. -/
theorem md5_pieces_abc : (updates (MD5_Init (List.replicate 64 0)) [[0x61], [0x62, 0x63]]).bind MD5_Final =
    some (digest [0x61, 0x62, 0x63]) :=
  md5_pieces (l := [[0x61], [0x62, 0x63]]) (by decide) (by decide)

/-- **`md5bin`** gives the digest. -/
theorem md5bin_eq_digest {buffer : List UInt8} (hb : buffer.length = 64) {data : List UInt8} (hd : data.length < 2 ^ 64) :
    md5bin buffer data = some (digest data) := by
  obtain ⟨ctx, he, h⟩ := (holds_init hb).update hd
  rw [md5bin, he]
  exact h.final

example : md5bin (List.replicate 64 0) [0x61, 0x62, 0x63] = some [0x90, 0x01, 0x50, 0x98, 0x3c, 0xd2, 0x4f, 0xb0,
    0xd6, 0x96, 0x3f, 0x7d, 0x28, 0xe1, 0x7f, 0x72] := by decide +kernel

end Backend.Md5
