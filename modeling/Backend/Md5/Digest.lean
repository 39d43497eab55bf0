import Backend.Md5.Stream

/-!
# What the digest is good for

* `not_suffix_pad`: the padding tells the messages apart;
* **`md5bin_collision`**: two messages with one digest have two inputs of `body` that collide, among the states and blocks
  of the two runs;
* `unhex`, `unhex_hex`: what `md5sum` writes can be read back; **`md5sum_spec`**: `md5sum` and `md5sum6`.
-/

set_option autoImplicit false

namespace Backend.Md5

open Spec

/-! ## Collisions -/

theorem length_pad (m : List UInt8) : (pad m).length = m.length + (119 - m.length % 64) % 64 + 9 := by
  rw [pad, List.length_append, List.length_cons, List.length_append, List.length_replicate, length_toLe]
  omega

theorem dvd_length_pad (m : List UInt8) : 64 ∣ (pad m).length := by
  rw [length_pad]
  omega

theorem suffix_pad (m : List UInt8) : toLe 8 (8 * m.length) <:+ pad m :=
  ⟨m ++ 0x80 :: List.replicate ((119 - m.length % 64) % 64) 0, by rw [pad, List.append_assoc, List.cons_append]⟩

variable {x y : List UInt8}

theorem length_eq_of_toLe (hx : x.length < 2 ^ 61) (hy : y.length < 2 ^ 61)
    (h : toLe 8 (8 * x.length) = toLe 8 (8 * y.length)) : x.length = y.length := by
  have hof := congrArg ofLe h
  rw [ofLe_toLe, ofLe_toLe] at hof
  omega

theorem length_eq_of_suffix (hx : x.length < 2 ^ 61) (hy : y.length < 2 ^ 61) (h : pad x <:+ pad y) :
    x.length = y.length := by
  apply length_eq_of_toLe hx hy
  have hsuf : toLe 8 (8 * x.length) <:+ toLe 8 (8 * y.length) :=
    List.suffix_of_suffix_length_le ((suffix_pad x).trans h) (suffix_pad y) (by rw [length_toLe, length_toLe])
  exact hsuf.eq_of_length (by rw [length_toLe, length_toLe])

/-- **No padded message is the end of another one.** -/
theorem not_suffix_pad (hx : x.length < 2 ^ 61) (hy : y.length < 2 ^ 61) (hne : x ≠ y) : ¬ pad x <:+ pad y := by
  intro h
  have hlen := length_eq_of_suffix hx hy h
  have heq : pad x = pad y := h.eq_of_length (by rw [length_pad, length_pad, hlen])
  rw [pad, pad] at heq
  exact hne (List.append_inj_left heq hlen)

theorem not_suffix_blocks (hx : x.length < 2 ^ 61) (hy : y.length < 2 ^ 61) (hne : x ≠ y) :
    ¬ blocks 64 (pad x) <:+ blocks 64 (pad y) := by
  rintro ⟨t, ht⟩
  apply not_suffix_pad hx hy hne
  have hflat := congrArg List.flatten ht
  rw [List.flatten_append, flatten_blocks (by decide) (dvd_length_pad x), flatten_blocks (by decide) (dvd_length_pad y)]
    at hflat
  exact ⟨t.flatten, hflat⟩

theorem toLe_inj {k a b : ℕ} (ha : a < 256 ^ k) (hb : b < 256 ^ k) (h : toLe k a = toLe k b) : a = b := by
  have hof := congrArg ofLe h
  rwa [ofLe_toLe, ofLe_toLe, Nat.mod_eq_of_lt ha, Nat.mod_eq_of_lt hb] at hof

theorem output_inj {r s : Regs} (h : output r = output s) : r = s := by
  have hword : ∀ v w : Word, toLe 4 v.toNat = toLe 4 w.toNat → v = w := fun v w hvw =>
    BitVec.eq_of_toNat_eq (toLe_inj v.isLt w.isLt hvw)
  have hlen : ∀ v w : Word, (toLe 4 v.toNat).length = (toLe 4 w.toNat).length := fun v w => by
    rw [length_toLe, length_toLe]
  rw [output, output, List.append_assoc, List.append_assoc, List.append_assoc, List.append_assoc] at h
  obtain ⟨ha, h⟩ := List.append_inj h (hlen _ _)
  obtain ⟨hb, h⟩ := List.append_inj h (hlen _ _)
  obtain ⟨hc, hd⟩ := List.append_inj h (hlen _ _)
  exact Regs.ext (hword _ _ ha) (hword _ _ hb) (hword _ _ hc) (hword _ _ hd)

theorem foldl_compress_eq {l : List UInt8} {r : Regs} :
    (blocks 64 l).foldl compress r = (blocks 64 l).foldl transform r :=
  List.foldl_ext _ _ _ fun s _ hb => (transform_eq_compress (length_of_mem_blocks hb) s).symm

/-- **Two messages with one digest**: among the states and blocks that `body` has in the two computations there are two
different ones that it takes to the same state. -/
theorem md5bin_collision {bufx bufy : List UInt8} (hbx : bufx.length = 64) (hby : bufy.length = 64)
    (hx : x.length < 2 ^ 61) (hy : y.length < 2 ^ 61) (hne : x ≠ y) (h : md5bin bufx x = md5bin bufy y) :
    ∃ X₁ b X₂ Y₁ c Y₂, blocks 64 (pad x) = X₁ ++ b :: X₂ ∧ blocks 64 (pad y) = Y₁ ++ c :: Y₂ ∧
      (X₁.foldl transform initRegs, b) ≠ (Y₁.foldl transform initRegs, c) ∧
      transform (X₁.foldl transform initRegs) b = transform (Y₁.foldl transform initRegs) c := by
  rw [md5bin_eq_digest hbx (by omega), md5bin_eq_digest hby (by omega), Option.some.injEq, digest, digest] at h
  have hregs := output_inj h
  rw [foldl_compress_eq, foldl_compress_eq] at hregs
  exact exists_collision hregs (not_suffix_blocks hx hy hne) (not_suffix_blocks hy hx hne.symm)

/-- A message of two blocks. -/
def first : List UInt8 := [
  0xd1, 0x31, 0xdd, 0x02, 0xc5, 0xe6, 0xee, 0xc4, 0x69, 0x3d, 0x9a, 0x06, 0x98, 0xaf, 0xf9, 0x5c,
  0x2f, 0xca, 0xb5, 0x87, 0x12, 0x46, 0x7e, 0xab, 0x40, 0x04, 0x58, 0x3e, 0xb8, 0xfb, 0x7f, 0x89,
  0x55, 0xad, 0x34, 0x06, 0x09, 0xf4, 0xb3, 0x02, 0x83, 0xe4, 0x88, 0x83, 0x25, 0x71, 0x41, 0x5a,
  0x08, 0x51, 0x25, 0xe8, 0xf7, 0xcd, 0xc9, 0x9f, 0xd9, 0x1d, 0xbd, 0xf2, 0x80, 0x37, 0x3c, 0x5b,
  0xd8, 0x82, 0x3e, 0x31, 0x56, 0x34, 0x8f, 0x5b, 0xae, 0x6d, 0xac, 0xd4, 0x36, 0xc9, 0x19, 0xc6,
  0xdd, 0x53, 0xe2, 0xb4, 0x87, 0xda, 0x03, 0xfd, 0x02, 0x39, 0x63, 0x06, 0xd2, 0x48, 0xcd, 0xa0,
  0xe9, 0x9f, 0x33, 0x42, 0x0f, 0x57, 0x7e, 0xe8, 0xce, 0x54, 0xb6, 0x70, 0x80, 0xa8, 0x0d, 0x1e,
  0xc6, 0x98, 0x21, 0xbc, 0xb6, 0xa8, 0x83, 0x93, 0x96, 0xf9, 0x65, 0x2b, 0x6f, 0xf7, 0x2a, 0x70]

/-- A message with the digest of `first`. -/
def second : List UInt8 := [
  0xd1, 0x31, 0xdd, 0x02, 0xc5, 0xe6, 0xee, 0xc4, 0x69, 0x3d, 0x9a, 0x06, 0x98, 0xaf, 0xf9, 0x5c,
  0x2f, 0xca, 0xb5, 0x07, 0x12, 0x46, 0x7e, 0xab, 0x40, 0x04, 0x58, 0x3e, 0xb8, 0xfb, 0x7f, 0x89,
  0x55, 0xad, 0x34, 0x06, 0x09, 0xf4, 0xb3, 0x02, 0x83, 0xe4, 0x88, 0x83, 0x25, 0xf1, 0x41, 0x5a,
  0x08, 0x51, 0x25, 0xe8, 0xf7, 0xcd, 0xc9, 0x9f, 0xd9, 0x1d, 0xbd, 0x72, 0x80, 0x37, 0x3c, 0x5b,
  0xd8, 0x82, 0x3e, 0x31, 0x56, 0x34, 0x8f, 0x5b, 0xae, 0x6d, 0xac, 0xd4, 0x36, 0xc9, 0x19, 0xc6,
  0xdd, 0x53, 0xe2, 0x34, 0x87, 0xda, 0x03, 0xfd, 0x02, 0x39, 0x63, 0x06, 0xd2, 0x48, 0xcd, 0xa0,
  0xe9, 0x9f, 0x33, 0x42, 0x0f, 0x57, 0x7e, 0xe8, 0xce, 0x54, 0xb6, 0x70, 0x80, 0x28, 0x0d, 0x1e,
  0xc6, 0x98, 0x21, 0xbc, 0xb6, 0xa8, 0x83, 0x93, 0x96, 0xf9, 0x65, 0xab, 0x6f, 0xf7, 0x2a, 0x70]

theorem md5bin_first : md5bin (List.replicate 64 0) first = md5bin (List.replicate 64 0) second := by decide +kernel

theorem md5bin_collision_first : ∃ X₁ b X₂ Y₁ c Y₂, blocks 64 (pad first) = X₁ ++ b :: X₂ ∧
    blocks 64 (pad second) = Y₁ ++ c :: Y₂ ∧
    (X₁.foldl transform initRegs, b) ≠ (Y₁.foldl transform initRegs, c) ∧
    transform (X₁.foldl transform initRegs) b = transform (Y₁.foldl transform initRegs) c :=
  md5bin_collision (List.length_replicate) (List.length_replicate) (by decide +kernel) (by decide +kernel)
    (by decide +kernel) md5bin_first

/-! ## Digits -/

/-- The value of a digit. -/
def hexValue (c : Char) : Option ℕ := "0123456789abcdef".toList.idxOf? c

/-- Bytes from their digits. -/
def unhex : List Char → Option (List UInt8)
  | [] => some []
  | [_] => none
  | c :: d :: l => do
    let high ← hexValue c
    let low ← hexValue d
    let l ← unhex l
    some (UInt8.ofNat (16 * high + low) :: l)

theorem hexValue_hb2hex (x : UInt8) : hexValue (hb2hex x) = some (x.toNat % 16) := by
  have hand : (x &&& 0xF).toNat = x.toNat % 16 := Nat.and_two_pow_sub_one_eq_mod x.toNat 4
  have hlt : x.toNat % 16 < 16 := Nat.mod_lt _ (by decide)
  have heq : x &&& 0xF = UInt8.ofNat (x.toNat % 16) := by
    rw [← hand, UInt8.ofNat_toNat]
  rw [hb2hex, heq]
  generalize x.toNat % 16 = k at hlt
  interval_cases k <;> rfl

theorem unhex_hex (l : List UInt8) : unhex (hex l) = some l := by
  induction l with
  | nil => rfl
  | cons x l ih =>
    have hhigh : (x >>> 4).toNat % 16 = x.toNat / 16 := by
      have hshift : (x >>> 4).toNat = x.toNat / 16 := Nat.shiftRight_eq_div_pow x.toNat 4
      have := x.toNat_lt
      omega
    have hbyte : UInt8.ofNat (16 * (x.toNat / 16) + x.toNat % 16) = x := by
      rw [Nat.div_add_mod, UInt8.ofNat_toNat]
    change unhex (hb2hex (x >>> 4) :: hb2hex x :: hex l) = _
    rw [unhex, hexValue_hb2hex, hexValue_hb2hex, ih, hhigh]
    simp only [Option.bind_eq_bind, Option.bind_some, hbyte]

theorem length_hex (l : List UInt8) : (hex l).length = 2 * l.length := by
  induction l with
  | nil => rfl
  | cons x l ih =>
    change (hb2hex (x >>> 4) :: hb2hex x :: hex l).length = _
    rw [List.length_cons, List.length_cons, List.length_cons, ih]
    omega

theorem length_digest (m : List UInt8) : (digest m).length = 16 := by
  rw [digest, output, List.length_append, List.length_append, List.length_append, length_toLe, length_toLe, length_toLe,
    length_toLe]

theorem mapM_tbl (l : List UInt8) : ∃ t, (l.mapM fun x => tbl[x.toNat % 62]?) = some t ∧ t.length = l.length ∧
    ∀ c ∈ t, c ∈ tbl := by
  induction l with
  | nil => exact ⟨[], rfl, rfl, fun c hc => absurd hc List.not_mem_nil⟩
  | cons x l ih =>
    obtain ⟨t, ht, hlen, hmem⟩ := ih
    have hlt : x.toNat % 62 < tbl.length := Nat.mod_lt _ (by decide)
    refine ⟨tbl[x.toNat % 62] :: t, ?_, by rw [List.length_cons, hlen, List.length_cons], ?_⟩
    · rw [List.mapM_cons, List.getElem?_eq_getElem hlt, ht]
      rfl
    · intro c hc
      rcases List.mem_cons.mp hc with rfl | hc
      · exact List.getElem_mem hlt
      · exact hmem c hc

/-- **`md5sum`** writes 32 digits from which the digest can be read back, and **`md5sum6`** six characters of its table. -/
theorem md5sum_spec {buffer : List UInt8} (hb : buffer.length = 64) {data : List UInt8} (hd : data.length < 2 ^ 64) :
    (∃ s, md5sum buffer data = some s ∧ s.length = 32 ∧ unhex s = md5bin buffer data) ∧
      ∃ t, md5sum6 buffer data = some t ∧ t.length = 6 ∧ ∀ c ∈ t, c ∈ tbl := by
  have hbin := md5bin_eq_digest hb hd
  constructor
  · refine ⟨hex (digest data), by rw [md5sum, hbin]; rfl, ?_, by rw [unhex_hex, hbin]⟩
    rw [length_hex, length_digest]
  · obtain ⟨t, ht, hlen, hmem⟩ := mapM_tbl ((digest data).take 6)
    refine ⟨t, ?_, ?_, hmem⟩
    · rw [md5sum6, hbin]
      exact ht
    · rw [hlen, List.length_take_of_le (by rw [length_digest]; decide)]

theorem md5sum_spec_abc : (∃ s, md5sum (List.replicate 64 0) [0x61, 0x62, 0x63] = some s ∧ s.length = 32 ∧
    unhex s = md5bin (List.replicate 64 0) [0x61, 0x62, 0x63]) ∧
    ∃ t, md5sum6 (List.replicate 64 0) [0x61, 0x62, 0x63] = some t ∧ t.length = 6 ∧ ∀ c ∈ t, c ∈ tbl :=
  md5sum_spec (by decide) (by decide)

end Backend.Md5
