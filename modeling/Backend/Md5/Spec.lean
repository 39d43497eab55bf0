import Mathlib.Tactic.IntervalCases
import Mathlib.Algebra.Order.Group.Nat
import Backend.Lib.Blocks
import Backend.Md5.Model

/-!
# The message digest

MD5 as its definition has it: sixty-four equal steps with tables, a message that is padded to whole blocks, and numbers
with the lowest byte first. `body` has its steps written out, with the variables in turn and other forms of `F` and `G`.

* `toLe`, `ofLe`: the bytes of a number;
* `Spec.step`, `Spec.compress`, `Spec.pad`, `Spec.digest`: the definition;
* `lines_eq`, `view_exec`: a line of `body` is a step of the definition;
* **`transform_eq_compress`**: so is a round of its loop; **`transformBlock_eq`**: with the other `SET` and `GET` too.
-/

set_option autoImplicit false

namespace Backend.Md5

/-! ## Bytes of numbers -/

/-- The lowest `k` bytes of a number, the lowest one first. -/
def toLe : ℕ → ℕ → List UInt8
  | 0, _ => []
  | k + 1, x => UInt8.ofNat x :: toLe k (x / 256)

/-- The number of the bytes, the lowest one first. -/
def ofLe (l : List UInt8) : ℕ := l.foldr (fun b x => b.toNat + 256 * x) 0

theorem length_toLe (k x : ℕ) : (toLe k x).length = k := by
  induction k generalizing x with
  | zero => rfl
  | succ k ih => rw [toLe, List.length_cons, ih]

theorem toLe_add (j k x : ℕ) : toLe (j + k) x = toLe j x ++ toLe k (x / 256 ^ j) := by
  induction j generalizing x with
  | zero => rw [Nat.zero_add, Nat.pow_zero, Nat.div_one, toLe, List.nil_append]
  | succ j ih =>
    rw [Nat.succ_add, toLe, toLe, ih, List.cons_append, Nat.div_div_eq_div_mul, Nat.pow_succ, Nat.mul_comm 256]

theorem toLe_mod (k x : ℕ) : toLe k (x % 256 ^ k) = toLe k x := by
  induction k generalizing x with
  | zero => rfl
  | succ k ih =>
    have hbyte : UInt8.ofNat (x % 256 ^ (k + 1)) = UInt8.ofNat x := by
      apply UInt8.toNat.inj
      rw [UInt8.toNat_ofNat', UInt8.toNat_ofNat', Nat.mod_mod_of_dvd]
      exact Dvd.intro_left (256 ^ k) rfl
    rw [toLe, toLe, hbyte, Nat.pow_succ', Nat.mod_mul_right_div_self, ih]

theorem ofLe_toLe (k x : ℕ) : ofLe (toLe k x) = x % 256 ^ k := by
  induction k generalizing x with
  | zero => rw [Nat.pow_zero, Nat.mod_one]; rfl
  | succ k ih =>
    have hbyte : (UInt8.ofNat x).toNat = x % 256 := UInt8.toNat_ofNat'
    rw [toLe, ofLe, List.foldr_cons, hbyte, Nat.pow_succ', Nat.mod_mul, ← ih (x / 256)]
    rfl

namespace Spec

/-! ## The definition -/

/-- The function of the step `i`. -/
def fn (i : ℕ) (x y z : Word) : Word :=
  match i / 16 with
  | 0 => (x &&& y) ||| (~~~x &&& z)
  | 1 => (x &&& z) ||| (y &&& ~~~z)
  | 2 => x ^^^ y ^^^ z
  | _ => y ^^^ (x ||| ~~~z)

/-- The word that the step `i` uses. -/
def idx (i : ℕ) : ℕ :=
  match i / 16 with
  | 0 => i
  | 1 => (5 * i + 1) % 16
  | 2 => (3 * i + 5) % 16
  | _ => 7 * i % 16

/-- By how much the step `i` rotates. -/
def shift (i : ℕ) : ℕ :=
  (([[7, 12, 17, 22], [5, 9, 14, 20], [4, 11, 16, 23], [6, 10, 15, 21]] : List (List ℕ)).getD (i / 16) []).getD (i % 4) 0

/-- The additive constants: the whole part of `2 ^ 32 * |sin (i + 1)|`. -/
def T : List Word := [
  0xd76aa478, 0xe8c7b756, 0x242070db, 0xc1bdceee, 0xf57c0faf, 0x4787c62a, 0xa8304613, 0xfd469501,
  0x698098d8, 0x8b44f7af, 0xffff5bb1, 0x895cd7be, 0x6b901122, 0xfd987193, 0xa679438e, 0x49b40821,
  0xf61e2562, 0xc040b340, 0x265e5a51, 0xe9b6c7aa, 0xd62f105d, 0x02441453, 0xd8a1e681, 0xe7d3fbc8,
  0x21e1cde6, 0xc33707d6, 0xf4d50d87, 0x455a14ed, 0xa9e3e905, 0xfcefa3f8, 0x676f02d9, 0x8d2a4c8a,
  0xfffa3942, 0x8771f681, 0x6d9d6122, 0xfde5380c, 0xa4beea44, 0x4bdecfa9, 0xf6bb4b60, 0xbebfbc70,
  0x289b7ec6, 0xeaa127fa, 0xd4ef3085, 0x04881d05, 0xd9d4d039, 0xe6db99e5, 0x1fa27cf8, 0xc4ac5665,
  0xf4292244, 0x432aff97, 0xab9423a7, 0xfc93a039, 0x655b59c3, 0x8f0ccc92, 0xffeff47d, 0x85845dd1,
  0x6fa87e4f, 0xfe2ce6e0, 0xa3014314, 0x4e0811a1, 0xf7537e82, 0xbd3af235, 0x2ad7d2bb, 0xeb86d391]

/-- The step `i` on the words `M` of a block. -/
def step (M : ℕ → Word) (r : Regs) (i : ℕ) : Regs where
  a := r.d
  b := r.b + (r.a + fn i r.b r.c r.d + M (idx i) + T.getD i 0).rotateLeft (shift i)
  c := r.b
  d := r.c

/-- The words of a block. -/
def words (block : List UInt8) (n : ℕ) : Word := BitVec.ofNat 32 (ofLe ((block.drop (n * 4)).take 4))

/-- The compression of a block. -/
def compress (r : Regs) (block : List UInt8) : Regs := ((List.range 64).foldl (step (words block)) r).add r

/-- The padding of a message: a bit `1`, as few bits `0` as possible, and the number of its bits. -/
def pad (m : List UInt8) : List UInt8 :=
  m ++ 0x80 :: (List.replicate ((119 - m.length % 64) % 64) 0 ++ toLe 8 (8 * m.length))

/-- The bytes of the four words. -/
def output (r : Regs) : List UInt8 := toLe 4 r.a.toNat ++ toLe 4 r.b.toNat ++ toLe 4 r.c.toNat ++ toLe 4 r.d.toNat

/-- The digest of a message. -/
def digest (m : List UInt8) : List UInt8 := output ((blocks 64 (pad m)).foldl compress initRegs)

end Spec

/-! ## One line -/

open Spec

theorem F_eq (x y z : Word) : Fn.F.apply x y z = (x &&& y) ||| (~~~x &&& z) := by
  ext i hi
  simp only [Fn.apply, BitVec.getElem_xor, BitVec.getElem_and, BitVec.getElem_or, BitVec.getElem_not]
  cases x[i] <;> cases y[i] <;> cases z[i] <;> rfl

theorem G_eq (x y z : Word) : Fn.G.apply x y z = (x &&& z) ||| (y &&& ~~~z) := by
  ext i hi
  simp only [Fn.apply, BitVec.getElem_xor, BitVec.getElem_and, BitVec.getElem_or, BitVec.getElem_not]
  cases x[i] <;> cases y[i] <;> cases z[i] <;> rfl

theorem STEP_eq (f : Fn) (a b c d x t : Word) {s : ℕ} (hs : s < 32) :
    STEP f a b c d x t s = b + (a + f.apply b c d + x + t).rotateLeft s := by
  have hand : ∀ w : Word, w &&& 0xffffffff = w := fun w => BitVec.and_allOnes
  rw [STEP, hand, BitVec.add_comm _ b, BitVec.rotateLeft_def, Nat.mod_eq_of_lt hs]
  simp only [BitVec.add_assoc]

/-- The variable that stands for the `k`-th one in the step `i`. -/
def reg (i k : ℕ) : Reg := [Reg.a, .b, .c, .d].getD ((64 - i + k) % 4) .a

/-- The name of the function of the step `i`. -/
def fnOf (i : ℕ) : Fn := [Fn.F, .G, .H, .I].getD (i / 16) .I

/-- The step `i` as a line. -/
def line (i : ℕ) : Line :=
  ⟨fnOf i, reg i 0, reg i 1, reg i 2, reg i 3, idx i, T.getD i 0, shift i⟩

theorem lines_eq : lines = (List.range 64).map line := by rfl

/-- The variables in the order in which the step `i` uses them. -/
def view (i : ℕ) (r : Regs) : Regs := ⟨r.get (reg i 0), r.get (reg i 1), r.get (reg i 2), r.get (reg i 3)⟩

theorem fnOf_apply {i : ℕ} (hi : i < 64) (x y z : Word) : (fnOf i).apply x y z = fn i x y z := by
  have hq : i / 16 < 4 := Nat.div_lt_of_lt_mul hi
  rw [fnOf, fn]
  generalize i / 16 = q at hq
  interval_cases q
  · exact F_eq x y z
  · exact G_eq x y z
  · rfl
  · rfl

theorem shift_lt (i : ℕ) : shift i < 32 := by
  have hr : i % 4 < 4 := Nat.mod_lt i (by decide)
  rw [shift]
  generalize i % 4 = r at hr
  match i / 16 with
  | 0 | 1 | 2 | 3 => interval_cases r <;> decide
  | q + 4 => simp

/-- **A line of `body` is a step.** -/
theorem view_exec {i : ℕ} (hi : i < 64) (M : ℕ → Word) (r : Regs) :
    view (i + 1) ((line i).exec M r) = step M (view i r) i := by
  have hstep := STEP_eq (fnOf i) (r.get (reg i 0)) (r.get (reg i 1)) (r.get (reg i 2)) (r.get (reg i 3)) (M (idx i))
    (T.getD i 0) (shift_lt i)
  rw [fnOf_apply hi] at hstep
  rw [Line.exec, line, hstep, view, step, view]
  generalize r.get (reg i 1) + _ = x
  have hj : (64 - i) % 4 < 4 := Nat.mod_lt _ (by decide)
  have hreg : ∀ k, reg i k = [Reg.a, .b, .c, .d].getD (((64 - i) % 4 + k) % 4) .a := fun k => by
    rw [reg, Nat.mod_add_mod]
  have hreg' : ∀ k, reg (i + 1) k = [Reg.a, .b, .c, .d].getD (((64 - i) % 4 + 3 + k) % 4) .a := fun k => by
    rw [reg, Nat.add_assoc, Nat.mod_add_mod]
    congr 1
    omega
  simp only [hreg, hreg']
  generalize (64 - i) % 4 = j at hj
  interval_cases j <;> rfl

theorem foldl_lines (M : ℕ → Word) (r : Regs) : lines.foldl (Line.exec M) r = (List.range 64).foldl (step M) r := by
  have hrun : ∀ n, n ≤ 64 → view n ((List.range n).foldl (fun r i => (line i).exec M r) r) =
      (List.range n).foldl (step M) r := by
    intro n hn
    induction n with
    | zero => rfl
    | succ n ih =>
      rw [List.range_succ, List.foldl_concat, List.foldl_concat, view_exec hn, ih (by omega)]
  have hview : ∀ r, view 64 r = r := fun r => rfl
  have h := hrun 64 le_rfl
  rw [hview] at h
  rw [lines_eq, List.foldl_map, h]

/-! ## A block -/

theorem append_bytes (b₀ b₁ b₂ b₃ : UInt8) :
    (b₃.toBitVec ++ b₂.toBitVec ++ b₁.toBitVec ++ b₀.toBitVec : Word) = BitVec.ofNat 32 (ofLe [b₀, b₁, b₂, b₃]) := by
  apply BitVec.eq_of_toNat_eq
  have h₀ := b₀.toBitVec.isLt
  have h₁ := b₁.toBitVec.isLt
  have h₂ := b₂.toBitVec.isLt
  have h₃ := b₃.toBitVec.isLt
  simp only [BitVec.toNat_append, BitVec.toNat_ofNat, ofLe, List.foldr_cons, List.foldr_nil, UInt8.toNat_toBitVec]
  rw [← UInt8.toNat_toBitVec, ← UInt8.toNat_toBitVec, ← UInt8.toNat_toBitVec, ← UInt8.toNat_toBitVec,
    ← Nat.shiftLeft_add_eq_or_of_lt h₂, ← Nat.shiftLeft_add_eq_or_of_lt h₁, ← Nat.shiftLeft_add_eq_or_of_lt h₀]
  simp only [Nat.shiftLeft_eq]
  omega

theorem take_four {l : List UInt8} {n : ℕ} (h : n * 4 + 4 ≤ l.length) :
    (l.drop (n * 4)).take 4 = [l.getD (n * 4) 0, l.getD (n * 4 + 1) 0, l.getD (n * 4 + 2) 0, l.getD (n * 4 + 3) 0] := by
  apply List.ext_getElem
  · rw [List.length_take, List.length_drop, Nat.min_eq_left (by omega)]
    rfl
  · intro i hi _
    rw [List.length_take, List.length_drop, Nat.min_eq_left (by omega)] at hi
    rw [List.getElem_take, List.getElem_drop]
    interval_cases i <;> simp [List.getD_eq_getElem?_getD, show n * 4 + 3 < l.length by omega,
      show n * 4 + 2 < l.length by omega, show n * 4 + 1 < l.length by omega, show n * 4 < l.length by omega]

theorem load_eq_words {ptr : List UInt8} {n : ℕ} (h : n * 4 + 4 ≤ ptr.length) : load ptr n = words ptr n := by
  rw [load, append_bytes, words, take_four h]

theorem lines_n_lt : ∀ l ∈ lines, l.n < 16 := by decide

theorem exec_congr {M M' : ℕ → Word} {l : Line} (h : M l.n = M' l.n) (r : Regs) : l.exec M r = l.exec M' r := by
  rw [Line.exec, Line.exec, h]

theorem foldl_exec_congr {M M' : ℕ → Word} {ls : List Line} (h : ∀ l ∈ ls, M l.n = M' l.n) (r : Regs) :
    ls.foldl (Line.exec M) r = ls.foldl (Line.exec M') r :=
  List.foldl_ext _ _ _ fun r l hl => exec_congr (h l hl) r

/-- **A round of the loop of `body`** compresses a block. -/
theorem transform_eq_compress {ptr : List UInt8} (h : ptr.length = 64) (r : Regs) : transform r ptr = compress r ptr := by
  have hload : ∀ l ∈ lines, load ptr l.n = words ptr l.n := by
    intro l hl
    have := lines_n_lt l hl
    exact load_eq_words (by omega)
  rw [transform, compress, foldl_exec_congr hload, foldl_lines]

/-! ## The other `SET` and `GET` -/

theorem or_bytes (b₀ b₁ b₂ b₃ : BitVec 8) : b₀.setWidth 32 ||| b₁.setWidth 32 <<< 8 ||| b₂.setWidth 32 <<< 16 |||
    b₃.setWidth 32 <<< 24 = b₃ ++ b₂ ++ b₁ ++ b₀ := by
  apply BitVec.eq_of_getLsbD_eq
  intro i hi
  have hge : ∀ b : BitVec 8, ∀ j, 8 ≤ j → b.getLsbD j = false := fun b j hj => BitVec.getLsbD_of_ge b j hj
  simp only [BitVec.getLsbD_or, BitVec.getLsbD_append, BitVec.getLsbD_shiftLeft, BitVec.getLsbD_setWidth]
  grind

theorem set_eq_load (ptr : List UInt8) (n : ℕ) : set ptr n = load ptr n := or_bytes _ _ _ _

theorem round1_n : round1.map Line.n = List.range 16 := by rfl

/-- Round 1 stores each word before it is used. -/
theorem foldl_round1 (ptr : List UInt8) (ls : List Line) (s : Regs × (ℕ → Word)) :
    (ls.foldl (fun (s : Regs × (ℕ → Word)) l =>
      let block := Function.update s.2 l.n (set ptr l.n)
      (l.exec block s.1, block)) s) =
      (ls.foldl (Line.exec (load ptr)) s.1, fun n => if n ∈ ls.map Line.n then load ptr n else s.2 n) := by
  induction ls generalizing s with
  | nil => simp
  | cons l ls ih =>
    have hexec : l.exec (Function.update s.2 l.n (set ptr l.n)) s.1 = l.exec (load ptr) s.1 := by
      apply exec_congr
      rw [Function.update_self, set_eq_load]
    rw [List.foldl_cons, ih, List.foldl_cons]
    refine Prod.ext ?_ (funext fun n => ?_)
    · rw [← hexec]
    · by_cases hn : n ∈ ls.map Line.n
      · simp [hn]
      · by_cases hl : n = l.n
        · simp [hl, set_eq_load]
        · simp [hn, hl]

end Backend.Md5
