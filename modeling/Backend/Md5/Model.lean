import Mathlib.Data.Nat.Notation
import Mathlib.Logic.Function.Basic

/-!
# MD5 (`base/os/md5.cc`)

* `Ctx`, `MD5_Init`, `body`, `MD5_Update`, `MD5_Final`: the message digest in pieces;
* `Line`, `lines`: the 64 lines `STEP(...)` of `body`, as data; `Line.exec`: what such a line does;
* `md5bin`, `md5sum`, `md5sum6`: the interface;
* `transformBlock`: the round of `body` on the other machines, where `SET` keeps the word for `GET`.

A `MD5_u32plus` is a `BitVec 32`, an `unsigned long` a `BitVec 64`. `none` as a result is an access outside an array, or
a loop that does not end.
-/

set_option autoImplicit false

namespace Backend.Md5

open Function

/-- A `MD5_u32plus`. -/
abbrev Word := BitVec 32

/-! ## The transformation -/

/-- The basic functions. -/
inductive Fn
  | F
  | G
  | H
  | I
  deriving DecidableEq

/-- The macros `F`, `G`, `H` and `I`. -/
def Fn.apply (x y z : Word) : Fn → Word
  | .F => z ^^^ (x &&& (y ^^^ z))
  | .G => y ^^^ (z &&& (x ^^^ y))
  | .H => x ^^^ y ^^^ z
  | .I => y ^^^ (x ||| ~~~z)

/-- The variables of `body`. -/
inductive Reg
  | a
  | b
  | c
  | d
  deriving DecidableEq

/-- The values of the variables. -/
@[ext] structure Regs where
  a : Word
  b : Word
  c : Word
  d : Word

/-- The value of a variable. -/
def Regs.get (r : Regs) : Reg → Word
  | .a => r.a
  | .b => r.b
  | .c => r.c
  | .d => r.d

/-- An assignment. -/
def Regs.set (r : Regs) (x : Word) : Reg → Regs
  | .a => { r with a := x }
  | .b => { r with b := x }
  | .c => { r with c := x }
  | .d => { r with d := x }

/-- `a += saved_a;` and so on. -/
def Regs.add (r saved : Regs) : Regs :=
  { a := r.a + saved.a, b := r.b + saved.b, c := r.c + saved.c, d := r.d + saved.d }

/-- The macro `STEP`: the new value of its variable `a`. -/
def STEP (f : Fn) (a b c d x t : Word) (s : ℕ) : Word :=
  let a := a + (f.apply b c d + x + t)
  let a := a <<< s ||| (a &&& 0xffffffff) >>> (32 - s)
  a + b

/-- A line `STEP(f, a, b, c, d, SET(n), t, s)` or `STEP(f, a, b, c, d, GET(n), t, s)`. -/
structure Line where
  f : Fn
  a : Reg
  b : Reg
  c : Reg
  d : Reg
  n : ℕ
  t : Word
  s : ℕ
  deriving DecidableEq

/-- What a line does, with the words of the block. -/
def Line.exec (get : ℕ → Word) (r : Regs) (l : Line) : Regs :=
  r.set (STEP l.f (r.get l.a) (r.get l.b) (r.get l.c) (r.get l.d) (get l.n) l.t l.s) l.a

/-- Round 1. -/
def round1 : List Line := [
  ⟨.F, .a, .b, .c, .d, 0, 0xd76aa478, 7⟩,
  ⟨.F, .d, .a, .b, .c, 1, 0xe8c7b756, 12⟩,
  ⟨.F, .c, .d, .a, .b, 2, 0x242070db, 17⟩,
  ⟨.F, .b, .c, .d, .a, 3, 0xc1bdceee, 22⟩,
  ⟨.F, .a, .b, .c, .d, 4, 0xf57c0faf, 7⟩,
  ⟨.F, .d, .a, .b, .c, 5, 0x4787c62a, 12⟩,
  ⟨.F, .c, .d, .a, .b, 6, 0xa8304613, 17⟩,
  ⟨.F, .b, .c, .d, .a, 7, 0xfd469501, 22⟩,
  ⟨.F, .a, .b, .c, .d, 8, 0x698098d8, 7⟩,
  ⟨.F, .d, .a, .b, .c, 9, 0x8b44f7af, 12⟩,
  ⟨.F, .c, .d, .a, .b, 10, 0xffff5bb1, 17⟩,
  ⟨.F, .b, .c, .d, .a, 11, 0x895cd7be, 22⟩,
  ⟨.F, .a, .b, .c, .d, 12, 0x6b901122, 7⟩,
  ⟨.F, .d, .a, .b, .c, 13, 0xfd987193, 12⟩,
  ⟨.F, .c, .d, .a, .b, 14, 0xa679438e, 17⟩,
  ⟨.F, .b, .c, .d, .a, 15, 0x49b40821, 22⟩]

/-- Round 2. -/
def round2 : List Line := [
  ⟨.G, .a, .b, .c, .d, 1, 0xf61e2562, 5⟩,
  ⟨.G, .d, .a, .b, .c, 6, 0xc040b340, 9⟩,
  ⟨.G, .c, .d, .a, .b, 11, 0x265e5a51, 14⟩,
  ⟨.G, .b, .c, .d, .a, 0, 0xe9b6c7aa, 20⟩,
  ⟨.G, .a, .b, .c, .d, 5, 0xd62f105d, 5⟩,
  ⟨.G, .d, .a, .b, .c, 10, 0x02441453, 9⟩,
  ⟨.G, .c, .d, .a, .b, 15, 0xd8a1e681, 14⟩,
  ⟨.G, .b, .c, .d, .a, 4, 0xe7d3fbc8, 20⟩,
  ⟨.G, .a, .b, .c, .d, 9, 0x21e1cde6, 5⟩,
  ⟨.G, .d, .a, .b, .c, 14, 0xc33707d6, 9⟩,
  ⟨.G, .c, .d, .a, .b, 3, 0xf4d50d87, 14⟩,
  ⟨.G, .b, .c, .d, .a, 8, 0x455a14ed, 20⟩,
  ⟨.G, .a, .b, .c, .d, 13, 0xa9e3e905, 5⟩,
  ⟨.G, .d, .a, .b, .c, 2, 0xfcefa3f8, 9⟩,
  ⟨.G, .c, .d, .a, .b, 7, 0x676f02d9, 14⟩,
  ⟨.G, .b, .c, .d, .a, 12, 0x8d2a4c8a, 20⟩]

/-- Round 3. -/
def round3 : List Line := [
  ⟨.H, .a, .b, .c, .d, 5, 0xfffa3942, 4⟩,
  ⟨.H, .d, .a, .b, .c, 8, 0x8771f681, 11⟩,
  ⟨.H, .c, .d, .a, .b, 11, 0x6d9d6122, 16⟩,
  ⟨.H, .b, .c, .d, .a, 14, 0xfde5380c, 23⟩,
  ⟨.H, .a, .b, .c, .d, 1, 0xa4beea44, 4⟩,
  ⟨.H, .d, .a, .b, .c, 4, 0x4bdecfa9, 11⟩,
  ⟨.H, .c, .d, .a, .b, 7, 0xf6bb4b60, 16⟩,
  ⟨.H, .b, .c, .d, .a, 10, 0xbebfbc70, 23⟩,
  ⟨.H, .a, .b, .c, .d, 13, 0x289b7ec6, 4⟩,
  ⟨.H, .d, .a, .b, .c, 0, 0xeaa127fa, 11⟩,
  ⟨.H, .c, .d, .a, .b, 3, 0xd4ef3085, 16⟩,
  ⟨.H, .b, .c, .d, .a, 6, 0x04881d05, 23⟩,
  ⟨.H, .a, .b, .c, .d, 9, 0xd9d4d039, 4⟩,
  ⟨.H, .d, .a, .b, .c, 12, 0xe6db99e5, 11⟩,
  ⟨.H, .c, .d, .a, .b, 15, 0x1fa27cf8, 16⟩,
  ⟨.H, .b, .c, .d, .a, 2, 0xc4ac5665, 23⟩]

/-- Round 4. -/
def round4 : List Line := [
  ⟨.I, .a, .b, .c, .d, 0, 0xf4292244, 6⟩,
  ⟨.I, .d, .a, .b, .c, 7, 0x432aff97, 10⟩,
  ⟨.I, .c, .d, .a, .b, 14, 0xab9423a7, 15⟩,
  ⟨.I, .b, .c, .d, .a, 5, 0xfc93a039, 21⟩,
  ⟨.I, .a, .b, .c, .d, 12, 0x655b59c3, 6⟩,
  ⟨.I, .d, .a, .b, .c, 3, 0x8f0ccc92, 10⟩,
  ⟨.I, .c, .d, .a, .b, 10, 0xffeff47d, 15⟩,
  ⟨.I, .b, .c, .d, .a, 1, 0x85845dd1, 21⟩,
  ⟨.I, .a, .b, .c, .d, 8, 0x6fa87e4f, 6⟩,
  ⟨.I, .d, .a, .b, .c, 15, 0xfe2ce6e0, 10⟩,
  ⟨.I, .c, .d, .a, .b, 6, 0xa3014314, 15⟩,
  ⟨.I, .b, .c, .d, .a, 13, 0x4e0811a1, 21⟩,
  ⟨.I, .a, .b, .c, .d, 4, 0xf7537e82, 6⟩,
  ⟨.I, .d, .a, .b, .c, 11, 0xbd3af235, 10⟩,
  ⟨.I, .c, .d, .a, .b, 2, 0x2ad7d2bb, 15⟩,
  ⟨.I, .b, .c, .d, .a, 9, 0xeb86d391, 21⟩]

/-- The lines of the four rounds. -/
def lines : List Line := round1 ++ round2 ++ round3 ++ round4

/-- Four bytes read as a word: `*(MD5_u32plus *)&ptr[n * 4]` on a little-endian machine. -/
def load (ptr : List UInt8) (n : ℕ) : Word :=
  (ptr.getD (n * 4 + 3) 0).toBitVec ++ (ptr.getD (n * 4 + 2) 0).toBitVec ++ (ptr.getD (n * 4 + 1) 0).toBitVec ++
    (ptr.getD (n * 4) 0).toBitVec

/-- One round of the loop of `body`. -/
def transform (saved : Regs) (ptr : List UInt8) : Regs := (lines.foldl (Line.exec (load ptr)) saved).add saved

/-- The loop of `body`: `do { .. } while (size -= 64)`; the result has the place behind the last block. -/
def bodyLoop : ℕ → Regs → List UInt8 → BitVec 64 → Option (Regs × List UInt8)
  | 0, _, _, _ => none
  | fuel + 1, r, ptr, size =>
    if ptr.length < 64 then none
    else
      let r := transform r (ptr.take 64)
      let size := size - 64
      if size ≠ 0 then bodyLoop fuel r (ptr.drop 64) size else some (r, ptr.drop 64)

/-! ## The state -/

/-- `MD5_CTX`; `block` is only used by the other `SET`, see `transformBlock`. -/
structure Ctx where
  lo : Word
  hi : Word
  regs : Regs
  buffer : List UInt8

/-- `body`. -/
def body (ctx : Ctx) (data : List UInt8) (size : BitVec 64) : Option (Ctx × List UInt8) :=
  (bodyLoop size.toNat ctx.regs data size).map fun r => ({ ctx with regs := r.1 }, r.2)

/-- `memcpy` and `memset` into the buffer: `data` from the place `off` on. -/
def memcpy (buffer : List UInt8) (off : ℕ) (data : List UInt8) : Option (List UInt8) :=
  if off + data.length ≤ buffer.length then some (buffer.take off ++ data ++ buffer.drop (off + data.length)) else none

/-- The initial values of the variables. -/
def initRegs : Regs := { a := 0x67452301, b := 0xefcdab89, c := 0x98badcfe, d := 0x10325476 }

/-- `MD5_Init`; the buffer keeps what it has. -/
def MD5_Init (buffer : List UInt8) : Ctx := { lo := 0, hi := 0, regs := initRegs, buffer := buffer }

/-- The part of `MD5_Update` behind the first block: the whole blocks of `data`, and the rest into the buffer. -/
def updateTail (ctx : Ctx) (data : List UInt8) (size : BitVec 64) : Option Ctx := do
  let (ctx, data, size) ←
    if size ≥ 64 then (body ctx data (size &&& ~~~0x3f)).map fun r => (r.1, r.2, size &&& 0x3f)
    else some (ctx, data, size)
  let buffer ← memcpy ctx.buffer 0 (data.take size.toNat)
  some { ctx with buffer := buffer }

/-- `MD5_Update`. -/
def MD5_Update (ctx : Ctx) (data : List UInt8) : Option Ctx :=
  let size := BitVec.ofNat 64 data.length
  let savedLo := ctx.lo
  let lo : Word := ((savedLo.setWidth 64 + size) &&& 0x1fffffff).setWidth 32
  let hi := if lo < savedLo then ctx.hi + 1 else ctx.hi
  let hi : Word := (hi.setWidth 64 + size >>> 29).setWidth 32
  let ctx := { ctx with lo := lo, hi := hi }
  let used : BitVec 64 := (savedLo &&& 0x3f).setWidth 64
  if used ≠ 0 then
    let free := 64 - used
    if size < free then (memcpy ctx.buffer used.toNat data).map fun buffer => { ctx with buffer := buffer }
    else do
      let buffer ← memcpy ctx.buffer used.toNat (data.take free.toNat)
      let (ctx, _) ← body { ctx with buffer := buffer } buffer 64
      updateTail ctx (data.drop free.toNat) (size - free)
  else updateTail ctx data size

/-- The bytes of a word, the lowest one first: `x`, `x >> 8`, `x >> 16`, `x >> 24` as `unsigned char`. -/
def bytes (x : Word) : List UInt8 :=
  [⟨x.setWidth 8⟩, ⟨(x >>> 8).setWidth 8⟩, ⟨(x >>> 16).setWidth 8⟩, ⟨(x >>> 24).setWidth 8⟩]

/-- The part of `MD5_Final` that fills and compresses the last block, with what it writes into `result`. -/
def finalTail (ctx : Ctx) (used free : BitVec 64) : Option (List UInt8) := do
  let buffer ← memcpy ctx.buffer used.toNat (List.replicate (free - 8).toNat 0)
  let lo := ctx.lo <<< 3
  let buffer ← memcpy buffer 56 (bytes lo ++ bytes ctx.hi)
  let (ctx, _) ← body { ctx with buffer := buffer } buffer 64
  some (bytes ctx.regs.a ++ bytes ctx.regs.b ++ bytes ctx.regs.c ++ bytes ctx.regs.d)

/-- `MD5_Final`. -/
def MD5_Final (ctx : Ctx) : Option (List UInt8) := do
  let used : BitVec 64 := (ctx.lo &&& 0x3f).setWidth 64
  let buffer ← memcpy ctx.buffer used.toNat [0x80]
  let used := used + 1
  let free := 64 - used
  if free < 8 then do
    let buffer ← memcpy buffer used.toNat (List.replicate free.toNat 0)
    let (ctx, _) ← body { ctx with buffer := buffer } buffer 64
    finalTail ctx 0 64
  else finalTail { ctx with buffer := buffer } used free

/-! ## The interface -/

/-- `md5bin`; `buffer` is what the new `MD5_CTX` holds. -/
def md5bin (buffer data : List UInt8) : Option (List UInt8) := do
  let ctx ← MD5_Update (MD5_Init buffer) data
  MD5_Final ctx

/-- `hb2hex`. -/
def hb2hex (hb : UInt8) : Char :=
  let hb := hb &&& 0xF
  if hb < 10 then Char.ofNat ('0'.toNat + hb.toNat) else Char.ofNat (hb.toNat - 10 + 'a'.toNat)

/-- The loop of `md5sum`. -/
def hex (out : List UInt8) : List Char := out.flatMap fun (x : UInt8) => [hb2hex (x >>> 4), hb2hex x]

/-- `md5sum`. -/
def md5sum (buffer data : List UInt8) : Option (List Char) := (md5bin buffer data).map hex

/-- The table of `md5sum6`. -/
def tbl : List Char := "0123456789abcdefghijklmnopqrstuvwxyzABCDEFGHIJKLMNOPQRSTUVWXYZ".toList

/-- `md5sum6`. -/
def md5sum6 (buffer data : List UInt8) : Option (List Char) := do
  let out ← md5bin buffer data
  (out.take 6).mapM fun x => tbl[x.toNat % 62]?

/-! ## The other `SET` and `GET` -/

/-- `SET(n)` off the machines above: the word is put together and kept in `block`. -/
def set (ptr : List UInt8) (n : ℕ) : Word :=
  (ptr.getD (n * 4) 0).toBitVec.setWidth 32 ||| (ptr.getD (n * 4 + 1) 0).toBitVec.setWidth 32 <<< 8 |||
    (ptr.getD (n * 4 + 2) 0).toBitVec.setWidth 32 <<< 16 ||| (ptr.getD (n * 4 + 3) 0).toBitVec.setWidth 32 <<< 24

/-- The lines of round 1 keep their words in `block`, the others take theirs from it. -/
def transformBlock (saved : Regs) (block : ℕ → Word) (ptr : List UInt8) : Regs × (ℕ → Word) :=
  let s := round1.foldl (fun (s : Regs × (ℕ → Word)) l =>
    let block := update s.2 l.n (set ptr l.n)
    (l.exec block s.1, block)) (saved, block)
  let r := (round2 ++ round3 ++ round4).foldl (Line.exec s.2) s.1
  (r.add saved, s.2)

end Backend.Md5
