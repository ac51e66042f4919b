import Ithildin.Client.Hostcrypt
import Ithildin.Lib.Blocks
import Ithildin.Lib.Layout

/-!
# The digest

`md5.c`, in words of 32 bits.

* `md5Transform`: the 64 lines on the four registers;
* `compress`: the loop they were unrolled from; `md5Transform_eq_compress`: they do the same;
* `md5Update`, `md5Pad`, `md5Final`: a context that data are put into piece by piece;
* `Holds`: what a context says about the data so far; `md5Update_holds`: an update keeps that, or
  reads behind its input;
* `digestOf`: the digest of data, without a context;
* `md5Stream_eq`: the digest does not depend on how the data were cut;
* `md5End`, `md5Data`, `md5File`: the digest as text; `md5File_eq_md5Data`: nor does that;
* `md5`, `md5Data_eq`: the hash function that hostnames are encrypted with.
-/

namespace Ithildin

namespace Digest

open Buffer Layout

/-! ### Words -/

/-- `state` of the context, and the registers of `md5_transform`. -/
structure Words where
  a : UInt32
  b : UInt32
  c : UInt32
  d : UInt32
  deriving DecidableEq

/-- The name of a register. -/
inductive Reg
  | a | b | c | d
  deriving DecidableEq

/-- What a register holds. -/
def Words.get (w : Words) : Reg → UInt32
  | .a => w.a
  | .b => w.b
  | .c => w.c
  | .d => w.d

/-- An assignment. -/
def Words.set (w : Words) (r : Reg) (x : UInt32) : Words :=
  match r with
  | .a => { w with a := x }
  | .b => { w with b := x }
  | .c => { w with c := x }
  | .d => { w with d := x }

/-- The numbers of a block: four bytes each, the lowest first. -/
def md5Decode (input : Bytes) (i : ℕ) : UInt32 :=
  (input.getD (4 * i) 0).toUInt32 ||| (input.getD (4 * i + 1) 0).toUInt32 <<< 8 |||
    (input.getD (4 * i + 2) 0).toUInt32 <<< 16 ||| (input.getD (4 * i + 3) 0).toUInt32 <<< 24

/-- `md5_encode` -/
def md5Encode (input : List UInt32) : Bytes :=
  input.flatMap fun (w : UInt32) => [(w &&& 0xff).toUInt8, ((w >>> 8) &&& 0xff).toUInt8,
    ((w >>> 16) &&& 0xff).toUInt8, ((w >>> 24) &&& 0xff).toUInt8]

/-! ### The transformation of a block -/

/-- `ROTATE_LEFT` -/
def rotateLeft (x n : UInt32) : UInt32 := x <<< n ||| x >>> (32 - n)

/-- The macros for the four rounds. -/
inductive Round
  | ff | gg | hh | ii
  deriving DecidableEq

/-- `F`, `G`, `H` and `I`. -/
def Round.fn : Round → UInt32 → UInt32 → UInt32 → UInt32
  | .ff, x, y, z => x &&& y ||| ~~~x &&& z
  | .gg, x, y, z => x &&& z ||| y &&& ~~~z
  | .hh, x, y, z => x ^^^ y ^^^ z
  | .ii, x, y, z => y ^^^ (x ||| ~~~z)

/-- A line of `md5_transform`: the macro, its four registers, the index into `x`, the rotation and
the constant. -/
structure Line where
  round : Round
  a : Reg
  b : Reg
  c : Reg
  d : Reg
  x : ℕ
  s : UInt32
  ac : UInt32
  deriving DecidableEq

/-- `FF`, `GG`, `HH` and `II`. -/
def Line.exec (x : ℕ → UInt32) (w : Words) (l : Line) : Words :=
  let a := w.get l.a + (l.round.fn (w.get l.b) (w.get l.c) (w.get l.d) + x l.x + l.ac)
  w.set l.a (rotateLeft a l.s + w.get l.b)

/-- The lines of `md5_transform`. -/
def lines : List Line :=
  [⟨.ff, .a, .b, .c, .d, 0, 7, 0xd76aa478⟩, ⟨.ff, .d, .a, .b, .c, 1, 12, 0xe8c7b756⟩,
    ⟨.ff, .c, .d, .a, .b, 2, 17, 0x242070db⟩, ⟨.ff, .b, .c, .d, .a, 3, 22, 0xc1bdceee⟩,
    ⟨.ff, .a, .b, .c, .d, 4, 7, 0xf57c0faf⟩, ⟨.ff, .d, .a, .b, .c, 5, 12, 0x4787c62a⟩,
    ⟨.ff, .c, .d, .a, .b, 6, 17, 0xa8304613⟩, ⟨.ff, .b, .c, .d, .a, 7, 22, 0xfd469501⟩,
    ⟨.ff, .a, .b, .c, .d, 8, 7, 0x698098d8⟩, ⟨.ff, .d, .a, .b, .c, 9, 12, 0x8b44f7af⟩,
    ⟨.ff, .c, .d, .a, .b, 10, 17, 0xffff5bb1⟩, ⟨.ff, .b, .c, .d, .a, 11, 22, 0x895cd7be⟩,
    ⟨.ff, .a, .b, .c, .d, 12, 7, 0x6b901122⟩, ⟨.ff, .d, .a, .b, .c, 13, 12, 0xfd987193⟩,
    ⟨.ff, .c, .d, .a, .b, 14, 17, 0xa679438e⟩, ⟨.ff, .b, .c, .d, .a, 15, 22, 0x49b40821⟩,
    ⟨.gg, .a, .b, .c, .d, 1, 5, 0xf61e2562⟩, ⟨.gg, .d, .a, .b, .c, 6, 9, 0xc040b340⟩,
    ⟨.gg, .c, .d, .a, .b, 11, 14, 0x265e5a51⟩, ⟨.gg, .b, .c, .d, .a, 0, 20, 0xe9b6c7aa⟩,
    ⟨.gg, .a, .b, .c, .d, 5, 5, 0xd62f105d⟩, ⟨.gg, .d, .a, .b, .c, 10, 9, 0x2441453⟩,
    ⟨.gg, .c, .d, .a, .b, 15, 14, 0xd8a1e681⟩, ⟨.gg, .b, .c, .d, .a, 4, 20, 0xe7d3fbc8⟩,
    ⟨.gg, .a, .b, .c, .d, 9, 5, 0x21e1cde6⟩, ⟨.gg, .d, .a, .b, .c, 14, 9, 0xc33707d6⟩,
    ⟨.gg, .c, .d, .a, .b, 3, 14, 0xf4d50d87⟩, ⟨.gg, .b, .c, .d, .a, 8, 20, 0x455a14ed⟩,
    ⟨.gg, .a, .b, .c, .d, 13, 5, 0xa9e3e905⟩, ⟨.gg, .d, .a, .b, .c, 2, 9, 0xfcefa3f8⟩,
    ⟨.gg, .c, .d, .a, .b, 7, 14, 0x676f02d9⟩, ⟨.gg, .b, .c, .d, .a, 12, 20, 0x8d2a4c8a⟩,
    ⟨.hh, .a, .b, .c, .d, 5, 4, 0xfffa3942⟩, ⟨.hh, .d, .a, .b, .c, 8, 11, 0x8771f681⟩,
    ⟨.hh, .c, .d, .a, .b, 11, 16, 0x6d9d6122⟩, ⟨.hh, .b, .c, .d, .a, 14, 23, 0xfde5380c⟩,
    ⟨.hh, .a, .b, .c, .d, 1, 4, 0xa4beea44⟩, ⟨.hh, .d, .a, .b, .c, 4, 11, 0x4bdecfa9⟩,
    ⟨.hh, .c, .d, .a, .b, 7, 16, 0xf6bb4b60⟩, ⟨.hh, .b, .c, .d, .a, 10, 23, 0xbebfbc70⟩,
    ⟨.hh, .a, .b, .c, .d, 13, 4, 0x289b7ec6⟩, ⟨.hh, .d, .a, .b, .c, 0, 11, 0xeaa127fa⟩,
    ⟨.hh, .c, .d, .a, .b, 3, 16, 0xd4ef3085⟩, ⟨.hh, .b, .c, .d, .a, 6, 23, 0x4881d05⟩,
    ⟨.hh, .a, .b, .c, .d, 9, 4, 0xd9d4d039⟩, ⟨.hh, .d, .a, .b, .c, 12, 11, 0xe6db99e5⟩,
    ⟨.hh, .c, .d, .a, .b, 15, 16, 0x1fa27cf8⟩, ⟨.hh, .b, .c, .d, .a, 2, 23, 0xc4ac5665⟩,
    ⟨.ii, .a, .b, .c, .d, 0, 6, 0xf4292244⟩, ⟨.ii, .d, .a, .b, .c, 7, 10, 0x432aff97⟩,
    ⟨.ii, .c, .d, .a, .b, 14, 15, 0xab9423a7⟩, ⟨.ii, .b, .c, .d, .a, 5, 21, 0xfc93a039⟩,
    ⟨.ii, .a, .b, .c, .d, 12, 6, 0x655b59c3⟩, ⟨.ii, .d, .a, .b, .c, 3, 10, 0x8f0ccc92⟩,
    ⟨.ii, .c, .d, .a, .b, 10, 15, 0xffeff47d⟩, ⟨.ii, .b, .c, .d, .a, 1, 21, 0x85845dd1⟩,
    ⟨.ii, .a, .b, .c, .d, 8, 6, 0x6fa87e4f⟩, ⟨.ii, .d, .a, .b, .c, 15, 10, 0xfe2ce6e0⟩,
    ⟨.ii, .c, .d, .a, .b, 6, 15, 0xa3014314⟩, ⟨.ii, .b, .c, .d, .a, 13, 21, 0x4e0811a1⟩,
    ⟨.ii, .a, .b, .c, .d, 4, 6, 0xf7537e82⟩, ⟨.ii, .d, .a, .b, .c, 11, 10, 0xbd3af235⟩,
    ⟨.ii, .c, .d, .a, .b, 2, 15, 0x2ad7d2bb⟩, ⟨.ii, .b, .c, .d, .a, 9, 21, 0xeb86d391⟩]

/-- `md5_transform` -/
def md5Transform (state : Words) (block : Bytes) : Words :=
  let w := lines.foldl (Line.exec (md5Decode block)) state
  ⟨state.a + w.a, state.b + w.b, state.c + w.c, state.d + w.d⟩

/-! ### The context -/

/-- `ith_md5_ctx`, with the low word of the count first. -/
structure Md5Ctx where
  state : Words
  count0 : UInt32
  count1 : UInt32
  buffer : Bytes
  deriving DecidableEq

/-- The constants of `md5_init`. -/
def initWords : Words := ⟨0x67452301, 0xefcdab89, 0x98badcfe, 0x10325476⟩

/-- `md5_init` -/
def md5Init (context : Md5Ctx) : Md5Ctx :=
  { context with state := initWords, count0 := 0, count1 := 0 }

/-- `for (i = partLen; i + 63 < inputLen; i += 64)`, in `unsigned int`; nothing where a block is not
inside the input. -/
def md5Blocks (input : Bytes) (inputLen : ℕ) : ℕ → ℕ → Words → Option (ℕ × Words)
  | 0, _, _ => none
  | fuel + 1, i, state =>
      if (i + 63) % 2 ^ 32 < inputLen then
        if i + 64 ≤ input.length then
          md5Blocks input inputLen fuel (i + 64) (md5Transform state (slice i 64 input))
        else none
      else some (i, state)

/-- `md5_update`; nothing where it reads behind the input. -/
def md5Update (context : Md5Ctx) (input : Bytes) : Option Md5Ctx :=
  let inputLen := input.length % 2 ^ 32
  let idx := ((context.count0 >>> 3) &&& 0x3f).toNat
  let bits := inputLen.toUInt32 <<< 3
  let count0 := context.count0 + bits
  let count1 := if count0 < bits then context.count1 + 1 else context.count1
  let count1 := count1 + inputLen.toUInt32 >>> 29
  let partLen := 64 - idx
  if partLen ≤ inputLen then
    let buffer := storeAt idx (input.take partLen) context.buffer
    let state := md5Transform context.state buffer
    (md5Blocks input inputLen (inputLen / 64 + 1) partLen state).map fun (i, state) =>
      ⟨state, count0, count1, storeAt 0 ((input.drop i).take (inputLen - i)) buffer⟩
  else
    some ⟨context.state, count0, count1, storeAt idx (input.take inputLen) context.buffer⟩

/-- `PADDING` -/
def PADDING : Bytes := 0x80 :: List.replicate 63 0

/-- `md5_pad` -/
def md5Pad (context : Md5Ctx) : Option Md5Ctx :=
  let bits := md5Encode [context.count0, context.count1]
  let idx := ((context.count0 >>> 3) &&& 0x3f).toNat
  let padLen := if idx < 56 then 56 - idx else 120 - idx
  (md5Update context (PADDING.take padLen)).bind fun context => md5Update context bits

/-- The context after `memset`. -/
def zeroed : Md5Ctx := ⟨⟨0, 0, 0, 0⟩, 0, 0, List.replicate 64 0⟩

/-- `md5_final`: the digest and the context. -/
def md5Final (context : Md5Ctx) : Option (Bytes × Md5Ctx) :=
  (md5Pad context).map fun context =>
    let s := context.state
    (md5Encode [s.a, s.b, s.c, s.d], zeroed)

/-- Updates one after the other. -/
def md5Updates : List Bytes → Md5Ctx → Option Md5Ctx
  | [], context => some context
  | input :: inputs, context => (md5Update context input).bind (md5Updates inputs)

/-- `md5_init`, updates and `md5_final`. -/
def md5Stream (context : Md5Ctx) (inputs : List Bytes) : Option Bytes :=
  ((md5Updates inputs (md5Init context)).bind md5Final).map Prod.fst

/-! ### The loop that was unrolled -/

/-- The constants, in the order of the steps. -/
def sines : List UInt32 := lines.map (·.ac)

/-- The round of a step. -/
def roundAt (i : ℕ) : Round :=
  if i < 16 then .ff else if i < 32 then .gg else if i < 48 then .hh else .ii

/-- Which number of the block a step takes. -/
def wordAt (i : ℕ) : ℕ :=
  match roundAt i with
  | .ff => i % 16
  | .gg => (5 * i + 1) % 16
  | .hh => (3 * i + 5) % 16
  | .ii => 7 * i % 16

/-- How far a step rotates. -/
def rotationAt (i : ℕ) : UInt32 :=
  let choices : List UInt32 := match roundAt i with
    | .ff => [7, 12, 17, 22]
    | .gg => [5, 9, 14, 20]
    | .hh => [4, 11, 16, 23]
    | .ii => [6, 10, 15, 21]
  choices.getD (i % 4) 0

/-- A step; the registers change their names. -/
def step (x : ℕ → UInt32) (w : Words) (i : ℕ) : Words :=
  let a := w.a + ((roundAt i).fn w.b w.c w.d + x (wordAt i) + sines.getD i 0)
  ⟨w.d, rotateLeft a (rotationAt i) + w.b, w.b, w.c⟩

/-- The state after a block. -/
def compress (state : Words) (block : Bytes) : Words :=
  let w := (List.range 64).foldl (step (md5Decode block)) state
  ⟨state.a + w.a, state.b + w.b, state.c + w.c, state.d + w.d⟩

/-- The registers that a line works on, by the number of its step. -/
def regsAt (i : ℕ) : Reg × Reg × Reg × Reg :=
  match i % 4 with
  | 0 => (.a, .b, .c, .d)
  | 1 => (.d, .a, .b, .c)
  | 2 => (.c, .d, .a, .b)
  | _ => (.b, .c, .d, .a)

/-- The line for a step. -/
def lineAt (i : ℕ) : Line :=
  let (ra, rb, rc, rd) := regsAt i
  ⟨roundAt i, ra, rb, rc, rd, wordAt i, rotationAt i, sines.getD i 0⟩

theorem lines_eq : lines = (List.range 64).map lineAt := by decide +kernel

/-- What the registers hold under the names they have at a step. -/
def turned (i : ℕ) (w : Words) : Words :=
  let (ra, rb, rc, rd) := regsAt i
  ⟨w.get ra, w.get rb, w.get rc, w.get rd⟩

theorem turned_exec (x : ℕ → UInt32) (w : Words) (i : ℕ) :
    turned (i + 1) (Line.exec x w (lineAt i)) = step x (turned i w) i := by
  have hlt : i % 4 < 4 := Nat.mod_lt _ (by decide)
  rcases (by omega : i % 4 = 0 ∨ i % 4 = 1 ∨ i % 4 = 2 ∨ i % 4 = 3) with h | h | h | h
  all_goals
    have hnext : (i + 1) % 4 = (i % 4 + 1) % 4 := by omega
    simp only [turned, regsAt, hnext, h, lineAt, step, Line.exec, Words.get, Words.set]

theorem turned_foldl (x : ℕ → UInt32) (w : Words) (k : ℕ) :
    turned k (((List.range k).map lineAt).foldl (Line.exec x) w) =
      (List.range k).foldl (step x) w := by
  induction k with
  | zero => rfl
  | succ k ih =>
    rw [List.range_succ, List.map_append, List.foldl_append, List.foldl_append, ← ih]
    exact turned_exec x _ k

/-- The lines do what the loop does. -/
theorem md5Transform_eq_compress : md5Transform = compress := by
  funext state block
  have h := turned_foldl (md5Decode block) state 64
  rw [← lines_eq] at h
  have hturned : ∀ w : Words, turned 64 w = w := fun w => rfl
  rw [hturned] at h
  rw [md5Transform, compress, h]

/-! ### The digest of data -/

/-- The length in bits, 64 of them, the lowest byte first. -/
def lengthBytes (len : ℕ) : Bytes := (List.range 8).map fun i => (8 * len / 256 ^ i).toUInt8

/-- What is put behind data: a bit, zeros up to eight bytes before the end of a block, and the
length. -/
def padding (len : ℕ) : Bytes :=
  0x80 :: List.replicate ((119 - len % 64) % 64) 0 ++ lengthBytes len

/-- The digest of data, block by block. -/
def digestOf (data : Bytes) : Bytes :=
  let w := Blocks.absorb compress 64 initWords (data ++ padding data.length)
  md5Encode [w.a, w.b, w.c, w.d]

/-- What a context says about the data that were put into it. -/
structure Holds (data : Bytes) (context : Md5Ctx) : Prop where
  state : context.state = Blocks.absorb compress 64 initWords data
  count : context.count0.toNat + 2 ^ 32 * context.count1.toNat = 8 * data.length % 2 ^ 64
  buffer : context.buffer.length = 64
  waiting : context.buffer.take (data.length % 64) = Blocks.rest 64 data

/-- No piece carries an index past the numbers of 32 bits, with `n` bytes before them. -/
def Fits : ℕ → List Bytes → Prop
  | _, [] => True
  | n, input :: inputs => n % 64 + input.length < 2 ^ 32 ∧ Fits (n + input.length) inputs

instance Fits.decidable : ∀ n inputs, Decidable (Fits n inputs)
  | _, [] => isTrue trivial
  | n, input :: inputs =>
    have := Fits.decidable (n + input.length) inputs
    inferInstanceAs (Decidable (n % 64 + input.length < 2 ^ 32 ∧ _))

/-! ### Counting -/

theorem toNat_bits {n : ℕ} (hn : n < 2 ^ 32) :
    (n.toUInt32 <<< 3).toNat = 8 * n % 2 ^ 32 ∧ (n.toUInt32 >>> 29).toNat = n / 2 ^ 29 := by
  have htoNat : n.toUInt32.toNat = n := UInt32.toNat_ofNat_of_lt' hn
  constructor
  · rw [UInt32.toNat_shiftLeft, htoNat, Nat.shiftLeft_eq]
    show n * 2 ^ 3 % 2 ^ 32 = _
    omega
  · rw [UInt32.toNat_shiftRight, htoNat, Nat.shiftRight_eq_div_pow]
    rfl

/-- The place in the buffer. -/
theorem idx_eq {context : Md5Ctx} {len : ℕ}
    (h : context.count0.toNat + 2 ^ 32 * context.count1.toNat = 8 * len % 2 ^ 64) :
    ((context.count0 >>> 3) &&& 0x3f).toNat = len % 64 := by
  have hlow : context.count0.toNat < 2 ^ 32 := context.count0.toNat_lt
  rw [UInt32.toNat_and, UInt32.toNat_shiftRight, Nat.shiftRight_eq_div_pow]
  show context.count0.toNat / 2 ^ 3 &&& (2 ^ 6 - 1) = _
  rw [Nat.and_two_pow_sub_one_eq_mod]
  omega

/-- The two words count the bits. -/
theorem count_add {c0 c1 : UInt32} {len n : ℕ} (hn : n < 2 ^ 32)
    (h : c0.toNat + 2 ^ 32 * c1.toNat = 8 * len % 2 ^ 64) :
    let count0 := c0 + n.toUInt32 <<< 3
    let count1 := (if count0 < n.toUInt32 <<< 3 then c1 + 1 else c1) + n.toUInt32 >>> 29
    count0.toNat + 2 ^ 32 * count1.toNat = 8 * (len + n) % 2 ^ 64 := by
  obtain ⟨hbits, hhigh⟩ := toNat_bits hn
  have hlow : c0.toNat < 2 ^ 32 := c0.toNat_lt
  have hc1 : c1.toNat < 2 ^ 32 := c1.toNat_lt
  intro count0 count1
  have hcount0 : count0.toNat = (c0.toNat + 8 * n % 2 ^ 32) % 2 ^ 32 := by
    show (c0 + n.toUInt32 <<< 3).toNat = _
    rw [UInt32.toNat_add, hbits]
  have hcarry : (if count0 < n.toUInt32 <<< 3 then c1 + 1 else c1).toNat =
      (c1.toNat + if count0.toNat < 8 * n % 2 ^ 32 then 1 else 0) % 2 ^ 32 := by
    have hiff : count0 < n.toUInt32 <<< 3 ↔ count0.toNat < 8 * n % 2 ^ 32 := by
      rw [UInt32.lt_iff_toNat_lt, hbits]
    by_cases hc : count0.toNat < 8 * n % 2 ^ 32
    · rw [if_pos (hiff.2 hc), if_pos hc, UInt32.toNat_add]
      rfl
    · rw [if_neg (mt hiff.1 hc), if_neg hc, Nat.add_zero, Nat.mod_eq_of_lt hc1]
  have hcount1 : count1.toNat =
      ((c1.toNat + if count0.toNat < 8 * n % 2 ^ 32 then 1 else 0) % 2 ^ 32 + n / 2 ^ 29) %
        2 ^ 32 := by
    show ((if count0 < n.toUInt32 <<< 3 then c1 + 1 else c1) + n.toUInt32 >>> 29).toNat = _
    rw [UInt32.toNat_add, hcarry, hhigh]
  rw [hcount1, hcount0]
  split_ifs <;> omega

/-! ### Blocks of the input -/

/-- The loop takes in the whole blocks that are left, or runs behind the input. -/
theorem md5Blocks_eq {input : Bytes} {fuel i : ℕ} {state : Words} (hlen : input.length < 2 ^ 32)
    (hi : i ≤ input.length) (hfuel : (input.length - i) / 64 < fuel) :
    md5Blocks input input.length fuel i state =
      let last := i + (input.length - i) / 64 * 64
      if last + 63 < 2 ^ 32 then
        some (last, Blocks.absorb compress 64 state (input.drop i))
      else none := by
  induction fuel generalizing i state with
  | zero => omega
  | succ fuel ih =>
    dsimp only at ih ⊢
    rw [md5Blocks]
    by_cases hblock : i + 64 ≤ input.length
    · have hwhole : (slice i 64 input).length = 64 := by
        rw [slice, List.length_take, List.length_drop]
        omega
      have hlast : i + 64 + (input.length - (i + 64)) / 64 * 64 =
          i + (input.length - i) / 64 * 64 := by omega
      have hdata : input.drop i = slice i 64 input ++ input.drop (i + 64) := by
        rw [slice, ← List.drop_drop, List.take_append_drop]
      rw [if_pos (by omega), if_pos hblock, ih hblock (by omega), hlast, hdata,
        Blocks.absorb_block_append _ (by decide) hwhole, md5Transform_eq_compress]
    · have hzero : (input.length - i) / 64 = 0 := by omega
      have hshort : (input.drop i).length < 64 := by
        rw [List.length_drop]
        omega
      simp only [hzero, Nat.zero_mul, Nat.add_zero]
      rw [Blocks.absorb_of_lt _ _ hshort]
      by_cases hwrap : i + 63 < 2 ^ 32
      · rw [if_neg (by omega), if_pos hwrap]
      · rw [if_pos (by omega), if_neg hblock, if_neg hwrap]

/-! ### Updates -/

theorem md5Init_holds {context : Md5Ctx} (h : context.buffer.length = 64) :
    Holds [] (md5Init context) where
  state := rfl
  count := rfl
  buffer := h
  waiting := rfl

/-- What waits and the input come to at most one block less one. -/
theorem holds_short {data input : Bytes} {context : Md5Ctx} (h : Holds data context)
    (hshort : data.length % 64 + input.length < 64) {count0 count1 : UInt32}
    (hcount : count0.toNat + 2 ^ 32 * count1.toNat = 8 * (data ++ input).length % 2 ^ 64) :
    Holds (data ++ input) ⟨context.state, count0, count1,
      storeAt (data.length % 64) input context.buffer⟩ := by
  have hroom : data.length % 64 + input.length ≤ context.buffer.length := by
    rw [h.buffer]
    omega
  have hlen : (Blocks.rest 64 data ++ input).length < 64 := by
    rw [List.length_append, Blocks.length_rest]
    exact hshort
  obtain ⟨hstate, hwait⟩ :=
    Blocks.absorb_rest compress (n := 64) (by decide) initWords data input
  rw [Blocks.absorb_of_lt _ _ hlen] at hstate
  rw [Blocks.rest_of_lt _ hlen] at hwait
  refine ⟨h.state.trans hstate, hcount, (length_storeAt hroom).trans h.buffer, ?_⟩
  have hmod : (data ++ input).length % 64 = data.length % 64 + input.length := by
    rw [List.length_append]
    omega
  have hfront : (Blocks.rest 64 data ++ input).length = data.length % 64 + input.length := by
    rw [List.length_append, Blocks.length_rest]
  rw [hmod, ← hwait, storeAt, h.waiting, List.take_left' hfront]

/-- What waits is filled up to a block, and what is left of the input after its whole blocks
waits. -/
theorem holds_long {data input : Bytes} {context : Md5Ctx} (h : Holds data context)
    (hlong : 64 ≤ data.length % 64 + input.length) {count0 count1 : UInt32}
    (hcount : count0.toNat + 2 ^ 32 * count1.toNat = 8 * (data ++ input).length % 2 ^ 64) :
    let part := 64 - data.length % 64
    let buffer := storeAt (data.length % 64) (input.take part) context.buffer
    let last := part + (input.length - part) / 64 * 64
    Holds (data ++ input)
      ⟨Blocks.absorb compress 64 (md5Transform context.state buffer) (input.drop part), count0,
        count1, storeAt 0 ((input.drop last).take (input.length - last)) buffer⟩ := by
  intro part buffer last
  have hidx : data.length % 64 < 64 := Nat.mod_lt _ (by decide)
  have hpart : (input.take part).length = part := by
    rw [List.length_take]
    omega
  have hbuffer : buffer = Blocks.rest 64 data ++ input.take part := by
    show storeAt _ _ _ = _
    rw [storeAt, h.waiting, hpart, List.drop_eq_nil_of_le (by rw [h.buffer]; omega),
      List.append_nil]
  have hblock : buffer.length = 64 := by
    rw [hbuffer, List.length_append, Blocks.length_rest, hpart]
    omega
  have hsplit : Blocks.rest 64 data ++ input = buffer ++ input.drop part := by
    rw [hbuffer, List.append_assoc, List.take_append_drop]
  obtain ⟨hstate, hwait⟩ :=
    Blocks.absorb_rest compress (n := 64) (by decide) initWords data input
  rw [hsplit, Blocks.absorb_block_append _ (by decide) hblock] at hstate
  rw [hsplit, Blocks.rest_block_append (by decide) hblock] at hwait
  have hleft : (input.drop last).take (input.length - last) = Blocks.rest 64 (input.drop part) := by
    rw [List.take_of_length_le (by rw [List.length_drop]), Blocks.rest, List.drop_drop,
      List.length_drop]
  have hleftLen : (Blocks.rest 64 (input.drop part)).length = (data ++ input).length % 64 := by
    rw [← Blocks.length_rest (n := 64) (data ++ input), ← hwait]
  have hleftLt : (data ++ input).length % 64 < 64 := Nat.mod_lt _ (by decide)
  refine ⟨?_, hcount, ?_, ?_⟩
  · rw [h.state, md5Transform_eq_compress]
    exact hstate
  · show (storeAt _ _ _).length = 64
    rw [hleft, length_storeAt (by omega), hblock]
  · show (storeAt _ _ _).take _ = _
    rw [hleft, storeAt_zero, List.take_left' hleftLen, hwait]

/-- An update puts its input behind the data, or reads behind the input. -/
theorem md5Update_holds {data input : Bytes} {context : Md5Ctx} (h : Holds data context)
    (hlen : input.length < 2 ^ 32) :
    (∃ context', md5Update context input = some context' ∧ Holds (data ++ input) context' ∧
      data.length % 64 + input.length < 2 ^ 32) ∨
    md5Update context input = none ∧ ¬ data.length % 64 + input.length < 2 ^ 32 := by
  have hcount := count_add hlen h.count
  rw [← List.length_append] at hcount
  dsimp only at hcount
  have hidx : data.length % 64 < 64 := Nat.mod_lt _ (by decide)
  rw [md5Update, idx_eq h.count, Nat.mod_eq_of_lt hlen]
  dsimp only
  by_cases hfull : 64 - data.length % 64 ≤ input.length
  · have hfuel : (input.length - (64 - data.length % 64)) / 64 < input.length / 64 + 1 := by omega
    rw [if_pos hfull, md5Blocks_eq hlen hfull hfuel]
    have hwrap : 64 - data.length % 64 + (input.length - (64 - data.length % 64)) / 64 * 64 + 63 <
        2 ^ 32 ↔ data.length % 64 + input.length < 2 ^ 32 := by omega
    simp only [hwrap]
    by_cases hfits : data.length % 64 + input.length < 2 ^ 32
    · left
      rw [if_pos hfits]
      exact ⟨_, rfl, holds_long h (by omega) hcount, hfits⟩
    · right
      rw [if_neg hfits]
      exact ⟨rfl, hfits⟩
  · left
    rw [if_neg hfull, List.take_of_length_le le_rfl]
    exact ⟨_, rfl, holds_short h (by omega) hcount, by omega⟩

/-- Updates that fit put all their inputs behind the data; one that does not fails. -/
theorem md5Updates_holds {data : Bytes} {context : Md5Ctx} (h : Holds data context)
    {inputs : List Bytes} (hlen : ∀ input ∈ inputs, input.length < 2 ^ 32) :
    (∃ context', md5Updates inputs context = some context' ∧
      Holds (data ++ inputs.flatten) context' ∧ Fits data.length inputs) ∨
    md5Updates inputs context = none ∧ ¬ Fits data.length inputs := by
  induction inputs generalizing data context with
  | nil =>
    rw [List.flatten_nil, List.append_nil]
    exact Or.inl ⟨context, rfl, h, trivial⟩
  | cons input inputs ih =>
    rw [List.forall_mem_cons] at hlen
    rw [md5Updates, List.flatten_cons, ← List.append_assoc]
    rcases md5Update_holds h hlen.1 with ⟨context', hsome, hholds, hfits⟩ | ⟨hnone, hfits⟩
    · rw [hsome, Option.bind_some]
      have hih := ih hholds hlen.2
      rw [List.length_append] at hih
      rcases hih with ⟨context'', hsome', hholds', hfits'⟩ | ⟨hnone', hfits'⟩
      · exact Or.inl ⟨context'', hsome', hholds', hfits, hfits'⟩
      · exact Or.inr ⟨hnone', fun hall => hfits' hall.2⟩
    · rw [hnone]
      exact Or.inr ⟨rfl, fun hall => hfits hall.1⟩

/-! ### The end -/

theorem byte_eq (w : UInt32) (x : ℕ) (h : w.toNat = x) : (w &&& 0xff).toUInt8 = x.toUInt8 := by
  apply UInt8.toNat_inj.1
  rw [UInt32.toNat_toUInt8, UInt32.toNat_and, h]
  show (x &&& (2 ^ 8 - 1)) % 256 = x % 256
  rw [Nat.and_two_pow_sub_one_eq_mod]
  omega

/-- The bytes of a word. -/
theorem md5Encode_cons (w : UInt32) (input : List UInt32) :
    md5Encode (w :: input) =
      [w.toNat.toUInt8, (w.toNat / 256).toUInt8, (w.toNat / 65536).toUInt8,
        (w.toNat / 16777216).toUInt8] ++ md5Encode input := by
  have hshift : ∀ k : UInt32, k.toNat < 32 → (w >>> k).toNat = w.toNat / 2 ^ k.toNat := by
    intro k hk
    rw [UInt32.toNat_shiftRight, Nat.mod_eq_of_lt hk, Nat.shiftRight_eq_div_pow]
  rw [md5Encode, List.flatMap_cons, ← md5Encode, byte_eq w _ rfl,
    byte_eq (w >>> 8) _ (hshift 8 (by decide)), byte_eq (w >>> 16) _ (hshift 16 (by decide)),
    byte_eq (w >>> 24) _ (hshift 24 (by decide))]
  rfl

/-- The count, as bytes. -/
theorem md5Encode_count {c0 c1 : UInt32} {len : ℕ}
    (h : c0.toNat + 2 ^ 32 * c1.toNat = 8 * len % 2 ^ 64) :
    md5Encode [c0, c1] = lengthBytes len := by
  have hlow : c0.toNat < 2 ^ 32 := c0.toNat_lt
  have hbyte : ∀ x y : ℕ, x % 256 = y % 256 → x.toUInt8 = y.toUInt8 := by
    intro x y hxy
    apply UInt8.toNat_inj.1
    exact hxy
  rw [md5Encode_cons, md5Encode_cons]
  show [_, _, _, _, _, _, _, _] = [_, _, _, _, _, _, _, _]
  simp only [List.cons.injEq, and_true]
  refine ⟨?_, ?_, ?_, ?_, ?_, ?_, ?_, ?_⟩
  all_goals
    apply hbyte
    norm_num
    omega

theorem length_lengthBytes (len : ℕ) : (lengthBytes len).length = 8 := by
  rw [lengthBytes, List.length_map, List.length_range]

theorem take_padding {k : ℕ} (hk : 0 < k) (hk' : k ≤ 64) :
    PADDING.take k = 0x80 :: List.replicate (k - 1) 0 := by
  obtain ⟨k, rfl⟩ := Nat.exists_eq_succ_of_ne_zero hk.ne'
  rw [PADDING, List.take_succ_cons, List.take_replicate, Nat.succ_sub_one,
    Nat.min_eq_left (by omega)]

/-- Padding fills the last block. -/
theorem md5Pad_holds {data : Bytes} {context : Md5Ctx} (h : Holds data context) :
    ∃ context', md5Pad context = some context' ∧
      Holds (data ++ padding data.length) context' := by
  have hidx : data.length % 64 < 64 := Nat.mod_lt _ (by decide)
  have hpad : PADDING.take (if data.length % 64 < 56 then 56 - data.length % 64
      else 120 - data.length % 64) = 0x80 :: List.replicate ((119 - data.length % 64) % 64) 0 := by
    rw [take_padding (by split_ifs <;> omega) (by split_ifs <;> omega)]
    congr 2
    split_ifs <;> omega
  rw [md5Pad, idx_eq h.count, md5Encode_count h.count, hpad]
  generalize hzeros : (0x80 :: List.replicate ((119 - data.length % 64) % 64) 0 : Bytes) = zeros
  have hlen : zeros.length < 65 := by
    rw [← hzeros, List.length_cons, List.length_replicate]
    omega
  rcases @md5Update_holds _ zeros _ h (by omega) with ⟨context', hsome, hholds, -⟩ | ⟨-, hno⟩
  · rw [hsome, Option.bind_some]
    have hbits := length_lengthBytes data.length
    rcases @md5Update_holds _ (lengthBytes data.length) _ hholds (by omega) with
      ⟨context'', hsome', hholds', -⟩ | ⟨-, hno⟩
    · refine ⟨context'', hsome', ?_⟩
      rw [padding, hzeros, ← List.append_assoc]
      exact hholds'
    · omega
  · omega

theorem md5Final_holds {data : Bytes} {context : Md5Ctx} (h : Holds data context) :
    md5Final context = some (digestOf data, zeroed) := by
  obtain ⟨context', hpad, hholds⟩ := md5Pad_holds h
  rw [md5Final, hpad, Option.map_some, hholds.state]
  rfl

/-- However data are cut, their digest is that of all of them, unless a piece is so long that the
index of a block cannot be told from one past the end. -/
theorem md5Stream_eq {context : Md5Ctx} (hbuffer : context.buffer.length = 64)
    {inputs : List Bytes} (hlen : ∀ input ∈ inputs, input.length < 2 ^ 32) :
    md5Stream context inputs = if Fits 0 inputs then some (digestOf inputs.flatten) else none := by
  have hstart := md5Init_holds hbuffer
  rw [md5Stream]
  rcases md5Updates_holds hstart hlen with ⟨context', hsome, hholds, hfits⟩ | ⟨hnone, hfits⟩
  · rw [hsome, Option.bind_some, md5Final_holds hholds]
    exact (if_pos hfits).symm
  · rw [hnone]
    exact (if_neg hfits).symm

/-- Two pieces of a text. -/
theorem md5Stream_eq_abc : md5Stream zeroed [bytes "a", bytes "bc"] =
    if Fits 0 [bytes "a", bytes "bc"] then some (digestOf [bytes "a", bytes "bc"].flatten)
    else none :=
  md5Stream_eq rfl (by decide)

/-! ### As text -/

/-- A digit of `hex`. -/
def hex (n : ℕ) : UInt8 := (bytes "0123456789abcdef").getD n 0

/-- The loop of `md5_end`. -/
def putHex : Bytes → ℕ → Bytes → Bytes
  | [], _, buf => buf
  | c :: digest, i, buf =>
      putHex digest (i + 2)
        (storeAt (i + 1) [hex (c &&& 0x0f).toNat] (storeAt i [hex (c >>> 4).toNat] buf))

/-- `md5_end` with the buffer at `pos` of an array. -/
def md5End (context : Md5Ctx) (pos : ℕ) (buf : Bytes) : Option Bytes :=
  (md5Final context).map fun (digest, _) =>
    storeAt (pos + 2 * LENGTH) [0] (putHex digest pos buf)

/-- `md5_data` -/
def md5Data (context : Md5Ctx) (data : Bytes) (pos : ℕ) (buf : Bytes) : Option Bytes :=
  (md5Update (md5Init context) data).bind fun context => md5End context pos buf

/-- The loop of `md5_file`, on what each `read` gives; the inner nothing is an error. -/
def md5Reads : List (Option Bytes) → Md5Ctx → Option (Option Md5Ctx)
  | [], context => some (some context)
  | none :: _, _ => some none
  | some [] :: _, context => some (some context)
  | some (c :: input) :: reads, context => (md5Update context (c :: input)).bind (md5Reads reads)

/-- `md5_file` for a file that could be opened. -/
def md5File (context : Md5Ctx) (reads : List (Option Bytes)) (pos : ℕ) (buf : Bytes) :
    Option (Option Bytes) :=
  (md5Reads reads (md5Init context)).bind fun
    | none => some none
    | some context => (md5End context pos buf).map some

/-- `BUFSIZ` -/
def BUFSIZ : ℕ := 8192

theorem length_digestOf (data : Bytes) : (digestOf data).length = LENGTH := by
  rw [digestOf, md5Encode_cons, md5Encode_cons, md5Encode_cons, md5Encode_cons]
  rfl

/-- The hash function of this file. -/
def md5 : Md5 where
  digest := digestOf
  length_digest := length_digestOf

theorem hex_eq {n : ℕ} (hn : n < 16) : hex n = Encoding.base16.digit n := by
  have hall : ∀ n < 16, hex n = Encoding.base16.digit n := by decide +kernel
  exact hall n hn

theorem hexDigits_cons (c : UInt8) (digest : Bytes) :
    hexDigits (c :: digest) =
      [hex (c >>> 4).toNat, hex (c &&& 0x0f).toNat] ++ hexDigits digest := by
  have hc := c.toNat_lt
  have hhigh : (c >>> 4).toNat = c.toNat / 16 := by
    rw [UInt8.toNat_shiftRight, Nat.shiftRight_eq_div_pow]
    rfl
  have hlow : (c &&& 0x0f).toNat = c.toNat % 16 := by
    rw [UInt8.toNat_and]
    exact Nat.and_two_pow_sub_one_eq_mod c.toNat 4
  rw [hhigh, hlow, hex_eq (by omega), hex_eq (by omega), hexDigits, List.flatMap_cons, ← hexDigits]

/-- The digits stand one after the other. -/
theorem putHex_append (digest : Bytes) (front behind : Bytes) :
    putHex digest front.length (front ++ behind) =
      front ++ hexDigits digest ++ behind.drop (2 * digest.length) := by
  induction digest generalizing front behind with
  | nil => simp [putHex, hexDigits]
  | cons c digest ih =>
    rw [putHex, storeAt_append, hexDigits_cons]
    generalize hex (c >>> 4).toNat = high
    generalize hex (c &&& 0x0f).toNat = low
    have hlen : front.length + 1 = (front ++ [high]).length := by simp
    have hlen' : front.length + 2 = (front ++ [high] ++ [low]).length := by simp
    rw [hlen, storeAt_append, hlen', ih, List.drop_drop, List.drop_drop]
    have hplace : [high].length + ([low].length + 2 * digest.length) =
        2 * (c :: digest).length := by
      rw [List.length_cons, List.length_cons, List.length_cons, List.length_nil]
      omega
    rw [hplace]
    simp only [List.append_assoc, List.cons_append, List.nil_append]

/-- The end of a context is the text of its digest. -/
theorem md5End_holds {data : Bytes} {context : Md5Ctx} (h : Holds data context) {pos : ℕ}
    {buf : Bytes} (hpos : pos ≤ buf.length) :
    md5End context pos buf = some (Ithildin.md5Data md5 data pos buf) := by
  obtain ⟨front, behind, rfl, rfl⟩ : ∃ front behind, buf = front ++ behind ∧ pos = front.length :=
    ⟨buf.take pos, buf.drop pos, (List.take_append_drop pos buf).symm,
      (List.length_take_of_le hpos).symm⟩
  have hlen : front.length + 2 * LENGTH = (front ++ hexDigits (digestOf data)).length := by
    rw [List.length_append, length_hexDigits, length_digestOf]
  have hdigits : (hexDigits (md5.digest data)).length = 2 * (digestOf data).length :=
    length_hexDigits _
  rw [md5End, md5Final_holds h, Option.map_some]
  dsimp only
  rw [putHex_append, hlen, storeAt_append, Ithildin.md5Data, storeAt_append, List.drop_drop,
    List.length_append, hdigits]
  simp only [List.append_assoc]
  rfl

/-- What `hostcrypt_md5` takes for its hash is what this file computes. -/
theorem md5Data_eq {context : Md5Ctx} (hbuffer : context.buffer.length = 64) {data buf : Bytes}
    (hlen : data.length < 2 ^ 32) {pos : ℕ} (hpos : pos ≤ buf.length) :
    md5Data context data pos buf = some (Ithildin.md5Data md5 data pos buf) := by
  rcases md5Update_holds (md5Init_holds hbuffer) hlen with ⟨context', hsome, hholds, -⟩ | ⟨-, hno⟩
  · rw [md5Data, hsome, Option.bind_some]
    exact md5End_holds hholds hpos
  · exact absurd hlen (by simpa using hno)

theorem md5Reads_some (reads : List Bytes) (hne : ∀ input ∈ reads, input ≠ []) (context : Md5Ctx) :
    md5Reads (reads.map some) context = (md5Updates reads context).map some := by
  induction reads generalizing context with
  | nil => rfl
  | cons input reads ih =>
    rw [List.forall_mem_cons] at hne
    obtain ⟨c, input, rfl⟩ := List.exists_cons_of_ne_nil hne.1
    rw [List.map_cons, md5Reads, md5Updates]
    cases md5Update context (c :: input) with
    | none => rfl
    | some context' => exact ih hne.2 context'

theorem fits_of_length_le {reads : List Bytes} (h : ∀ input ∈ reads, input.length ≤ BUFSIZ)
    (n : ℕ) : Fits n reads := by
  induction reads generalizing n with
  | nil => trivial
  | cons input reads ih =>
    rw [List.forall_mem_cons] at h
    have hlen : input.length ≤ 8192 := h.1
    exact ⟨by omega, ih h.2 _⟩

/-- A file's text does not depend on what each `read` gave of it, and is the one of its contents in
one piece; the digest can be read back from it. -/
theorem md5File_eq_md5Data {context : Md5Ctx} (hbuffer : context.buffer.length = 64)
    {reads : List Bytes} (hreads : ∀ input ∈ reads, input ≠ [] ∧ input.length ≤ BUFSIZ)
    (buf : Bytes) :
    ∃ buf', md5File context (reads.map some) 0 buf = some (some buf') ∧
      (reads.flatten.length < 2 ^ 32 → md5Data context reads.flatten 0 buf = some buf') ∧
      (strBaseDecode .base16 (buf'.take (2 * LENGTH))).1 = digestOf reads.flatten ∧
      strAt buf' = buf'.take (2 * LENGTH) := by
  have hlen : ∀ input ∈ reads, input.length < 2 ^ 32 := by
    intro input hinput
    have hle : input.length ≤ 8192 := (hreads input hinput).2
    omega
  refine ⟨Ithildin.md5Data md5 reads.flatten 0 buf, ?_, ?_, ?_⟩
  · rw [md5File, md5Reads_some reads fun input hinput => (hreads input hinput).1]
    rcases md5Updates_holds (md5Init_holds hbuffer) hlen with
      ⟨context', hsome, hholds, -⟩ | ⟨-, hno⟩
    · rw [hsome]
      show (md5End context' 0 buf).map some = _
      rw [md5End_holds hholds (Nat.zero_le _)]
      rfl
    · exact absurd (fits_of_length_le (fun input hinput => (hreads input hinput).2) _) hno
  · exact fun hshort => md5Data_eq hbuffer hshort (Nat.zero_le _)
  · have htake : (Ithildin.md5Data md5 reads.flatten 0 buf).take (2 * LENGTH) =
        hexDigits (digestOf reads.flatten) := by
      rw [Ithildin.md5Data, storeAt_zero, List.append_assoc, List.take_left']
      · rfl
      · rw [length_hexDigits, md5.length_digest]
    rw [htake]
    refine ⟨strBaseDecode_hexDigits _, ?_⟩
    rw [Ithildin.md5Data, storeAt_zero, List.append_assoc]
    exact strAt_text_append (isText_hexDigits _) _

/-- Two reads. -/
theorem md5File_eq_abc : ∃ buf', md5File zeroed ([bytes "ab", bytes "c"].map some) 0 [] =
      some (some buf') ∧
    ([bytes "ab", bytes "c"].flatten.length < 2 ^ 32 →
      md5Data zeroed [bytes "ab", bytes "c"].flatten 0 [] = some buf') ∧
    (strBaseDecode .base16 (buf'.take (2 * LENGTH))).1 = digestOf [bytes "ab", bytes "c"].flatten ∧
    strAt buf' = buf'.take (2 * LENGTH) :=
  md5File_eq_md5Data rfl (by decide) []

example : hexDigits (digestOf (bytes "abc")) = bytes "900150983cd24fb0d6963f7d28e17f72" := by
  decide +kernel

end Digest

end Ithildin
